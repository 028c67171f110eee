-- SUMMARY: The answer to every attempt to attach a source, from the history of commands and answers alone.
import IrqSynth.Proofs.Exclusive
import Mathlib.Data.List.Induction

/-!
# Attaching by history

The answer to every attempt to attach a source, told from the commands and answers before it alone:
which controllers were finalized, which handles were accepted and where, and which handles denote
the same source.

Main statement: `attach_answer_of_history`.
-/
namespace IrqSynth

/-- Commands with their answers, the oldest first. -/
abbrev History := List (Command × Answer)

/-- The history of a run from nothing. -/
def Design.history (commands : List Command) : History :=
  commands.zip (empty.run commands).1

namespace History

/-- The handles made so far. -/
def handles (past : History) : List Source :=
  past.filterMap fun (_, answer) =>
    match answer with
    | .source s => some s
    | _ => none

/-- The origins after one more command: a new source is its own origin, and another handle has the
origin of the handle that it was made from. -/
def noteOrigin (origins : List Nat) : Command × Answer → List Nat := fun (command, answer) =>
  match answer, command with
  | .source _, .handle j _ => origins ++ origins[j]?.toList
  | .source _, _ => origins ++ [origins.length]
  | _, _ => origins

/-- For every handle the handle that its source was made with. -/
def origins (past : History) : List Nat :=
  past.foldl noteOrigin []

/-- The handles denote one source. -/
def SameSource (past : History) (j k : Nat) : Prop :=
  past.origins[j]? = past.origins[k]?

/-- The handles that controller `m` accepted. -/
def accepted (past : History) (m : Nat) : List Nat :=
  past.filterMap fun (command, answer) =>
    match answer, command with
    | .attached _, .attach n j => if n = m then some j else none
    | _, _ => none

/-- Controller `m` was finalized. -/
def Finalized (past : History) (m : Nat) : Prop :=
  ∃ l, (.finalize m, .finalized l) ∈ past

/-- Some controller accepted the source of handle `j`. -/
def Claimed (past : History) (j : Nat) : Prop :=
  ∃ m, ∃ k ∈ past.accepted m, past.SameSource k j

/-- Controller `m` accepted a source of the given name. -/
def Named (past : History) (m : Nat) (name : String) : Prop :=
  ∃ k ∈ past.accepted m, ∃ t, past.handles[k]? = some t ∧ t.name = some name

/-- The answer that an attempt to attach `s`, the source of handle `j`, to controller `m` gets after a
history. The reasons to refuse it stand in the order in which they are given. -/
inductive Verdict (past : History) (m j : Nat) (s : Source) : Answer → Prop where
  | finalized (hfinal : past.Finalized m) : Verdict past m j s (.refused .alreadyFinalized)
  | duplicate (hopen : ¬past.Finalized m) (hclaimed : past.Claimed j) :
    Verdict past m j s (.refused (.duplicateSource s.id))
  | full (hopen : ¬past.Finalized m) (hfree : ¬past.Claimed j)
      (hfull : (past.accepted m).length = 1024) :
    Verdict past m j s (.refused (.tooManySources 1024))
  | collision (name : String) (hopen : ¬past.Finalized m) (hfree : ¬past.Claimed j)
      (hroom : (past.accepted m).length ≠ 1024) (hname : s.name = some name)
      (hnamed : past.Named m name) :
    Verdict past m j s (.refused (.nameCollision name))
  | attached (hopen : ¬past.Finalized m) (hfree : ¬past.Claimed j)
      (hroom : (past.accepted m).length ≠ 1024)
      (hfresh : ∀ name, s.name = some name → ¬past.Named m name) :
    Verdict past m j s (.attached ⟨s.trigger, s.status, s.pending, s.clear⟩)

variable {past : History} {command : Command} {answer : Answer} {m n j k : Nat} {s t : Source}
  {d d' : Design} {c : Controller}

/-! ## Longer histories -/

theorem handles_append (past later : History) :
    (past ++ later).handles = past.handles ++ later.handles :=
  List.filterMap_append

theorem accepted_append (past later : History) (m : Nat) :
    (past ++ later).accepted m = past.accepted m ++ later.accepted m :=
  List.filterMap_append

theorem origins_concat (past : History) (entry : Command × Answer) :
    (past ++ [entry]).origins = noteOrigin past.origins entry := by
  rw [origins, List.foldl_append]
  rfl

theorem finalized_concat :
    (past ++ [(command, answer)]).Finalized m ↔
      past.Finalized m ∨ command = .finalize m ∧ ∃ l, answer = .finalized l := by
  simp only [Finalized, List.mem_append, List.mem_singleton, Prod.mk.injEq, exists_or]
  grind

theorem finalized_concat_of_ne (hanswer : ∀ l, answer ≠ .finalized l) :
    (past ++ [(command, answer)]).Finalized m ↔ past.Finalized m := by
  rw [finalized_concat]
  constructor
  · rintro (hold | ⟨-, l, hl⟩)
    · exact hold
    · exact absurd hl (hanswer l)
  · exact .inl

/-! ## Handles -/

/-- The handles are those of the history, and two of them have the same id when they have the same
origin. -/
structure Handled (past : History) (sources : Array Source) : Prop where
  handles : sources.toList = past.handles
  length : past.origins.length = sources.size
  lt : ∀ o ∈ past.origins, o < sources.size
  same : ∀ (j k : Nat) (s t : Source), sources[j]? = some s → sources[k]? = some t →
    (past.SameSource j k ↔ s.id = t.id)

variable {sources : Array Source}

/-- A command that makes no handle. -/
theorem Handled.keep (h : past.Handled sources)
    (hhandles : History.handles [(command, answer)] = [])
    (horigins : ∀ origins, noteOrigin origins (command, answer) = origins) :
    Handled (past ++ [(command, answer)]) sources := by
  have hsame : (past ++ [(command, answer)]).origins = past.origins := by
    rw [origins_concat, horigins]
  refine ⟨?_, ?_, ?_, ?_⟩
  · rw [handles_append, hhandles, List.append_nil]
    exact h.handles
  · rw [hsame]
    exact h.length
  · rw [hsame]
    exact h.lt
  · unfold SameSource
    rw [hsame]
    exact h.same

/-- A command that makes a handle of origin `o`. -/
theorem Handled.push (h : past.Handled sources) {o : Nat}
    (horigins : noteOrigin past.origins (command, .source s) = past.origins ++ [o])
    (ho : o < sources.size + 1)
    (hsame : ∀ (k : Nat) (t : Source), sources[k]? = some t →
      (past.origins[k]? = some o ↔ t.id = s.id)) :
    Handled (past ++ [(command, .source s)]) (sources.push s) := by
  have hold (k : Nat) (t : Source) (ht : sources[k]? = some t) :
      (past.origins ++ [o])[k]? = past.origins[k]? := by
    have hk : k < sources.size := (Array.getElem?_eq_some_iff.1 ht).1
    exact List.getElem?_append_left (h.length ▸ hk)
  have hnew : (past.origins ++ [o])[sources.size]? = some o := by
    rw [← h.length]
    exact List.getElem?_concat_length
  refine ⟨?_, ?_, ?_, ?_⟩
  · rw [Array.toList_push, h.handles, handles_append]
    rfl
  · rw [origins_concat, horigins, List.length_append, Array.size_push, h.length]
    rfl
  · rw [origins_concat, horigins, Array.size_push]
    intro q hq
    rcases List.mem_append.1 hq with hq | hq
    · exact Nat.lt_succ_of_lt (h.lt q hq)
    · obtain rfl := List.mem_singleton.1 hq
      exact ho
  · intro j k t u ht hu
    rw [SameSource, origins_concat, horigins]
    rcases push_cases ht with ⟨rfl, rfl⟩ | htold
    · rcases push_cases hu with ⟨rfl, rfl⟩ | huold
      · simp
      · rw [hold k u huold, hnew, eq_comm, hsame k u huold, eq_comm]
    · rcases push_cases hu with ⟨rfl, rfl⟩ | huold
      · rw [hold j t htold, hnew]
        exact hsame j t htold
      · rw [hold j t htold, hold k u huold]
        exact h.same j k t u htold huold

/-! ## The record of a design -/

/-- What a design shows of its history. -/
structure Recorded (past : History) (d : Design) : Prop where
  handled : past.Handled d.sources
  accepted : ∀ (m : Nat) (c : Controller), d.controllers[m]? = some c →
    (c.roster.sources.map some).Perm ((past.accepted m).map fun j => d.sources[j]?)
  finalized : ∀ (m : Nat) (c : Controller), d.controllers[m]? = some c →
    (c.isFinalized ↔ past.Finalized m)
  absent : ∀ m, d.controllers.size ≤ m → past.accepted m = [] ∧ ¬past.Finalized m

theorem Recorded.exists_of_mem_accepted (h : past.Recorded d) (hc : d.controllers[m]? = some c)
    (hj : j ∈ past.accepted m) : ∃ s ∈ c.roster.sources, d.sources[j]? = some s := by
  have hmem : d.sources[j]? ∈ c.roster.sources.map some :=
    (h.accepted m c hc).mem_iff.2 (List.mem_map_of_mem hj)
  obtain ⟨s, hs, heq⟩ := List.mem_map.1 hmem
  exact ⟨s, hs, heq.symm⟩

theorem Recorded.exists_of_mem_roster (h : past.Recorded d) (hc : d.controllers[m]? = some c)
    (hs : s ∈ c.roster.sources) : ∃ j ∈ past.accepted m, d.sources[j]? = some s := by
  have hmem : some s ∈ (past.accepted m).map fun j => d.sources[j]? :=
    (h.accepted m c hc).mem_iff.1 (List.mem_map_of_mem hs)
  exact List.mem_map.1 hmem

/-- A command that accepts and finalizes nothing; it may create a controller and make handles. -/
theorem Recorded.extend (h : past.Recorded d)
    (hhandled : Handled (past ++ [(command, answer)]) d'.sources)
    (hsources : ∀ (j : Nat) (s : Source), d.sources[j]? = some s → d'.sources[j]? = some s)
    (hcontrollers : ∀ (m : Nat) (c : Controller), d'.controllers[m]? = some c →
      d.controllers[m]? = some c ∨ d.controllers.size ≤ m ∧ c.roster = .empty ∧ c.layout = none)
    (hsize : d.controllers.size ≤ d'.controllers.size)
    (haccepted : ∀ m, History.accepted [(command, answer)] m = [])
    (hfinal : ∀ l, answer ≠ .finalized l) : Recorded (past ++ [(command, answer)]) d' := by
  have hsame (m : Nat) : History.accepted (past ++ [(command, answer)]) m = past.accepted m := by
    rw [accepted_append, haccepted, List.append_nil]
  refine ⟨hhandled, ?_, ?_, ?_⟩
  · intro m c hc
    rw [hsame]
    rcases hcontrollers m c hc with hold | ⟨hm, hroster, -⟩
    · have hmap : ((past.accepted m).map fun j => d'.sources[j]?) =
          (past.accepted m).map fun j => d.sources[j]? := by
        apply List.map_congr_left
        intro j hj
        obtain ⟨s, -, hs⟩ := h.exists_of_mem_accepted hold hj
        exact (hsources j s hs).trans hs.symm
      rw [hmap]
      exact h.accepted m c hold
    · rw [hroster, (h.absent m hm).1]
      exact .nil
  · intro m c hc
    rw [finalized_concat_of_ne hfinal]
    rcases hcontrollers m c hc with hold | ⟨hm, -, hlayout⟩
    · exact h.finalized m c hold
    · rw [Controller.isFinalized, hlayout]
      simp [(h.absent m hm).2]
  · intro m hm
    rw [hsame, finalized_concat_of_ne hfinal]
    exact h.absent m (Nat.le_trans hsize hm)

theorem Recorded.attach (h : past.Recorded d) (hc : d.controllers[m]? = some c)
    (hs : d.sources[j]? = some s) (hid : s.id ∉ c.roster.ids)
    (hsources : d'.sources = d.sources)
    (hcontrollers : d'.controllers = d.controllers.setIfInBounds m (c.accept s)) :
    Recorded (past ++ [(.attach m j, .attached s.ports)]) d' := by
  have haccepted (n : Nat) : History.accepted (past ++ [(.attach m j, .attached s.ports)]) n =
      past.accepted n ++ if m = n then [j] else [] := by
    rw [accepted_append]
    by_cases hm : m = n <;> simp [History.accepted, hm]
  have hfinal (n : Nat) : History.Finalized (past ++ [(.attach m j, .attached s.ports)]) n ↔
      past.Finalized n :=
    finalized_concat_of_ne fun _ => Answer.noConfusion
  refine ⟨hsources ▸ h.handled.keep rfl fun _ => rfl, ?_, ?_, ?_⟩
  · intro n c' hc'
    rw [hcontrollers] at hc'
    rw [haccepted, hsources, List.map_append]
    rcases replace_cases hc hc' with ⟨rfl, rfl⟩ | ⟨hm, hc'⟩
    · have hperm : ((c.accept s).roster.sources.map some).Perm
          (some s :: c.roster.sources.map some) :=
        (Roster.perm_insert hid).map some
      rw [if_pos rfl, List.map_singleton, hs]
      exact hperm.trans (((h.accepted m c hc).cons _).trans (List.perm_append_singleton _ _).symm)
    · rw [if_neg hm, List.map_nil, List.append_nil]
      exact h.accepted n c' hc'
  · intro n c' hc'
    rw [hcontrollers] at hc'
    rw [hfinal]
    rcases replace_cases hc hc' with ⟨rfl, rfl⟩ | ⟨-, hc'⟩
    · exact h.finalized m c hc
    · exact h.finalized n c' hc'
  · intro n hn
    rw [hcontrollers, Array.size_setIfInBounds] at hn
    have hm : m < d.controllers.size := (Array.getElem?_eq_some_iff.1 hc).1
    rw [haccepted, hfinal, if_neg (Nat.ne_of_lt (Nat.lt_of_lt_of_le hm hn)), List.append_nil]
    exact h.absent n hn

theorem Recorded.finalize (h : past.Recorded d) (hc : d.controllers[m]? = some c) {l : Layout}
    (hsources : d'.sources = d.sources)
    (hcontrollers : d'.controllers =
      d.controllers.setIfInBounds m { c with layout := some l }) :
    Recorded (past ++ [(.finalize m, .finalized l)]) d' := by
  have haccepted (n : Nat) :
      History.accepted (past ++ [(.finalize m, .finalized l)]) n = past.accepted n := by
    rw [accepted_append]
    exact List.append_nil _
  have hfinal (n : Nat) : History.Finalized (past ++ [(.finalize m, .finalized l)]) n ↔
      past.Finalized n ∨ m = n := by
    rw [finalized_concat]
    simp
  refine ⟨hsources ▸ h.handled.keep rfl fun _ => rfl, ?_, ?_, ?_⟩
  · intro n c' hc'
    rw [hcontrollers] at hc'
    rw [haccepted, hsources]
    rcases replace_cases hc hc' with ⟨rfl, rfl⟩ | ⟨-, hc'⟩
    · exact h.accepted m c hc
    · exact h.accepted n c' hc'
  · intro n c' hc'
    rw [hcontrollers] at hc'
    rw [hfinal]
    rcases replace_cases hc hc' with ⟨rfl, rfl⟩ | ⟨hm, hc'⟩
    · simp [Controller.isFinalized]
    · rw [h.finalized n c' hc']
      simp [hm]
  · intro n hn
    rw [hcontrollers, Array.size_setIfInBounds] at hn
    have hm : m < d.controllers.size := (Array.getElem?_eq_some_iff.1 hc).1
    have hne : m ≠ n := Nat.ne_of_lt (Nat.lt_of_lt_of_le hm hn)
    rw [haccepted, hfinal]
    simp [hne, h.absent n hn]

/-! ## Runs -/

/-- Every command keeps a design and its history in step. -/
theorem Recorded.step (h : past.Recorded d) (ha : d.Allocated) (he : d.Effect command answer d') :
    Recorded (past ++ [(command, answer)]) d' := by
  -- what the commands below have in common: they touch no source and no controller that exists
  have hsilent (hsources : d'.sources = d.sources) (hcontrollers : d'.controllers = d.controllers)
      (hhandles : History.handles [(command, answer)] = [])
      (horigins : ∀ origins, noteOrigin origins (command, answer) = origins)
      (haccepted : ∀ m, History.accepted [(command, answer)] m = [])
      (hfinal : ∀ l, answer ≠ .finalized l) : Recorded (past ++ [(command, answer)]) d' := by
    have hhandled := h.handled.keep hhandles horigins
    rw [← hsources] at hhandled
    exact h.extend hhandled (fun j s hs => hsources ▸ hs)
      (fun m c hc => .inl (hcontrollers ▸ hc)) (hcontrollers ▸ Nat.le_refl _) haccepted hfinal
  cases he with
  | refused => exact hsilent rfl rfl rfl (fun _ => rfl) (fun _ => rfl) fun _ => Answer.noConfusion
  | missing => exact hsilent rfl rfl rfl (fun _ => rfl) (fun _ => rfl) fun _ => Answer.noConfusion
  | bank => exact hsilent rfl rfl rfl (fun _ => rfl) (fun _ => rfl) fun _ => Answer.noConfusion
  | signal => exact hsilent rfl rfl rfl (fun _ => rfl) (fun _ => rfl) fun _ => Answer.noConfusion
  | register => exact hsilent rfl rfl rfl (fun _ => rfl) (fun _ => rfl) fun _ => Answer.noConfusion
  | share => exact hsilent rfl rfl rfl (fun _ => rfl) (fun _ => rfl) fun _ => Answer.noConfusion
  | controller =>
    refine h.extend (h.handled.keep rfl fun _ => rfl) (fun j s hs => hs) ?_ ?_ (fun _ => rfl)
      fun _ => Answer.noConfusion
    · intro m c hc
      rcases push_cases hc with ⟨rfl, rfl⟩ | hc
      · exact .inr ⟨Nat.le_refl _, rfl, rfl⟩
      · exact .inl hc
    · rw [Array.size_push]
      exact Nat.le_succ _
  | source kind name description s hs =>
    have hid : s.id = d.nextSource := hs ▸ rfl
    have horigin (k : Nat) (t : Source) (ht : d.sources[k]? = some t) :
        past.origins[k]? = some past.origins.length ↔ t.id = s.id := by
      have hfresh := (ha.fresh t (Array.mem_of_getElem? ht)).1
      constructor
      · intro ho
        have hlt := h.handled.lt _ (List.mem_of_getElem? ho)
        rw [h.handled.length] at hlt
        exact absurd hlt (Nat.lt_irrefl _)
      · intro heq
        rw [heq, hid] at hfresh
        exact absurd hfresh (Nat.lt_irrefl _)
    have hlength : past.origins.length < d.sources.size + 1 :=
      h.handled.length ▸ Nat.lt_succ_self _
    exact h.extend (h.handled.push rfl hlength horigin) (fun j t ht => getElem?_push_of_some ht)
      (fun m c hc => .inl hc) (Nat.le_refl _) (fun _ => rfl) fun _ => Answer.noConfusion
  | handle j description s hs =>
    have hj : j < past.origins.length := by
      rw [h.handled.length]
      exact (Array.getElem?_eq_some_iff.1 hs).1
    have horigin (k : Nat) (t : Source) (ht : d.sources[k]? = some t) :
        past.origins[k]? = some past.origins[j] ↔ t.id = s.id := by
      rw [← List.getElem?_eq_getElem hj]
      exact h.handled.same k j t s ht hs
    have hnote : noteOrigin past.origins
        (.handle j description, .source { s with description := description <|> s.description }) =
          past.origins ++ [past.origins[j]] := by
      rw [noteOrigin, List.getElem?_eq_getElem hj]
      rfl
    have hlt := Nat.lt_succ_of_lt (h.handled.lt _ (List.getElem_mem hj))
    exact h.extend (h.handled.push hnote hlt horigin) (fun j t ht => getElem?_push_of_some ht)
      (fun m c hc => .inl hc) (Nat.le_refl _) (fun _ => rfl) fun _ => Answer.noConfusion
  | attach m j c s owned hc hs hfree howned =>
    exact h.attach hc hs (Controller.objection?_eq_none.1 hfree).2.1 rfl rfl
  | finalize m c l hc => exact h.finalize hc rfl rfl

theorem recorded_empty : Recorded [] .empty := by
  refine ⟨⟨rfl, rfl, nofun, ?_⟩, ?_, ?_, fun m hm => ⟨rfl, fun ⟨_, h⟩ => List.not_mem_nil h⟩⟩
  · intro j k s t hs
    simp [Design.empty] at hs
  · intro m c hc
    simp [Design.empty] at hc
  · intro m c hc
    simp [Design.empty] at hc

theorem length_run (d : Design) (commands : List Command) :
    (d.run commands).1.length = commands.length := by
  induction commands generalizing d with
  | nil => rfl
  | cons command rest ih => simp [Design.run, ih]

theorem history_concat (before : List Command) (command : Command) :
    Design.history (before ++ [command]) = Design.history before ++
      [(command, ((Design.empty.run before).2.perform command).1)] := by
  rw [Design.history, Design.run_concat, List.zip_append (length_run _ before).symm]
  rfl

theorem recorded_run (commands : List Command) :
    (Design.history commands).Recorded (Design.empty.run commands).2 := by
  induction commands using List.reverseRecOn with
  | nil => exact recorded_empty
  | append_singleton before command ih =>
    rw [history_concat, Design.run_concat]
    exact ih.step (Design.wellFormed_run before).allocated (Design.perform_effect _ command)

/-! ## Verdicts -/

theorem Recorded.exists_of_mem (h : past.Recorded d) (hj : j ∈ past.accepted m) :
    ∃ c, d.controllers[m]? = some c := by
  rcases Nat.lt_or_ge m d.controllers.size with hm | hm
  · exact ⟨_, Array.getElem?_eq_getElem hm⟩
  · rw [(h.absent m hm).1] at hj
    cases hj

theorem Recorded.claimed_iff (h : past.Recorded d) (hx : d.Exclusive)
    (hs : d.sources[j]? = some s) : past.Claimed j ↔ d.owned.isTaken s.id := by
  rw [hx.taken]
  constructor
  · rintro ⟨m, k, hk, hsame⟩
    obtain ⟨c, hc⟩ := h.exists_of_mem hk
    obtain ⟨t, ht, hsource⟩ := h.exists_of_mem_accepted hc hk
    have hid := (h.handled.same k j t s hsource hs).1 hsame
    exact ⟨m, c, hc, hid ▸ List.mem_map_of_mem ht⟩
  · rintro ⟨m, c, hc, hid⟩
    obtain ⟨t, ht, hid⟩ := List.mem_map.1 hid
    obtain ⟨k, hk, hsource⟩ := h.exists_of_mem_roster hc ht
    exact ⟨m, k, hk, (h.handled.same k j t s hsource hs).2 hid⟩

theorem Recorded.handles_getElem? (h : past.Recorded d) (j : Nat) :
    past.handles[j]? = d.sources[j]? := by
  rw [← h.handled.handles, Array.getElem?_toList]

theorem Recorded.named_iff (h : past.Recorded d) (hx : d.Exclusive)
    (hc : d.controllers[m]? = some c) (name : String) :
    past.Named m name ↔ c.names.contains name := by
  rw [(hx.orderly m c hc).names, Roster.names, List.mem_filterMap]
  constructor
  · rintro ⟨k, hk, t, ht, hname⟩
    obtain ⟨u, hu, hsource⟩ := h.exists_of_mem_accepted hc hk
    rw [h.handles_getElem?, hsource] at ht
    obtain rfl := Option.some.inj ht
    exact ⟨u, hu, hname⟩
  · rintro ⟨t, ht, hname⟩
    obtain ⟨k, hk, hsource⟩ := h.exists_of_mem_roster hc ht
    exact ⟨k, hk, t, (h.handles_getElem? k).trans hsource, hname⟩

theorem Recorded.size_eq (h : past.Recorded d) (hc : d.controllers[m]? = some c) :
    c.roster.size = (past.accepted m).length := by
  have hlength := (h.accepted m c hc).length_eq
  rwa [List.length_map, List.length_map] at hlength

theorem Recorded.verdict (h : past.Recorded d) (hx : d.Exclusive)
    (hc : d.controllers[m]? = some c) (hs : d.sources[j]? = some s) :
    past.Verdict m j s (d.perform (.attach m j)).1 := by
  have hfinal := h.finalized m c hc
  have hclaimed := h.claimed_iff hx hs
  have hsize := h.size_eq hc
  have hcapacity := (hx.orderly m c hc).capacity
  have hheld : c.roster.holds s.id → d.owned.isTaken s.id := by
    intro hholds
    exact (hx.taken s.id).2 ⟨m, c, hc, Roster.holds_iff.1 hholds⟩
  rw [Design.perform_attach hc hs]
  unfold Controller.objection?
  by_cases hfinalized : c.isFinalized
  · rw [if_pos hfinalized]
    exact .finalized (hfinal.1 hfinalized)
  have hopen : ¬past.Finalized m := fun hold => hfinalized (hfinal.2 hold)
  rw [if_neg hfinalized]
  by_cases htaken : d.owned.isTaken s.id
  · rw [htaken, Bool.or_true, if_pos rfl]
    exact .duplicate hopen (hclaimed.2 htaken)
  have hfree : ¬past.Claimed j := fun hold => htaken (hclaimed.1 hold)
  have hnotheld : ¬(c.roster.holds s.id || d.owned.isTaken s.id) = true := by
    rw [Bool.or_eq_true]
    exact fun hor => hor.elim (fun hholds => htaken (hheld hholds)) htaken
  rw [if_neg hnotheld]
  by_cases hfull : Controller.maxSources ≤ c.roster.size
  · rw [if_pos hfull]
    exact .full hopen hfree (hsize ▸ Nat.le_antisymm hcapacity hfull)
  have hroom : (past.accepted m).length ≠ 1024 := fun heq =>
    hfull (Nat.le_of_eq (hsize.trans heq).symm)
  rw [if_neg hfull]
  cases hname : s.name with
  | none => exact .attached hopen hfree hroom fun name hsome => by simp [hname] at hsome
  | some name =>
    have hnamed := h.named_iff hx hc name
    cases hcontains : c.names.contains name with
    | true =>
      simp only [hcontains, if_true]
      exact .collision name hopen hfree hroom hname (hnamed.2 hcontains)
    | false =>
      simp only [hcontains, Bool.false_eq_true, if_false]
      refine .attached hopen hfree hroom ?_
      intro other hother hold
      obtain rfl : name = other := Option.some.inj (hname.symm.trans hother)
      rw [hnamed.1 hold] at hcontains
      cases hcontains

end History

/-- The answer to an attempt to attach follows from the history by five rules, of which the first
that applies decides. In every design a source is taken exactly when a single controller holds it,
a controller records the distinct names of at most 1024 sources, and a source without objection is
free to be taken. -/
theorem attach_answer_of_history (commands : List Command) :
    let d := (Design.empty.run commands).2
    let past := Design.history commands
    (∀ m j s, m < d.controllers.size → past.handles[j]? = some s →
      past.Verdict m j s (d.perform (.attach m j)).1) ∧
      (∀ m n id, d.Holds m id → d.Holds n id → m = n) ∧
      (∀ id, d.owned.isTaken id ↔ ∃! m, d.Holds m id) ∧
      ∀ (m : Nat) (c : Controller), d.controllers[m]? = some c →
        (c.roster.sources.filterMap Source.name).Nodup ∧
          (∀ name, c.names.contains name ↔ ∃ s ∈ c.roster.sources, s.name = some name) ∧
          c.roster.size ≤ 1024 ∧
          ∀ s, c.objection? d.owned s = none → (d.owned.take? s.id).isSome := by
  intro d past
  have hrecorded : past.Recorded d := History.recorded_run commands
  have hexclusive : d.Exclusive := Design.exclusive_run commands
  refine ⟨?_, hexclusive.single, ?_, ?_⟩
  · intro m j s hm hs
    rw [hrecorded.handles_getElem?] at hs
    exact hrecorded.verdict hexclusive (Array.getElem?_eq_getElem hm) hs
  · intro id
    rw [hexclusive.taken]
    constructor
    · rintro ⟨m, hm⟩
      exact ⟨m, hm, fun n hn => hexclusive.single n m id hn hm⟩
    · rintro ⟨m, hm, -⟩
      exact ⟨m, hm⟩
  · intro m c hc
    obtain ⟨hnames, hdistinct, hcapacity⟩ := hexclusive.orderly m c hc
    refine ⟨hdistinct, ?_, hcapacity, ?_⟩
    · intro name
      rw [hnames, Roster.names, List.mem_filterMap]
    · intro s hfree
      rw [Ownership.take?_eq_some.2 ⟨(Controller.objection?_eq_none.1 hfree).2.2.1, rfl⟩]
      rfl

/-- A second handle to a source that another controller holds is refused. -/
theorem second_handle_refused :
    let commands : List Command :=
      [.controller, .controller, .source .pulse (some "rx") none, .handle 0 (some "receiver"),
        .attach 0 0]
    let d := (Design.empty.run commands).2
    let s : Source := ⟨0, .pulse, some "rx", some "receiver", 2⟩
    1 < d.controllers.size ∧ (Design.history commands).handles[1]? = some s ∧
      (Design.history commands).Verdict 1 1 s (.refused (.duplicateSource 0)) := by
  intro commands d s
  have hm : 1 < d.controllers.size := by decide +kernel
  have hs : (Design.history commands).handles[1]? = some s := by decide +kernel
  have hanswer : (d.perform (.attach 1 1)).1 = .refused (.duplicateSource 0) := by decide +kernel
  have hverdict := (attach_answer_of_history commands).1 1 1 s hm hs
  exact ⟨hm, hs, hanswer ▸ hverdict⟩

end IrqSynth
