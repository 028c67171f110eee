-- SUMMARY: A shared line is the disjunction of its members in all logic put together from them.
import IrqSynth.Proofs.DrivenNets
import IrqSynth.Proofs.SettleAnswer

/-!
# Shared interrupt lines

A shared line is high exactly while the line of one of its members is. This holds in all logic put
together from the shared line and its finalized members, in any order and with repetitions, whether
a member was finalized before the lines were joined, after that or not at all.

Main statements: `Assembly.restsAt` (the shared line rests one pass after its members),
`Assembly.governs` (members are not disturbed) and `shared_line_eq_or_members`.
-/
namespace IrqSynth

open Assignment
open Stmt (assignmentsAll)

/-! ## The logic of a shared line -/

namespace SharedLine

variable {l : SharedLine} {a : Assignment} {x : SignalId}

theorem mem_comb : a ∈ assignmentsAll l.logic.comb ↔
    a = ⟨[], l.irq.id, .disjunction (l.members.map .signal)⟩ :=
  List.mem_singleton

theorem drives_logic : l.logic.Drives x ↔ x = l.irq.id := by
  have hsync : assignmentsAll l.logic.sync = [] := rfl
  simp [Fragment.drives_iff, mem_comb, hsync, eq_comm]

/-- The line is the disjunction of its members. -/
theorem lastActive?_logic (ρ : SignalId → Bool) :
    lastActive? ρ (assignmentsAll l.logic.comb) l.irq.id = some (l.members.any ρ) := by
  have hunique := lastActive?_of_unique (ρ := ρ) (mem_comb (l := l).2 rfl)
    fun b hb _ => mem_comb.1 hb
  rw [hunique, Expr.eval_disjunction, List.any_map]
  rfl

end SharedLine

/-! ## Members of a line -/

section

variable {α β : Type} {f : α → Option β} {xs : List α} {ys : List β} {y : β}

theorem mem_of_mapM (h : xs.mapM f = some ys) : y ∈ ys ↔ ∃ x ∈ xs, f x = some y := by
  induction xs generalizing ys with
  | nil =>
    obtain rfl : [] = ys := Option.some.inj h
    simp
  | cons x rest ih =>
    rw [List.mapM_cons] at h
    obtain ⟨z, hz, h⟩ := Option.bind_eq_some_iff.1 h
    obtain ⟨zs, hzs, h⟩ := Option.bind_eq_some_iff.1 h
    obtain rfl : z :: zs = ys := Option.some.inj h
    rw [List.mem_cons, ih hzs, List.exists_mem_cons_iff, hz, Option.some_inj, eq_comm]

theorem exists_mapM (h : ∀ x ∈ xs, ∃ y, f x = some y) : ∃ ys, xs.mapM f = some ys := by
  induction xs with
  | nil => exact ⟨[], rfl⟩
  | cons x rest ih =>
    obtain ⟨y, hy⟩ := h x List.mem_cons_self
    obtain ⟨ys, hys⟩ := ih fun x hx => h x (List.mem_cons_of_mem _ hx)
    refine ⟨y :: ys, ?_⟩
    rw [List.mapM_cons, hy, hys]
    rfl

end

namespace Design

variable {d d' : Design} {command : Command} {answer : Answer} {ms : List Nat} {m : Nat}
  {c c' : Controller} {l : Layout} {line : SharedLine} {parts : List Fragment} {g : Fragment}
  {x : SignalId}

/-- Shared lines stay as they are, and controllers keep their interrupt lines. -/
structure KeepsLines (d d' : Design) : Prop where
  shared : ∀ {k : Nat} {line : SharedLine}, d.lines[k]? = some line → d'.lines[k]? = some line
  own : ∀ {m : Nat} {c : Controller}, d.controllers[m]? = some c →
    ∃ c', d'.controllers[m]? = some c' ∧ c'.irq = c.irq

theorem KeepsLines.of_eq (hlines : d'.lines = d.lines)
    (hcontrollers : d'.controllers = d.controllers) : d.KeepsLines d' :=
  ⟨fun h => hlines ▸ h, fun h => ⟨_, hcontrollers ▸ h, rfl⟩⟩

theorem KeepsLines.replace (hc : d.controllers[m]? = some c) (hlines : d'.lines = d.lines)
    (hcontrollers : d'.controllers = d.controllers.setIfInBounds m c') (hirq : c'.irq = c.irq) :
    d.KeepsLines d' := by
  refine ⟨fun h => hlines ▸ h, fun {n c₀} hn => ?_⟩
  rw [hcontrollers, getElem?_replace _ hc]
  split
  · rename_i hm
    subst hm
    obtain rfl := Option.some.inj (hc.symm.trans hn)
    exact ⟨c', rfl, hirq⟩
  · exact ⟨c₀, hn, rfl⟩

theorem Effect.keepsLines (he : d.Effect command answer d') : d.KeepsLines d' := by
  cases he with
  | refused => exact .of_eq rfl rfl
  | missing => exact .of_eq rfl rfl
  | bank => exact .of_eq rfl rfl
  | signal => exact .of_eq rfl rfl
  | source => exact .of_eq rfl rfl
  | handle => exact .of_eq rfl rfl
  | register => exact .of_eq rfl rfl
  | controller => exact ⟨id, fun hc => ⟨_, getElem?_push_of_some hc, rfl⟩⟩
  | attach m j c s owned hc => exact .replace hc rfl rfl rfl
  | finalize m c l hc => exact .replace hc rfl rfl rfl
  | share => exact ⟨getElem?_push_of_some, fun hc => ⟨_, hc, rfl⟩⟩

/-- The line was made in this design, out of the lines of the listed controllers. -/
structure Joins (d : Design) (ms : List Nat) (line : SharedLine) : Prop where
  made : ∃ k : Nat, d.lines[k]? = some line
  exist : ∀ m ∈ ms, ∃ c, d.controllers[m]? = some c
  members : ∀ x, x ∈ line.members ↔ ∃ m ∈ ms, ∃ c, d.controllers[m]? = some c ∧ x = c.irq.id

theorem Joins.mono (h : d.Joins ms line) (hd : d.KeepsLines d') : d'.Joins ms line := by
  obtain ⟨k, hk⟩ := h.made
  refine ⟨⟨k, hd.shared hk⟩, ?_, ?_⟩
  · intro m hm
    obtain ⟨c, hc⟩ := h.exist m hm
    obtain ⟨c', hc', -⟩ := hd.own hc
    exact ⟨c', hc'⟩
  · intro x
    rw [h.members]
    refine exists_congr fun m => and_congr_right fun hm => ?_
    -- the position was taken when the line was made, so no later controller has come there
    obtain ⟨c, hc⟩ := h.exist m hm
    obtain ⟨c', hc', hirq⟩ := hd.own hc
    simp only [hc, hc', Option.some.injEq, exists_eq_left', hirq]

theorem Joins.run (h : d.Joins ms line) (commands : List Command) :
    (d.run commands).2.Joins ms line :=
  run_keeps (P := fun d => d.Joins ms line) (fun he h => h.mono he.keepsLines) h commands

/-- Sharing one or more controllers succeeds. -/
theorem exists_shared (hne : ms ≠ []) (hms : ∀ m ∈ ms, m < d.controllers.size) :
    ∃ line, (d.perform (.share ms)).1 = .shared line ∧ (d.perform (.share ms)).2.Joins ms line := by
  have hexist : ∀ m ∈ ms, ∃ c, d.controllers[m]? = some c :=
    fun m hm => ⟨_, Array.getElem?_eq_getElem (hms m hm)⟩
  obtain ⟨cs, hcs⟩ := exists_mapM hexist
  have hcsne : cs ≠ [] := by
    rintro rfl
    obtain ⟨m, hm⟩ := List.exists_mem_of_ne_nil ms hne
    obtain ⟨c, hc⟩ := hexist m hm
    exact List.not_mem_nil ((mem_of_mapM hcs).2 ⟨m, hm, hc⟩)
  obtain ⟨line, hline⟩ : ∃ line, SharedLine.join cs d.nextSignal = .ok line :=
    ⟨_, SharedLine.join_eq_ok.2 ⟨hcsne, rfl⟩⟩
  have hperform : d.perform (.share ms) = (.shared line,
      { d with nextSignal := d.nextSignal + 1, lines := d.lines.push line }) := by
    simp only [perform, share, hcs, hline]
  rw [hperform]
  refine ⟨line, rfl, ⟨d.lines.size, Array.getElem?_push_size⟩, hexist, ?_⟩
  intro x
  rw [(SharedLine.join_eq_ok.1 hline).2, List.mem_map]
  constructor
  · rintro ⟨c, hc, rfl⟩
    obtain ⟨m, hm, hc⟩ := (mem_of_mapM hcs).1 hc
    exact ⟨m, hm, c, hc, rfl⟩
  · rintro ⟨m, hm, c, hc, rfl⟩
    exact ⟨c, (mem_of_mapM hcs).2 ⟨m, hm, hc⟩, rfl⟩

/-! ## Putting the logic together -/

/-- The parts are the logic of the line and that of all members that are finalized, in some order
and each at least once. -/
def Assembles (d : Design) (ms : List Nat) (line : SharedLine) (parts : List Fragment) : Prop :=
  ∀ f, f ∈ parts ↔ f = line.logic ∨
    ∃ m ∈ ms, ∃ c l, d.controllers[m]? = some c ∧ c.layout = some l ∧ f = l.logic

/-- The parts of the logic of a line in a design that was built from nothing. -/
structure Assembly (d : Design) (ms : List Nat) (line : SharedLine) (parts : List Fragment) :
    Prop where
  wellFormed : d.WellFormed
  exclusive : d.Exclusive
  partitioned : d.Partitioned
  joins : d.Joins ms line
  assembles : d.Assembles ms line parts

namespace Assembly

variable (h : d.Assembly ms line parts)
include h

theorem mem_line : line.logic ∈ parts :=
  (h.assembles _).2 (.inl rfl)

theorem mem_layout (hm : m ∈ ms) (hc : d.controllers[m]? = some c) (hl : c.layout = some l) :
    l.logic ∈ parts :=
  (h.assembles _).2 (.inr ⟨m, hm, c, l, hc, hl, rfl⟩)

theorem not_equips_line : ¬d.Equips m line.irq.id := by
  obtain ⟨k, hk⟩ := h.joins.made
  exact h.partitioned.not_equips_line ⟨line, hk, rfl⟩

theorem eq_line_of_drives (hg : g ∈ parts) (hdrives : g.Drives line.irq.id) : g = line.logic := by
  rcases (h.assembles g).1 hg with hline | ⟨m, -, c, l, hc, hl, rfl⟩
  · exact hline
  · exact absurd (h.wellFormed.equips_of_mentions hc hl (.inl hdrives)) h.not_equips_line

/-- A net of a controller is driven by the logic of that controller alone. -/
theorem eq_of_drives (hg : g ∈ parts) (hdrives : g.Drives x) (hx : d.Equips m x) :
    ∃ c l, d.controllers[m]? = some c ∧ c.layout = some l ∧ g = l.logic := by
  rcases (h.assembles g).1 hg with rfl | ⟨m', -, c, l, hc, hl, rfl⟩
  · obtain rfl := SharedLine.drives_logic.1 hdrives
    exact absurd hx h.not_equips_line
  · have hx' := h.wellFormed.equips_of_mentions hc hl (.inl hdrives)
    obtain rfl := h.partitioned.equips_unique h.exclusive hx' hx
    exact ⟨c, l, hc, hl, rfl⟩

theorem mem_leftTo (hc : d.controllers[m]? = some c) (hl : c.layout = some l)
    (hx : d.Equips m x) : x ∈ Fragment.leftTo parts l.logic := by
  intro g hg
  by_cases hdrives : g.Drives x
  · obtain ⟨c', l', hc', hl', rfl⟩ := h.eq_of_drives hg hdrives hx
    obtain rfl := Option.some.inj (hc.symm.trans hc')
    obtain rfl := Option.some.inj (hl.symm.trans hl')
    exact .inl rfl
  · exact .inr hdrives

/-- The logic of a member does with its nets what it does alone. -/
theorem governs (hm : m ∈ ms) (hc : d.controllers[m]? = some c) (hl : c.layout = some l) :
    l.logic.Governs (.concat parts) (Fragment.leftTo parts l.logic) := by
  refine Fragment.governs_concat (h.mem_layout hm hc hl) fun g hg => ?_
  -- the line reads nets of members but drives none of them
  by_cases heq : g = l.logic
  · exact .inl heq
  · refine .inr fun s hdrives hmentions => ?_
    have hleft := h.mem_leftTo hc hl (h.wellFormed.equips_of_mentions hc hl hmentions)
    exact (hleft g hg).elim heq fun hg => hg hdrives

/-- The line of a controller that is still open is left to the outside. -/
theorem not_drives_open (hc : d.controllers[m]? = some c) (hopen : c.layout = none) :
    ¬(Fragment.concat parts).Drives c.irq.id := by
  rw [Fragment.drives_concat]
  rintro ⟨g, hg, hdrives⟩
  obtain ⟨c', l, hc', hl, -⟩ := h.eq_of_drives hg hdrives (.inl ⟨c, hc, rfl⟩)
  obtain rfl := Option.some.inj (hc.symm.trans hc')
  rw [hopen] at hl
  cases hl

/-! ## Settling -/

theorem restsAt_of_equips (hm : m ∈ ms) (hc : d.controllers[m]? = some c) (hl : c.layout = some l)
    (hx : d.Equips m x) : (Fragment.concat parts).RestsAt 3 x := by
  obtain ⟨p, -, -, rfl⟩ := h.wellFormed.exists_placement hc hl
  exact (h.governs hm hc hl).restsAt (h.mem_leftTo hc hl hx) (p.rankedWithin.restsAt x)

theorem restsAt_member (hx : x ∈ line.members) : (Fragment.concat parts).RestsAt 3 x := by
  obtain ⟨m, hm, c, hc, rfl⟩ := (h.joins.members x).1 hx
  cases hl : c.layout with
  | none => exact Fragment.restsAt_of_not_mem fun hcomb => h.not_drives_open hc hl (.inl hcomb)
  | some l => exact h.restsAt_of_equips hm hc hl (.inl ⟨c, hc, rfl⟩)

/-- What drives the shared line depends on its members. -/
theorem reads_line {a : Assignment} (ha : a ∈ assignmentsAll (Fragment.concat parts).comb)
    (htarget : a.target = line.irq.id) (hx : x ∈ a.reads) : x ∈ line.members := by
  rw [Fragment.comb_concat, Stmt.assignmentsAll_flatMap, List.mem_flatMap] at ha
  obtain ⟨g, hg, ha⟩ := ha
  obtain rfl := h.eq_line_of_drives hg (Fragment.drives_iff.2 (.inl ⟨a, ha, htarget⟩))
  obtain rfl := SharedLine.mem_comb.1 ha
  simpa [reads, Expr.mem_reads_disjunction, Expr.reads] using hx

/-- Members come to rest in three passes, and the shared line one pass later. -/
theorem restsAt (x : SignalId) : (Fragment.concat parts).RestsAt 4 x := by
  by_cases hx : x ∈ (Fragment.concat parts).combTargets
  · obtain ⟨g, hg, hx⟩ := Fragment.mem_combTargets_concat.1 hx
    rcases (h.assembles g).1 hg with rfl | ⟨m, hm, c, l, hc, hl, rfl⟩
    · -- nothing but its own logic drives the line, and that reads members, which rest before
      obtain rfl := SharedLine.drives_logic.1 (.inl hx)
      exact Fragment.restsAt_succ fun a ha htarget t ht =>
        h.restsAt_member (h.reads_line ha htarget ht)
    · have hequips := h.wellFormed.equips_of_mentions hc hl (.inl (.inl hx))
      exact (h.restsAt_of_equips hm hc hl hequips).mono (Nat.le_succ 3)
  · exact Fragment.restsAt_of_not_mem hx

/-! ## Levels at rest -/

variable {v : Levels}

/-- At rest the shared line is high while the line of a member is. -/
theorem read_line (hv : (Fragment.concat parts).Solves v) :
    v.read line.irq.id = true ↔
      ∃ m ∈ ms, ∃ c, d.controllers[m]? = some c ∧ v.read c.irq.id = true := by
  have hdriven : line.irq.id ∈ (Fragment.concat parts).combTargets :=
    Fragment.mem_combTargets_concat.2
      ⟨line.logic, h.mem_line, Fragment.mem_combTargets.2 (List.mem_singleton.2 rfl)⟩
  have hlast : lastActive? v.read (assignmentsAll (Fragment.concat parts).comb) line.irq.id =
      lastActive? v.read (assignmentsAll line.logic.comb) line.irq.id := by
    rw [Fragment.comb_concat, Stmt.assignmentsAll_flatMap]
    refine lastActive?_flatMap h.mem_line fun g hg => ?_
    by_cases heq : g = line.logic
    · exact .inl heq
    · exact .inr fun a ha htarget =>
        heq (h.eq_line_of_drives hg (Fragment.drives_iff.2 (.inl ⟨a, ha, htarget⟩)))
  rw [hv _ hdriven, hlast, SharedLine.lastActive?_logic, Option.getD_some, List.any_eq_true]
  constructor
  · rintro ⟨x, hx, hhigh⟩
    obtain ⟨m, hm, c, hc, rfl⟩ := (h.joins.members x).1 hx
    exact ⟨m, hm, c, hc, hhigh⟩
  · rintro ⟨m, hm, c, hc, hhigh⟩
    exact ⟨c.irq.id, (h.joins.members _).2 ⟨m, hm, c, hc, rfl⟩, hhigh⟩

/-- At rest the line of a finalized member is high while some bit is pending and enabled. -/
theorem read_irq (hm : m ∈ ms) (hc : d.controllers[m]? = some c) (hl : c.layout = some l)
    (hv : (Fragment.concat parts).Solves v) :
    v.read c.irq.id = true ↔ ∃ i < c.roster.size,
      v.read (l.pending.bit i).id = true ∧ v.read (l.enable.bit i).id = true := by
  have hgoverns := h.governs hm hc hl
  have hleft : ∀ x ∈ l.logic.combTargets, x ∈ Fragment.leftTo parts l.logic := fun x hx =>
    h.mem_leftTo hc hl (h.wellFormed.equips_of_mentions hc hl (.inl (.inl hx)))
  obtain ⟨p, hsources, hirq, rfl⟩ := h.wellFormed.exists_placement hc hl
  rw [← hirq, Roster.size, ← hsources, Placement.read_irq (hgoverns.solves hv hleft)]
  simp only [List.any_eq_true, List.mem_range, Bool.and_eq_true]

end Assembly

end Design

/-- In all logic put together from a shared line and its finalized members: it always settles; at
rest the shared line is high exactly while the line of a member is, which means for a finalized
member that some bit is pending and enabled; an open member has the level last forced on its line;
and all nets of a finalized member have the levels that they have in its logic alone. -/
theorem shared_line_eq_or_members {before : List Command} {ms : List Nat} (hne : ms ≠ [])
    (hms : ∀ m ∈ ms, m < (Design.empty.run before).2.controllers.size) :
    ∃ line, ((Design.empty.run before).2.perform (.share ms)).1 = .shared line ∧
      ∀ after parts actions,
        let d := (Design.empty.run (before ++ .share ms :: after)).2
        let sim := (Simulator.start (parts.foldl (· ++ ·) .empty)).run actions
        d.Assembles ms line parts →
          sim.settle.2 = true ∧
          ((∀ x b, actions.getLast? ≠ some (.set x b)) →
            (sim.read line.irq.id = true ↔
              ∃ m ∈ ms, ∃ c, d.controllers[m]? = some c ∧ sim.read c.irq.id = true) ∧
            ∀ m ∈ ms, ∀ c l, d.controllers[m]? = some c → c.layout = some l →
              (sim.read c.irq.id = true ↔ ∃ i < c.roster.size,
                sim.read (l.pending.bit i).id = true ∧ sim.read (l.enable.bit i).id = true)) ∧
          (∀ m ∈ ms, ∀ c, d.controllers[m]? = some c → c.layout = none →
            sim.read c.irq.id = (Simulator.lastForced? c.irq.id actions).getD false) ∧
          ∀ m ∈ ms, ∀ c l, d.controllers[m]? = some c → c.layout = some l →
            ∀ n x, l.net? c.roster.sources c.irq n = some x →
              sim.read x = ((Simulator.start l.logic).run actions).read x := by
  obtain ⟨line, hshared, hjoins⟩ := Design.exists_shared hne hms
  refine ⟨line, hshared, ?_⟩
  intro after parts actions d sim hassembles
  have hd : d = (((Design.empty.run before).2.perform (.share ms)).2.run after).2 := by
    simp only [d, Design.run_append, Design.run]
  have h : d.Assembly ms line parts :=
    { wellFormed := Design.wellFormed_run _
      exclusive := Design.exclusive_run _
      partitioned := Design.partitioned_run _
      joins := hd ▸ hjoins.run after
      assembles := hassembles }
  have hfragment : parts.foldl (· ++ ·) .empty = Fragment.concat parts := by
    rw [Fragment.foldl_append]
    apply Fragment.ext <;> rfl
  have hsim : sim = (Simulator.start (.concat parts)).run actions := by rw [← hfragment]
  rw [hsim]
  refine ⟨Simulator.settles_run h.restsAt (by decide) actions, ?_, ?_, ?_⟩
  · intro hrest
    have hsolves := Simulator.solves_run h.restsAt (by decide) hrest
    exact ⟨h.read_line hsolves, fun m hm c l hc hl => h.read_irq hm hc hl hsolves⟩
  · intro m hm c hc hopen
    exact Simulator.read_run_of_not_drives (h.not_drives_open hc hopen) actions
  · intro m hm c l hc hl n x hn
    have hx := h.mem_leftTo hc hl (h.wellFormed.equips hc hl hn)
    exact ((h.governs hm hc hl).run actions).read hx

/-- A line over an open controller, one finalized before and one finalized after the line was made.
The parts come in another order, and one of them twice. -/
theorem late_member_raises_line :
    let before : List Command :=
      [.controller, .controller, .controller, .source .pulse none none, .source .level none none,
        .attach 0 0, .attach 1 1, .finalize 0]
    let line : SharedLine := ⟨⟨20, "shared_irq"⟩, [2, 0, 1, 0]⟩
    let actions : List Simulator.Action :=
      [.set 28 true, .set 29 true, .tick, .set 7 true, .set 2 true, .set 2 false, .settle]
    let d := (Design.empty.run (before ++ .share [2, 0, 1, 0] :: [.finalize 1])).2
    ∃ c₀ l₀ c₁ l₁ c₂,
      d.controllers[0]? = some c₀ ∧ c₀.layout = some l₀ ∧
      d.controllers[1]? = some c₁ ∧ c₁.layout = some l₁ ∧
      d.controllers[2]? = some c₂ ∧ c₂.layout = none ∧
      let parts := [line.logic, l₁.logic, l₀.logic, line.logic]
      let sim := (Simulator.start (parts.foldl (· ++ ·) .empty)).run actions
      sim.settle.2 = true ∧ sim.read line.irq.id = true ∧ sim.read c₁.irq.id = true ∧
        sim.read c₂.irq.id = false := by
  intro before line actions d
  let c₀ := d.controllers[0]?.get (by decide +kernel)
  let c₁ := d.controllers[1]?.get (by decide +kernel)
  let c₂ := d.controllers[2]?.get (by decide +kernel)
  have hc₀ : d.controllers[0]? = some c₀ := (Option.some_get _).symm
  have hc₁ : d.controllers[1]? = some c₁ := (Option.some_get _).symm
  have hc₂ : d.controllers[2]? = some c₂ := (Option.some_get _).symm
  let l₀ := c₀.layout.get (by decide +kernel)
  let l₁ := c₁.layout.get (by decide +kernel)
  have hl₀ : c₀.layout = some l₀ := (Option.some_get _).symm
  have hl₁ : c₁.layout = some l₁ := (Option.some_get _).symm
  have hl₂ : c₂.layout = none := by decide +kernel
  refine ⟨c₀, l₀, c₁, l₁, c₂, hc₀, hl₀, hc₁, hl₁, hc₂, hl₂, ?_⟩
  intro parts sim
  have hassembles : d.Assembles [2, 0, 1, 0] line parts := by
    intro f
    simp only [parts, List.mem_cons, List.not_mem_nil, or_false, exists_and_left, exists_eq_or_imp,
      hc₀, hc₁, hc₂, hl₀, hl₁, hl₂, Option.some.injEq, exists_eq_left', reduceCtorEq, false_and,
      exists_false, exists_eq_left, false_or]
    grind
  have hmembers : ∀ m ∈ [2, 0, 1, 0], m < (Design.empty.run before).2.controllers.size := by
    decide +kernel
  obtain ⟨line', hshared, hline⟩ :=
    shared_line_eq_or_members (List.cons_ne_nil 2 [0, 1, 0]) hmembers
  have hmade : ((Design.empty.run before).2.perform (.share [2, 0, 1, 0])).1 = .shared line := by
    decide +kernel
  obtain rfl : line = line' := Answer.shared.inj (hmade.symm.trans hshared)
  obtain ⟨hsettles, hrest, hopen, -⟩ := hline [.finalize 1] parts actions hassembles
  obtain ⟨hany, hirq⟩ := hrest (by simp [actions])
  have hraised : sim.read c₁.irq.id = true :=
    (hirq 1 (by decide) c₁ l₁ hc₁ hl₁).2 ⟨0, by decide +kernel⟩
  refine ⟨hsettles, hany.2 ⟨1, by decide, c₁, hc₁, hraised⟩, hraised, ?_⟩
  rw [hopen 2 (by decide) c₂ hc₂ hl₂]
  decide +kernel

end IrqSynth
