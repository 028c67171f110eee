-- SUMMARY: The pending bits of a bank from the journal of its clock edges.
import IrqSynth.Proofs.BankRun
import IrqSynth.Proofs.Construction

/-!
# Event histories

The pending bits of a bank told from its history alone. Every tick and every bus write is a clock
edge; the journal of a run keeps, for each edge, the levels that were forced on the lines and the
events that firmware acknowledged there.

Main statement: `pending_iff_fired_since_acknowledged`.
-/
namespace IrqSynth

/-- A clock edge of a bank. -/
structure Edge where
  /-- The levels forced on the lines before the edge. -/
  line : SignalId → Bool
  /-- The events acknowledged at the edge. -/
  clears : Nat → Bool

/-- The levels forced on the lines so far and the clock edges so far, the oldest first. -/
structure Journal where
  line : SignalId → Bool
  edges : List Edge

namespace Journal

/-- Before the first action. -/
def blank : Journal :=
  ⟨fun _ => false, []⟩

/-- The journal with another level on a line. -/
def force (j : Journal) (x : SignalId) (level : Bool) : Journal :=
  { j with line := fun y => if x = y then level else j.line y }

/-- The journal with one more edge. -/
def edge (j : Journal) (e : Edge) : Journal :=
  { j with edges := j.edges ++ [e] }

end Journal

namespace Bank

/-- Whether an action is a clock edge if it is not refused. -/
def Action.isEdge : Action → Bool
  | .drive .tick => true
  | .drive (.set _ _) => false
  | .drive .settle => false
  | .read _ => false
  | .write _ _ => true
  | .enable _ => true
  | .disable _ => true
  | .acknowledge _ => true

/-- Whether an action acknowledges an event: it writes 1 to its bit of the pending register. -/
def acknowledges (b : Bank) : Action → Nat → Bool
  | .write offset value, i =>
    offset == b.offset .pending + i / BusWord.bits * BusWord.bytes &&
      value.getLsbD (i % BusWord.bits)
  | .acknowledge j, i => i == j
  | _, _ => false

/-- The journal after an action. A refused action leaves no trace. -/
def log (b : Bank) (j : Journal) (action : Action) : Journal :=
  match b.perform action with
  | .error _ => j
  | .ok _ =>
    match action with
    | .drive (.set x level) => j.force x level
    | _ => if action.isEdge then j.edge ⟨j.line, b.acknowledges action⟩ else j

/-- The journal of a run. -/
def journal (b : Bank) (j : Journal) : List Action → Journal
  | [] => j
  | action :: rest => (b.act action).journal (b.log j action) rest

end Bank

namespace Journal

/-- Source `s` fires at edge `k`: a `pulse` source when its trigger is high there, a `process` source
when its trigger is low there and was high at the edge before. -/
def FiresAt (j : Journal) (s : Source) (k : Nat) : Prop :=
  match s.kind with
  | .pulse => ∃ e, j.edges[k]? = some e ∧ e.line s.trigger.id = true
  | .process => ∃ e before k', k = k' + 1 ∧ j.edges[k]? = some e ∧ j.edges[k']? = some before ∧
      e.line s.trigger.id = false ∧ before.line s.trigger.id = true
  | .level => False

/-- Event `i` is acknowledged at edge `k`. -/
def ClearsAt (j : Journal) (i k : Nat) : Prop :=
  ∃ e, j.edges[k]? = some e ∧ e.clears i = true

/-- Source `s` at bit `i` has fired and was not acknowledged at a later edge. -/
def Holds (j : Journal) (s : Source) (i : Nat) : Prop :=
  ∃ k, j.FiresAt s k ∧ ∀ k', k < k' → ¬j.ClearsAt i k'

/-- The level of the trigger at the last edge. -/
def sampled (j : Journal) (s : Source) : Bool :=
  j.edges.getLast?.any fun e => e.line s.trigger.id

variable {j : Journal} {e x : Edge} {s : Source} {i k : Nat}

/-! ## One more edge -/

theorem getElem?_edge :
    (j.edge e).edges[k]? = some x ↔ j.edges[k]? = some x ∨ k = j.edges.length ∧ x = e := by
  unfold edge
  rw [List.getElem?_append]
  grind

theorem lt_of_getElem? (h : j.edges[k]? = some x) : k < j.edges.length :=
  (List.getElem?_eq_some_iff.1 h).1

theorem FiresAt.lt (h : j.FiresAt s k) : k < j.edges.length := by
  unfold FiresAt at h
  split at h
  · obtain ⟨e, he, -⟩ := h
    exact lt_of_getElem? he
  · obtain ⟨e, before, k', -, he, -⟩ := h
    exact lt_of_getElem? he
  · cases h

theorem ClearsAt.lt (h : j.ClearsAt i k) : k < j.edges.length := by
  obtain ⟨e, he, -⟩ := h
  exact lt_of_getElem? he

theorem clearsAt_edge :
    (j.edge e).ClearsAt i k ↔ j.ClearsAt i k ∨ k = j.edges.length ∧ e.clears i = true := by
  unfold ClearsAt
  constructor
  · rintro ⟨x, hx, hclears⟩
    rcases getElem?_edge.1 hx with hx | ⟨hk, rfl⟩
    · exact .inl ⟨x, hx, hclears⟩
    · exact .inr ⟨hk, hclears⟩
  · rintro (⟨x, hx, hclears⟩ | ⟨hk, hclears⟩)
    · exact ⟨x, getElem?_edge.2 (.inl hx), hclears⟩
    · exact ⟨e, getElem?_edge.2 (.inr ⟨hk, rfl⟩), hclears⟩

/-- At a new edge a source fires as its cell would, given the level sampled at the edge before. -/
theorem firesAt_edge :
    (j.edge e).FiresAt s k ↔ j.FiresAt s k ∨
      k = j.edges.length ∧ EventCell.fires s.kind (e.line s.trigger.id) (j.sampled s) = true := by
  unfold FiresAt sampled
  cases s.kind with
  | level => simp [EventCell.fires]
  | pulse =>
    simp only [EventCell.fires]
    constructor
    · rintro ⟨x, hx, hline⟩
      rcases getElem?_edge.1 hx with hx | ⟨hk, rfl⟩
      · exact .inl ⟨x, hx, hline⟩
      · exact .inr ⟨hk, hline⟩
    · rintro (⟨x, hx, hline⟩ | ⟨hk, hline⟩)
      · exact ⟨x, getElem?_edge.2 (.inl hx), hline⟩
      · exact ⟨e, getElem?_edge.2 (.inr ⟨hk, rfl⟩), hline⟩
  | process =>
    simp only [EventCell.fires, Bool.and_eq_true, Bool.not_eq_true', Option.any_eq_true]
    constructor
    · rintro ⟨x, before, k', rfl, hx, hbefore, hlow, hhigh⟩
      rcases getElem?_edge.1 hbefore with hprev | ⟨hk', rfl⟩
      · rcases getElem?_edge.1 hx with hold | ⟨hk, rfl⟩
        · exact .inl ⟨x, before, k', rfl, hold, hprev, hlow, hhigh⟩
        · have hlast : j.edges.getLast? = some before := by
            rw [List.getLast?_eq_getElem?, ← hk]
            exact hprev
          exact .inr ⟨hk, hlow, before, hlast, hhigh⟩
      · -- the edge before the new one cannot be the new one
        have hlt := lt_of_getElem? hx
        simp only [edge, List.length_append, List.length_singleton] at hlt
        omega
    · rintro (⟨x, before, k', rfl, hx, hbefore, hlow, hhigh⟩ | ⟨rfl, hlow, before, hlast, hhigh⟩)
      · exact ⟨x, before, k', rfl, getElem?_edge.2 (.inl hx), getElem?_edge.2 (.inl hbefore), hlow,
          hhigh⟩
      · rw [List.getLast?_eq_getElem?] at hlast
        have hlt := lt_of_getElem? hlast
        refine ⟨e, before, j.edges.length - 1, by omega, getElem?_edge.2 (.inr ⟨rfl, rfl⟩),
          getElem?_edge.2 (.inl hlast), hlow, hhigh⟩

theorem sampled_edge : (j.edge e).sampled s = e.line s.trigger.id := by
  simp [sampled, edge]

/-- An event is held after an edge if it fires there, or was held and is not acknowledged there. -/
theorem holds_edge :
    (j.edge e).Holds s i ↔
      EventCell.fires s.kind (e.line s.trigger.id) (j.sampled s) = true ∨
        j.Holds s i ∧ e.clears i = false := by
  constructor
  · rintro ⟨k, hfires, hkept⟩
    rcases firesAt_edge.1 hfires with hfires | ⟨-, hnew⟩
    · refine .inr ⟨⟨k, hfires, ?_⟩, ?_⟩
      · intro k' hk' hclears
        exact hkept k' hk' (clearsAt_edge.2 (.inl hclears))
      · rw [← Bool.not_eq_true]
        intro hclears
        exact hkept _ hfires.lt (clearsAt_edge.2 (.inr ⟨rfl, hclears⟩))
    · exact .inl hnew
  · rintro (hnew | ⟨⟨k, hfires, hkept⟩, hclears⟩)
    · refine ⟨j.edges.length, firesAt_edge.2 (.inr ⟨rfl, hnew⟩), ?_⟩
      intro k' hk' hcleared
      have hlt := hcleared.lt
      simp only [edge, List.length_append, List.length_singleton] at hlt
      omega
    · refine ⟨k, firesAt_edge.2 (.inl hfires), ?_⟩
      intro k' hk' hcleared
      rcases clearsAt_edge.1 hcleared with hold | ⟨-, hnow⟩
      · exact hkept k' hk' hold
      · rw [hclears] at hnow
        cases hnow

end Journal

namespace Bank

variable {b b' : Bank} {j : Journal} {action : Action} {role : Role} {w i : Nat} {value : BusValue}

/-! ## What a bank logs -/

theorem log_edge (h : b.perform action = .ok b') (hedge : action.isEdge) :
    b.log j action = j.edge ⟨j.line, b.acknowledges action⟩ := by
  simp only [log, h]
  split
  · cases hedge
  · rw [if_pos hedge]

theorem Writes.isEdge (h : b.Writes action role w value) : action.isEdge := by
  cases h <;> rfl

/-- What an action can make of a bank and its journal. -/
inductive Logged (b : Bank) (j : Journal) : Action → Bank → Journal → Prop where
  /-- The action reads, or is refused. -/
  | unchanged (action : Action) : Logged b j action b j
  | set (x : SignalId) (level : Bool) :
    Logged b j (.drive (.set x level)) { b with sim := b.sim.set x level } (j.force x level)
  | settle : Logged b j (.drive .settle) { b with sim := b.sim.settle.1 } j
  | tick :
    Logged b j (.drive .tick) { b with sim := b.sim.tick }
      (j.edge ⟨j.line, b.acknowledges (.drive .tick)⟩)
  | write (action : Action) (role : Role) (w : Nat) (value : BusValue)
      (hwrites : b.Writes action role w value) :
    Logged b j action (b.writeWord role w value) (j.edge ⟨j.line, b.acknowledges action⟩)

theorem logged (b : Bank) (j : Journal) (action : Action) :
    b.Logged j action (b.act action) (b.log j action) := by
  cases hperform : b.perform action with
  | error e =>
    simp only [act, log, hperform]
    exact .unchanged action
  | ok after =>
    rw [act_of_ok hperform]
    rcases perform_cases hperform with ⟨a, rfl, rfl⟩ | ⟨offset, rfl, rfl⟩ |
      ⟨role, w, value, hwrites, rfl⟩
    · cases a with
      | set x level =>
        simp only [log, hperform]
        exact .set x level
      | settle =>
        simp only [log, hperform]
        exact .settle
      | tick =>
        rw [log_edge hperform rfl]
        exact .tick
    · simp only [log, hperform]
      exact .unchanged _
    · rw [log_edge hperform hwrites.isEdge]
      exact .write action role w value hwrites

/-- A write acknowledges an event if it brings a 1 to its bit of the pending register. -/
theorem Writes.acknowledges (h : b.Writes action role w value) (hi : i < b.width) :
    b.acknowledges action i =
      (decide (role = .pending) && (BusWord.bitOf value w i).getD false) := by
  cases h with
  | write role w value hw =>
    have hoffset : (b.offset role + w * BusWord.bytes ==
        b.offset .pending + i / BusWord.bits * BusWord.bytes) =
          (decide (role = .pending) && decide (w = i / BusWord.bits)) := by
      rw [Bool.eq_iff_iff, beq_iff_eq, offset_eq_iff hw (div_lt_words hi), Bool.and_eq_true,
        decide_eq_true_iff, decide_eq_true_iff]
    rw [Bank.acknowledges, hoffset, BusWord.bitOf, Bool.and_assoc]
    by_cases h : w = i / BusWord.bits
    · simp [h]
    · simp [h, Ne.symm h]
  | enable k hk => rfl
  | disable k hk => rfl
  | acknowledge k hk =>
    have hone : (1#64 <<< (k % 32)).getLsbD (i % 32) = decide (i % 32 = k % 32) := by
      rw [← BitVec.twoPow_eq, BitVec.getLsbD_twoPow]
      grind
    have hbits : BusWord.bits = 32 := rfl
    rw [Bank.acknowledges, BusWord.bitOf, hbits]
    by_cases h : i / 32 = k / 32
    · rw [if_pos h, Option.getD_some, hone, decide_eq_true rfl, Bool.true_and, Bool.eq_iff_iff,
        beq_iff_eq, decide_eq_true_iff]
      omega
    · rw [if_neg h, Option.getD_none, Bool.and_false, beq_eq_false_iff_ne]
      rintro rfl
      exact h rfl

/-- The simulation counts the edges of the journal. -/
theorem cycle_act (h : b.sim.cycle = j.edges.length) (action : Action) :
    (b.act action).sim.cycle = (b.log j action).edges.length := by
  have hedge (e : Edge) : (j.edge e).edges.length = b.sim.cycle + 1 := by
    rw [Journal.edge, List.length_append, h]
    rfl
  have hlogged := b.logged j action
  generalize b.act action = after, b.log j action = later at hlogged ⊢
  cases hlogged with
  | unchanged => exact h
  | set => exact h
  | settle => exact h
  | tick => exact (hedge _).symm
  | write action role w value => exact (Placement.cycle_writeWord role w value).trans (hedge _).symm

theorem cycle_run (actions : List Action) (h : b.sim.cycle = j.edges.length) :
    (b.run actions).sim.cycle = (b.journal j actions).edges.length := by
  induction actions generalizing b j with
  | nil => exact h
  | cons action rest ih => exact ih (cycle_act h action)

theorem lineLevel_pending (hkind : b.layout.pending.kind = .writeOneToClear) :
    b.lineLevel .pending w value i = (BusWord.bitOf value w i).getD false := by
  have hregister : (b.layout.register .pending).kind = .writeOneToClear := hkind
  simp [lineLevel, hregister]

end Bank

namespace Placement

variable {p : Placement} {b : Bank} {a a' : CellArray} {j : Journal} {e : Edge}

/-! ## The journal and the cells -/

/-- The journal accounts for everything the cells keep of the past. -/
structure Recounts (p : Placement) (j : Journal) (a : CellArray) : Prop where
  line : ∀ (i : Nat) (s : Source), p.sources[i]? = some s →
    a.inputs s.trigger.id = j.line s.trigger.id
  latch : ∀ (i : Nat) (s : Source), p.sources[i]? = some s → s.kind ≠ .level →
    ((a.cells i).latch ↔ j.Holds s i)
  old : ∀ (i : Nat) (s : Source), p.sources[i]? = some s → s.kind = .process →
    (a.cells i).old = j.sampled s

/-- A clock edge of the cells is accounted for by one more edge in the journal. -/
theorem Recounts.edge (h : p.Recounts j a) (hline : e.line = j.line)
    (htrigger : ∀ (i : Nat) (s : Source), p.sources[i]? = some s →
      a'.inputs s.trigger.id = a.inputs s.trigger.id)
    (hcells : ∀ (i : Nat) (s : Source), p.sources[i]? = some s → ∃ inputs : EventCell.Inputs,
      a'.cells i = (a.cells i).clock s.kind inputs ∧
        inputs.trigger = a.inputs s.trigger.id ∧ inputs.clear = e.clears i) :
    p.Recounts (j.edge e) a' := by
  refine ⟨?_, ?_, ?_⟩
  · intro i s hs
    exact (htrigger i s hs).trans (h.line i s hs)
  · intro i s hs hk
    obtain ⟨inputs, hclock, htrig, hclear⟩ := hcells i s hs
    have hfires : EventCell.fires s.kind inputs.trigger (a.cells i).old =
        EventCell.fires s.kind (e.line s.trigger.id) (j.sampled s) := by
      rw [htrig, h.line i s hs, hline]
      cases hkind : s.kind with
      | pulse => rfl
      | process => rw [h.old i s hs hkind]
      | level => rfl
    rw [hclock, EventCell.latch_clock, hfires, hclear, Bool.or_eq_true, Bool.and_eq_true,
      Bool.not_eq_true', h.latch i s hs hk, Journal.holds_edge]
  · intro i s hs hk
    obtain ⟨inputs, hclock, htrig, -⟩ := hcells i s hs
    rw [hclock, hk, EventCell.old_clock_process, htrig, Journal.sampled_edge, hline,
      h.line i s hs]

theorem recounts_initial (p : Placement) : p.Recounts .blank .initial := by
  refine ⟨fun i s hs => rfl, ?_, fun i s hs hk => rfl⟩
  intro i s hs hk
  constructor
  · intro h
    cases h
  · rintro ⟨k, hfires, -⟩
    exact absurd hfires.lt (Nat.not_lt_zero k)

theorem Recounts.force (h : p.Recounts j a) (x : SignalId) (level : Bool) :
    p.Recounts (j.force x level) (a.act p.layout p.sources (.set x level)) := by
  refine ⟨?_, h.latch, h.old⟩
  intro i s hs
  rw [CellArray.inputs_set, Journal.force, h.line i s hs]

theorem Recounts.tick (h : p.Recounts j a) (hserves : p.Serves b a) :
    p.Recounts (j.edge ⟨j.line, b.acknowledges (.drive .tick)⟩) (a.clock p.layout p.sources) := by
  refine h.edge rfl (fun i s hs => rfl) ?_
  intro i s hs
  refine ⟨a.inputsOf p.layout i s, cells_clock hs, rfl, ?_⟩
  have hidle : a.inputs p.layout.pending.strobe.id = false := hserves.idle .pending
  rw [CellArray.inputsOf, hidle]
  rfl

theorem Recounts.writeWord (h : p.Recounts j a) (hserves : p.Serves b a) {action : Bank.Action}
    {role : Role} {w : Nat} {value : BusValue} (hwrites : b.Writes action role w value) :
    p.Recounts (j.edge ⟨j.line, b.acknowledges action⟩)
      (p.clocked role (b.lineLevel role w value) a) := by
  refine h.edge rfl (fun i s hs => trigger_clocked hs) ?_
  intro i s hs
  refine ⟨_, cells_clocked hs, trigger_present hs, ?_⟩
  have hi : i < b.width := by
    have hwidth := hserves.width .status
    rw [Bank.width]
    exact hwidth ▸ lt_length hs
  have hkind : b.layout.pending.kind = .writeOneToClear := kind_of_layout hserves.layout .pending
  refine (clear_present hserves.idle hs).trans (.trans ?_ (hwrites.acknowledges hi).symm)
  by_cases hrole : role = .pending
  · subst hrole
    rw [Bank.lineLevel_pending hkind]
  · rw [decide_eq_false hrole, Bool.false_and, Bool.false_and]

/-! ## Runs -/

/-- The action forces no lines but triggers. -/
def DrivesTriggers (p : Placement) (action : Bank.Action) : Prop :=
  ∀ x level, action = .drive (.set x level) →
    ∃ (i : Nat) (s : Source), p.sources[i]? = some s ∧ x = s.trigger.id

theorem drivesTriggers {actions : List Bank.Action}
    (h : ∀ x level, .drive (.set x level) ∈ actions → ∃ t ∈ p.sources, x = t.trigger.id) :
    ∀ action ∈ actions, p.DrivesTriggers action := by
  rintro _ haction x level rfl
  obtain ⟨t, ht, hx⟩ := h x level haction
  obtain ⟨k, hk⟩ := List.mem_iff_getElem?.1 ht
  exact ⟨k, t, hk, hx⟩

/-- Every action keeps the bank, its cells and its journal together. -/
theorem Recounts.act (h : p.Recounts j a) (hserves : p.Serves b a) {action : Bank.Action}
    (hdrives : p.DrivesTriggers action) :
    ∃ a', p.Serves (b.act action) a' ∧ p.Recounts (b.log j action) a' := by
  have hlogged := b.logged j action
  generalize b.act action = after, b.log j action = later at hlogged ⊢
  cases hlogged with
  | unchanged => exact ⟨a, hserves, h⟩
  | set x level =>
    obtain ⟨i, s, hs, rfl⟩ := hdrives x level rfl
    exact ⟨_, hserves.set_trigger hs level, h.force _ level⟩
  | settle => exact ⟨a, hserves.settle, h⟩
  | tick => exact ⟨_, hserves.tick, h.tick hserves⟩
  | write action role w value hwrites =>
    exact ⟨_, hserves.writeWord role w value, h.writeWord hserves hwrites⟩

theorem Recounts.run {actions : List Bank.Action} (h : p.Recounts j a) (hserves : p.Serves b a)
    (hdrives : ∀ action ∈ actions, p.DrivesTriggers action) :
    ∃ a', p.Serves (b.run actions) a' ∧ p.Recounts (b.journal j actions) a' := by
  induction actions generalizing b j a with
  | nil => exact ⟨a, hserves, h⟩
  | cons action rest ih =>
    obtain ⟨a', hserves', h'⟩ := h.act hserves (hdrives action List.mem_cons_self)
    exact ih h' hserves' fun other hother => hdrives other (List.mem_cons_of_mem action hother)

theorem serves_start (p : Placement) (irq : Signal) :
    p.Serves ⟨p.layout, irq, .start p.layout.logic⟩ .initial :=
  serves_of_shows (b := ⟨p.layout, irq, .start p.layout.logic⟩) rfl rfl p.shows_start fun _ => rfl

end Placement

/-! ## Pending events -/

/-- After any interleaving of hardware and firmware the pending bit of a source with a latch is 1
exactly when the source fired at some clock edge and was acknowledged at no later one. Edges are
counted by the simulation, and the bit is the same by index and in its word. -/
theorem pending_iff_fired_since_acknowledged {commands : List Command} {m i : Nat} {c : Controller}
    {b : Bank} {s : Source} {actions : List Bank.Action}
    (hc : (Design.empty.run commands).2.controllers[m]? = some c) (hb : Bank.create c = .ok b)
    (htriggers : ∀ x level, .drive (.set x level) ∈ actions →
      ∃ t ∈ c.roster.sources, x = t.trigger.id)
    (hs : c.roster.sources[i]? = some s) (hk : s.kind ≠ .level) :
    (b.run actions).sim.cycle = (b.journal .blank actions).edges.length ∧
      ∃ pending : Bool, (b.run actions).test .pending i = .ok pending ∧
        (∃ word : BusValue,
          (b.run actions).read
              ((b.run actions).offset .pending + i / BusWord.bits * BusWord.bytes) = .ok word ∧
            word.getLsbD (i % BusWord.bits) = pending) ∧
        (pending ↔ ∃ k, (b.journal .blank actions).FiresAt s k ∧
          ∀ k', k < k' → ¬(b.journal .blank actions).ClearsAt i k') := by
  obtain ⟨l, hl, rfl⟩ := Bank.create_eq_ok.1 hb
  obtain ⟨p, hsources, hirq, rfl⟩ := (Design.wellFormed_run commands).exists_placement hc hl
  rw [← hsources] at htriggers hs
  refine ⟨Bank.cycle_run actions rfl, ?_⟩
  have hdrives : ∀ action ∈ actions, p.DrivesTriggers action := by
    rintro _ haction x level rfl
    obtain ⟨t, ht, hx⟩ := htriggers x level haction
    obtain ⟨k, hk⟩ := List.mem_iff_getElem?.1 ht
    exact ⟨k, t, hk, hx⟩
  obtain ⟨a, hserves, hrecounts⟩ :=
    p.recounts_initial.run (p.serves_start c.irq) hdrives
  have hpending := hserves.width .pending
  have hstatus := hserves.width .status
  have hlt := Placement.lt_length hs
  generalize Bank.run ⟨p.layout, c.irq, .start p.layout.logic⟩ actions = after at *
  have hwidth : i < (after.layout.register .pending).width := hpending ▸ hlt
  have hbit : i < after.width := by
    rw [Bank.width]
    exact hstatus ▸ hlt
  refine ⟨after.level .pending i, Bank.test_eq hbit hwidth, ?_, ?_⟩
  · exact ⟨_, Bank.read_offset .pending (Bank.div_lt_words hbit), Bank.getLsbD_word hwidth⟩
  · rw [hserves.pending i s hs hk, hrecounts.latch i s hs hk]
    rfl

/-- In the sample a trigger falls before `enable 1`, whose write is the edge that latches the event;
a refused write and an acknowledgement of another event leave it pending. -/
theorem sample_event_kept :
    let b : Bank :=
      ⟨Design.sampleLayout, Design.sampleController.irq, .start Design.sampleLayout.logic⟩
    let s : Source := ⟨1, .process, none, none, 5⟩
    let actions : List Bank.Action :=
      [.drive (.set 5 true), .drive .tick, .drive (.set 5 false), .enable 1, .write 5 2,
        .acknowledge 0]
    Bank.create Design.sampleController = .ok b ∧
      (∀ x level, .drive (.set x level) ∈ actions →
        ∃ t ∈ Design.sampleController.roster.sources, x = t.trigger.id) ∧
      Design.sampleController.roster.sources[1]? = some s ∧ s.kind ≠ .level ∧
      (b.run actions).test .pending 1 = .ok true ∧
      ∃ k, (b.journal .blank actions).FiresAt s k ∧
        ∀ k', k < k' → ¬(b.journal .blank actions).ClearsAt 1 k' := by
  intro b s actions
  have hb : Bank.create Design.sampleController = .ok b :=
    Bank.create_eq_ok.2 ⟨_, Design.sample_layout, rfl⟩
  have hs : Design.sampleController.roster.sources[1]? = some s := by decide +kernel
  have htriggers : ∀ x level, .drive (.set x level) ∈ actions →
      ∃ t ∈ Design.sampleController.roster.sources, x = t.trigger.id := by
    intro x level hset
    have hx : x = 5 := by
      simp only [actions, List.mem_cons, Bank.Action.drive.injEq, Simulator.Action.set.injEq,
        List.not_mem_nil] at hset
      grind
    exact ⟨s, List.mem_of_getElem? hs, hx⟩
  have hk : s.kind ≠ .level := by decide
  have hedges : (b.journal .blank actions).edges.map (fun e => (e.line 5, e.clears 1)) =
      [(true, false), (false, false), (false, false)] := by decide +kernel
  have hholds : (b.journal .blank actions).Holds s 1 := by
    refine ⟨1, ?_, ?_⟩
    · simp only [List.map_eq_cons_iff, Prod.mk.injEq] at hedges
      obtain ⟨e, _, hjournal, ⟨hhigh, -⟩, e', _, rfl, ⟨hlow, -⟩, -⟩ := hedges
      exact ⟨e', e, 0, rfl, by rw [hjournal]; rfl, by rw [hjournal]; rfl, hlow, hhigh⟩
    · rintro k' - ⟨e, he, hclears⟩
      have hmem := List.mem_map_of_mem (f := fun e : Edge => (e.line 5, e.clears 1))
        (List.mem_of_getElem? he)
      rw [hedges, hclears] at hmem
      simp at hmem
  obtain ⟨-, pending, hpending, -, hiff⟩ :=
    pending_iff_fired_since_acknowledged Design.sample_controller hb htriggers hs hk
  obtain rfl : pending = true := hiff.2 hholds
  exact ⟨hb, htriggers, hs, hk, hpending, hholds⟩

end IrqSynth
