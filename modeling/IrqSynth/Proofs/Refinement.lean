-- SUMMARY: The simulation relation between emitted logic and event cells, through settling and clock edges.
import IrqSynth.Proofs.Settling
import IrqSynth.Proofs.Wiring

/-!
# Emitted logic and event cells

The simulated logic of a layout against the array of event cells. Between clock edges the nets that
combinational logic does not drive carry what the cells keep; once the logic has settled every net
carries its level in the array.

Main statements: `Tracks.settle` (settled levels show the array), `Shows.edge` (a clock edge clocks
the cells) and `shows_run` (the two agree after every run that ends at rest).
-/
namespace IrqSynth

open Assignment
open Stmt (assignmentsAll targetsAll_eq_map)

/-! ## The levels of an array -/

namespace CellArray

variable (a : CellArray) (l : Layout)

/-- The level of a port of source `s` at bit `i`. -/
def port (i : Nat) (s : Source) : Port → Bool
  | .trigger => a.inputs s.trigger.id
  | .status => EventCell.status s.kind (a.inputs s.trigger.id)
  | .pending => (a.cells i).pending s.kind (a.inputs s.trigger.id)
  | .clear => (a.inputsOf l i s).clear
  | .oldTrigger => (a.cells i).old

/-- The level of bit `i` of a register, which belongs to source `s`. -/
def bit (i : Nat) (s : Source) : Role → Bool
  | .status => a.port l i s .status
  | .pending => a.port l i s .pending
  | .enable => (a.cells i).enable

/-- The level of a net. -/
def level (sources : List Source) : Net → Bool
  | .irq => a.irq sources
  | .port i q => sources[i]?.any fun s => a.port l i s q
  | .line role (.bit i) => sources[i]?.any fun s => a.bit l i s role
  | .line role (.written i) => a.inputs ((l.register role).written i).id
  | .line role .strobe => a.inputs (l.register role).strobe.id

end CellArray

/-- The nets that are driven from outside: triggers, write lines and strobes. -/
def Net.isInput : Net → Bool
  | .port _ .trigger => true
  | .line _ (.written _) => true
  | .line _ .strobe => true
  | _ => false

/-- Ports come before register lines, and these before the interrupt line. -/
def Net.rank : Net → Nat
  | .port _ _ => 1
  | .line _ _ => 2
  | .irq => 3

namespace Placement

variable (p : Placement)

/-- The nets that are not driven combinationally have the levels of the array. -/
def Tracks (v : Levels) (a : CellArray) : Prop :=
  ∀ n x, p.net? n = some x → p.combDriver? n = none → v.read x = a.level p.layout p.sources n

/-- All nets have the levels of the array. -/
def Shows (v : Levels) (a : CellArray) : Prop :=
  ∀ n x, p.net? n = some x → v.read x = a.level p.layout p.sources n

variable {p} {v : Levels} {a : CellArray} {n : Net} {x : SignalId} {i : Nat} {s : Source}

theorem Shows.tracks (h : p.Shows v a) : p.Tracks v a :=
  fun n x hn _ => h n x hn

theorem level_port (hs : p.sources[i]? = some s) (q : Port) :
    a.level p.layout p.sources (.port i q) = a.port p.layout i s q := by
  simp [CellArray.level, hs]

theorem level_bit (hs : p.sources[i]? = some s) (role : Role) :
    a.level p.layout p.sources (.line role (.bit i)) = a.bit p.layout i s role := by
  simp [CellArray.level, hs]

theorem combDriver?_of_isInput (hn : n.isInput) : p.combDriver? n = none := by
  cases n with
  | irq => cases hn
  | port i q =>
    cases q with
    | trigger => rfl
    | status => cases hn
    | pending => cases hn
    | clear => cases hn
    | oldTrigger => cases hn
  | line role q =>
    cases q with
    | bit i => cases hn
    | written i => cases role <;> rfl
    | strobe => cases role <;> rfl

theorem not_mem_syncTargets_of_isInput (hinput : n.isInput) (hn : p.net? n = some x) :
    x ∉ p.layout.logic.syncTargets := by
  rw [Fragment.mem_syncTargets, targetsAll_eq_map, List.mem_map]
  rintro ⟨b, hb, rfl⟩
  rcases net?_of_mem_sync hb with ⟨j, t, -, -, hj⟩ | ⟨j, hj⟩ | ⟨j, hj⟩
  · rw [net?_injective hn hj] at hinput
    cases hinput
  · rw [net?_injective hn hj] at hinput
    cases hinput
  · rw [net?_injective hn hj] at hinput
    cases hinput

/-! ## Settling -/

/-- The rank of a net by its id. -/
def rank (p : Placement) (x : SignalId) : Nat :=
  if x = p.irq.id then 3 else if p.base ≤ x then 2 else 1

theorem rank_eq (hn : p.net? n = some x) : p.rank x = n.rank := by
  unfold rank
  cases n with
  | irq =>
    obtain rfl : p.irq.id = x := Option.some.inj hn
    rw [if_pos rfl, Net.rank]
  | port i q =>
    have hne : x ≠ p.irq.id := by
      rintro rfl
      cases net?_injective hn (b := .irq) rfl
    rw [if_neg hne, if_neg (Nat.not_le.2 (net?_port_lt_base hn)), Net.rank]
  | line role q =>
    have hne : x ≠ p.irq.id := by
      rintro rfl
      cases net?_injective hn (b := .irq) rfl
    rw [if_neg hne, if_pos (base_le_net?_line hn), Net.rank]

/-- A driver reads inputs and nets that come before the one it drives. -/
theorem reads_combDriver? {b : Assignment} (hb : p.combDriver? n = some b) (hx : x ∈ b.reads) :
    ∃ m, p.net? m = some x ∧ (m.isInput ∨ m.rank < n.rank) := by
  unfold combDriver? at hb
  split at hb
  · obtain rfl := Option.some.inj hb
    simp only [reads, List.flatMap_nil, List.nil_append, Layout.asserted,
      Expr.mem_reads_disjunction, List.mem_map, List.mem_range] at hx
    obtain ⟨e, ⟨i, hi, rfl⟩, hx⟩ := hx
    rcases Expr.mem_reads_and_signal.1 hx with rfl | rfl
    · exact ⟨.line .pending (.bit i), net?_bit .pending hi, .inr (Nat.lt_succ_self 2)⟩
    · exact ⟨.line .enable (.bit i), net?_bit .enable hi, .inr (Nat.lt_succ_self 2)⟩
  · rename_i i
    obtain ⟨s, hs, rfl⟩ := Option.map_eq_some_iff.1 hb
    have htrigger : x = s.trigger.id := by
      unfold reads Source.statusValue at hx
      cases hk : s.kind with
      | pulse => simp [hk, Expr.reads] at hx
      | process => simpa [hk, Expr.reads] using hx
      | level => simpa [hk, Expr.reads] using hx
    exact ⟨.port i .trigger, (net?_port hs _).trans (htrigger ▸ rfl), .inl rfl⟩
  · rename_i i
    obtain ⟨s, hs, hif⟩ := Option.bind_eq_some_iff.1 hb
    obtain ⟨hk, ha⟩ := Option.ite_none_right_eq_some.1 hif
    obtain rfl := Option.some.inj ha
    obtain rfl := List.mem_singleton.1 hx
    exact ⟨.port i .trigger, net?_port hs _, .inl rfl⟩
  · rename_i i
    obtain ⟨s, hs, rfl⟩ := Option.map_eq_some_iff.1 hb
    simp only [reads, List.flatMap_cons, List.flatMap_nil, Expr.reads.eq_1, List.append_nil] at hx
    rcases Expr.mem_reads_and_signal.1 hx with rfl | rfl
    · exact ⟨.line .pending .strobe, rfl, .inl rfl⟩
    · exact ⟨.line .pending (.written i), net?_written .pending (lt_length hs), .inl rfl⟩
  · rename_i i
    obtain ⟨s, hs, rfl⟩ := Option.map_eq_some_iff.1 hb
    obtain rfl := List.mem_singleton.1 hx
    exact ⟨.port i .status, net?_port hs _, .inr Nat.one_lt_two⟩
  · rename_i i
    obtain ⟨s, hs, rfl⟩ := Option.map_eq_some_iff.1 hb
    obtain rfl := List.mem_singleton.1 hx
    exact ⟨.port i .pending, net?_port hs _, .inr Nat.one_lt_two⟩
  · cases hb

theorem not_mem_combTargets (hn : p.net? n = some x) (hd : p.combDriver? n = none) :
    x ∉ p.layout.logic.combTargets := by
  rw [mem_combTargets_iff hn, hd]
  exact Bool.false_ne_true

/-- The combinational logic of a layout is three levels deep. -/
theorem rankedWithin (p : Placement) : p.layout.logic.RankedWithin p.rank 3 where
  reads := by
    intro b hb x hx hdriven
    obtain ⟨n, hn⟩ := mem_comb.1 hb
    obtain ⟨m, hm, hinput | hlt⟩ := reads_combDriver? hn hx
    · exact absurd hdriven (not_mem_combTargets hm (combDriver?_of_isInput hinput))
    · rw [rank_eq hm, rank_eq (net?_of_combDriver? hn)]
      exact hlt
  pos := by
    intro x hx
    unfold rank
    split
    · decide
    · split <;> decide
  le := by
    intro x hx
    unfold rank
    split
    · decide
    · split <;> decide

theorem settle_spec (p : Placement) (v : Levels) :
    (p.layout.logic.settle v).2 = true ∧ p.layout.logic.Solves (p.layout.logic.settle v).1 ∧
      ∀ x ∉ p.layout.logic.combTargets, (p.layout.logic.settle v).1.get? x = v.get? x :=
  p.rankedWithin.settle_spec (by decide) v

/-- The levels after settling. -/
def settled (p : Placement) (v : Levels) : Levels :=
  (p.layout.logic.settle v).1

theorem read_settled_of_kept (hn : p.net? n = some x) (hd : p.combDriver? n = none) :
    (p.settled v).read x = v.read x := by
  have hget := (p.settle_spec v).2.2 x (not_mem_combTargets hn hd)
  rw [Levels.read, Levels.read, settled, hget]

/-- In settled levels a driven net has the value of its driver. -/
theorem read_of_driver (hv : p.layout.logic.Solves v) {b : Assignment}
    (hb : p.combDriver? n = some b) (hn : p.net? n = some x) :
    v.read x = (b.active v.read && b.value.eval v.read) := by
  have hdriven : x ∈ p.layout.logic.combTargets := by
    rw [mem_combTargets_iff hn, hb]
    rfl
  rw [hv x hdriven, lastActive?_comb _ hb hn]
  cases b.active v.read <;> rfl

theorem read_settled_of_driver {b : Assignment} (hb : p.combDriver? n = some b)
    (hn : p.net? n = some x) :
    (p.settled v).read x = (b.active (p.settled v).read && b.value.eval (p.settled v).read) :=
  read_of_driver (p.settle_spec v).2.1 hb hn

/-- In settled levels the interrupt line is high while some bit is pending and enabled. -/
theorem read_irq (hv : p.layout.logic.Solves v) :
    v.read p.irq.id = (List.range p.sources.length).any fun i =>
      v.read (p.layout.pending.bit i).id && v.read (p.layout.enable.bit i).id := by
  rw [read_of_driver hv (n := .irq) rfl rfl, Layout.asserted, Expr.eval_disjunction, List.any_map]
  rfl

theorem Tracks.read_settled_input (h : p.Tracks v a) (hn : p.net? n = some x) (hi : n.isInput) :
    (p.settled v).read x = a.level p.layout p.sources n := by
  have hd := combDriver?_of_isInput (p := p) hi
  rw [read_settled_of_kept hn hd]
  exact h n x hn hd

theorem Tracks.read_settled_trigger (h : p.Tracks v a) (hs : p.sources[i]? = some s) :
    (p.settled v).read s.trigger.id = a.inputs s.trigger.id := by
  rw [h.read_settled_input (n := .port i .trigger) (net?_port hs _) rfl, level_port hs,
    CellArray.port]

theorem Tracks.read_settled_port (h : p.Tracks v a) (hs : p.sources[i]? = some s) {q : Port}
    (hq : s.net? q = some x) : (p.settled v).read x = a.port p.layout i s q := by
  have hn := (net?_port hs q).trans hq
  cases q with
  | trigger =>
    rw [h.read_settled_input hn rfl, level_port hs]
  | status =>
    have hdriver : p.combDriver? (.port i .status) = some ⟨[], s.status.id, s.statusValue⟩ := by
      simp [combDriver?, hs]
    rw [read_settled_of_driver hdriver hn, Source.eval_statusValue, h.read_settled_trigger hs]
    rfl
  | pending =>
    cases hd : p.combDriver? (.port i .pending) with
    | none =>
      rw [read_settled_of_kept hn hd, h _ _ hn hd, level_port hs]
    | some b =>
      obtain ⟨hk, rfl⟩ : s.kind = .level ∧ ⟨[], s.pending.id, .signal s.trigger.id⟩ = b := by
        simpa [combDriver?, hs] using hd
      rw [read_settled_of_driver hd hn, Expr.eval, h.read_settled_trigger hs, CellArray.port, hk]
      rfl
  | clear =>
    have hdriver : p.combDriver? (.port i .clear) =
        some ⟨[.and (.signal p.layout.pending.strobe.id)
          (.signal (p.layout.pending.written i).id)], s.clear.id, .lit true⟩ := by
      simp [combDriver?, hs]
    have hstrobe := h.read_settled_input (n := .line .pending .strobe) rfl rfl
    have hwritten := h.read_settled_input (net?_written .pending (lt_length hs)) rfl
    rw [read_settled_of_driver hdriver hn]
    simp only [active, List.all_cons, List.all_nil, Bool.and_true, Expr.eval]
    exact congrArg₂ (· && ·) hstrobe hwritten
  | oldTrigger =>
    rw [read_settled_of_kept hn rfl, h _ _ hn rfl, level_port hs]

theorem Tracks.read_settled_bit (h : p.Tracks v a) (hs : p.sources[i]? = some s) (role : Role) :
    (p.settled v).read ((p.layout.register role).bit i).id = a.bit p.layout i s role := by
  have hn := net?_bit role (lt_length hs)
  cases role with
  | status =>
    have hdriver : p.combDriver? (.line .status (.bit i)) =
        some ⟨[], (p.layout.status.bit i).id, .signal s.status.id⟩ := by
      simp [combDriver?, hs]
    rw [read_settled_of_driver hdriver hn, Expr.eval, h.read_settled_port hs (q := .status) rfl]
    rfl
  | pending =>
    have hdriver : p.combDriver? (.line .pending (.bit i)) =
        some ⟨[], (p.layout.pending.bit i).id, .signal s.pending.id⟩ := by
      simp [combDriver?, hs]
    rw [read_settled_of_driver hdriver hn, Expr.eval, h.read_settled_port hs (q := .pending) rfl]
    rfl
  | enable =>
    rw [read_settled_of_kept hn rfl, h _ _ hn rfl, level_bit hs]

theorem Tracks.read_settled_irq (h : p.Tracks v a) :
    (p.settled v).read p.irq.id = a.irq p.sources := by
  have hbit : ∀ i s, p.sources[i]? = some s →
      ((p.settled v).read (p.layout.pending.bit i).id &&
        (p.settled v).read (p.layout.enable.bit i).id) =
      ((a.cells i).pending s.kind (a.inputs s.trigger.id) && (a.cells i).enable) := by
    intro i s hs
    exact congrArg₂ (· && ·) (h.read_settled_bit hs .pending) (h.read_settled_bit hs .enable)
  have hirq := read_irq (p.settle_spec v).2.1
  rw [← settled] at hirq
  rw [hirq, Bool.eq_iff_iff]
  simp only [List.any_eq_true, List.mem_range, CellArray.irq]
  constructor
  · rintro ⟨i, hi, hlevel⟩
    have hs := List.getElem?_eq_getElem hi
    exact ⟨(p.sources[i], i), List.mem_zipIdx_iff_getElem?.2 hs, hbit i _ hs ▸ hlevel⟩
  · rintro ⟨⟨s, i⟩, hmem, hlevel⟩
    have hs := List.mem_zipIdx_iff_getElem?.1 hmem
    exact ⟨i, lt_length hs, (hbit i s hs).trans hlevel⟩

/-- Once the logic has settled, every net shows its level in the array. -/
theorem Tracks.settle (h : p.Tracks v a) : p.Shows (p.settled v) a := by
  intro n x hn
  cases n with
  | irq =>
    obtain rfl : p.irq.id = x := Option.some.inj hn
    exact h.read_settled_irq
  | port i q =>
    obtain ⟨s, hs, hq⟩ : ∃ s, p.sources[i]? = some s ∧ s.net? q = some x :=
      Option.bind_eq_some_iff.1 hn
    rw [level_port hs]
    exact h.read_settled_port hs hq
  | line role q =>
    cases q with
    | bit i =>
      obtain ⟨hi, rfl⟩ := Register.net?_bit.1 (net?_line_eq_some hn)
      rw [width_register] at hi
      have hs := List.getElem?_eq_getElem hi
      rw [level_bit hs]
      exact h.read_settled_bit hs role
    | written i => exact h.read_settled_input hn rfl
    | strobe => exact h.read_settled_input hn rfl

/-! ## Nets that keep their level -/

/-- Besides the inputs, latches, copies of triggers and enable bits are not driven
combinationally. -/
theorem kept_cases (hn : p.net? n = some x) (hd : p.combDriver? n = none) :
    n.isInput ∨
      (∃ i s, p.sources[i]? = some s ∧ s.kind ≠ .level ∧ n = .port i .pending ∧
        x = s.pending.id) ∨
      (∃ i s, p.sources[i]? = some s ∧ s.kind = .process ∧ n = .port i .oldTrigger ∧
        x = s.oldTrigger.id) ∨
      ∃ i s, p.sources[i]? = some s ∧ n = .line .enable (.bit i) ∧
        x = (p.layout.enable.bit i).id := by
  cases n with
  | irq => cases hd
  | port i q =>
    obtain ⟨s, hs, hq⟩ : ∃ s, p.sources[i]? = some s ∧ s.net? q = some x :=
      Option.bind_eq_some_iff.1 hn
    cases q with
    | trigger => exact .inl rfl
    | status => simp [combDriver?, hs] at hd
    | pending =>
      have hk : s.kind ≠ .level := by simpa [combDriver?, hs] using hd
      exact .inr (.inl ⟨i, s, hs, hk, rfl, (Option.some.inj hq).symm⟩)
    | clear => simp [combDriver?, hs] at hd
    | oldTrigger =>
      obtain ⟨hk, hx⟩ := Option.ite_none_right_eq_some.1 hq
      exact .inr (.inr (.inl ⟨i, s, hs, hk, rfl, (Option.some.inj hx).symm⟩))
  | line role q =>
    cases q with
    | bit i =>
      obtain ⟨hi, rfl⟩ := Register.net?_bit.1 (net?_line_eq_some hn)
      rw [width_register] at hi
      have hs := List.getElem?_eq_getElem hi
      cases role with
      | status => simp [combDriver?, hs] at hd
      | pending => simp [combDriver?, hs] at hd
      | enable => exact .inr (.inr (.inr ⟨i, _, hs, rfl, rfl⟩))
    | written i => exact .inl rfl
    | strobe => exact .inl rfl

theorem level_input (hn : p.net? n = some x) (hi : n.isInput) :
    a.level p.layout p.sources n = a.inputs x := by
  cases n with
  | irq => cases hi
  | port i q =>
    obtain ⟨s, hs, hq⟩ : ∃ s, p.sources[i]? = some s ∧ s.net? q = some x :=
      Option.bind_eq_some_iff.1 hn
    cases q with
    | trigger =>
      obtain rfl : s.trigger.id = x := Option.some.inj hq
      rw [level_port hs, CellArray.port]
    | _ => cases hi
  | line role q =>
    cases q with
    | bit i => cases hi
    | written i =>
      obtain ⟨hlt, rfl⟩ := Register.net?_written.1 (net?_line_eq_some hn)
      rfl
    | strobe =>
      obtain rfl := Register.net?_strobe.1 (net?_line_eq_some hn)
      rfl

theorem pending_of_kind_ne (c : EventCell) (t : Bool) (hk : s.kind ≠ .level) :
    c.pending s.kind t = c.latch := by
  cases hkind : s.kind with
  | pulse => rfl
  | process => rfl
  | level => exact absurd hkind hk

theorem ne_of_isInput {m : Net} {y : SignalId} (hn : p.net? n = some x) (hi : n.isInput)
    (hm : p.net? m = some y) (hm' : m.isInput = false) : x ≠ y := by
  rintro rfl
  rw [net?_injective hn hm, hm'] at hi
  cases hi

/-- Setting an input does the same to the logic and to the array. -/
theorem Tracks.set (h : p.Tracks v a) (hn : p.net? n = some x) (hi : n.isInput) (b : Bool) :
    p.Tracks (v.set x b) (a.act p.layout p.sources (.set x b)) := by
  intro m y hm hd
  have hold := h m y hm hd
  rw [Levels.read_set]
  rcases kept_cases hm hd with hinput | ⟨i, s, hs, hk, rfl, rfl⟩ | ⟨i, s, hs, hk, rfl, rfl⟩ |
    ⟨i, s, hs, rfl, rfl⟩
  · rw [level_input hm hinput] at hold ⊢
    rw [hold, CellArray.act]
  · rw [level_port hs, CellArray.port, pending_of_kind_ne _ _ hk] at hold ⊢
    rw [if_neg (ne_of_isInput hn hi hm rfl), hold, CellArray.act]
  · rw [level_port hs, CellArray.port] at hold ⊢
    rw [if_neg (ne_of_isInput hn hi hm rfl), hold, CellArray.act]
  · rw [level_bit hs, CellArray.bit] at hold ⊢
    rw [if_neg (ne_of_isInput hn hi hm rfl), hold, CellArray.act]

/-! ## Clock edges -/

theorem cells_clock (hs : p.sources[i]? = some s) :
    (a.clock p.layout p.sources).cells i =
      (a.cells i).clock s.kind (a.inputsOf p.layout i s) := by
  simp [CellArray.clock, hs]

theorem read_edge_of_active {l : Option Bool}
    (h : lastActive? v.read (assignmentsAll p.layout.logic.sync) x = l) :
    (p.layout.logic.edge v).read x = l.getD (v.read x) := by
  rw [Levels.read, Fragment.get?_edge, h, Levels.read]
  cases l <;> rfl

theorem Shows.read_port (h : p.Shows v a) (hs : p.sources[i]? = some s) {q : Port}
    (hq : s.net? q = some x) : v.read x = a.port p.layout i s q := by
  rw [h _ _ ((net?_port hs q).trans hq), level_port hs]

theorem Shows.read_bit (h : p.Shows v a) (hs : p.sources[i]? = some s) (role : Role) :
    v.read ((p.layout.register role).bit i).id = a.bit p.layout i s role :=
  (h _ _ (net?_bit role (lt_length hs))).trans (level_bit hs role)

theorem Shows.eval_fires (h : p.Shows v a) (hs : p.sources[i]? = some s) :
    s.fires.eval v.read = EventCell.fires s.kind (a.inputs s.trigger.id) (a.cells i).old := by
  have htrigger := h.read_port hs (q := .trigger) rfl
  rw [Source.eval_fires, htrigger, CellArray.port]
  cases hk : s.kind with
  | pulse => rfl
  | level => rfl
  | process =>
    rw [h.read_port hs (Source.net?_oldTrigger hk), CellArray.port]

theorem Shows.read_edge_pending (h : p.Shows v a) (hs : p.sources[i]? = some s)
    (hk : s.kind ≠ .level) :
    (p.layout.logic.edge v).read s.pending.id =
      ((a.clock p.layout p.sources).cells i).latch := by
  have hlast := Source.lastActive?_sync_pending v.read hk
  rw [← lastActive?_sync_port v.read hs (q := .pending) rfl] at hlast
  have hclear : v.read s.clear.id = (a.inputsOf p.layout i s).clear :=
    h.read_port hs (q := .clear) rfl
  have hlatch : v.read s.pending.id = (a.cells i).latch := by
    rw [h.read_port hs (q := .pending) rfl, CellArray.port, pending_of_kind_ne _ _ hk]
  have hfires : s.fires.eval v.read =
      EventCell.fires s.kind (a.inputsOf p.layout i s).trigger (a.cells i).old := h.eval_fires hs
  rw [read_edge_of_active hlast, cells_clock hs, EventCell.latch_clock, hfires, hclear, hlatch]
  -- the assignment of a source that fires comes last, so it wins over the one for `clear`
  cases EventCell.fires s.kind (a.inputsOf p.layout i s).trigger (a.cells i).old with
  | true => rfl
  | false => cases (a.inputsOf p.layout i s).clear <;> simp

theorem Shows.read_edge_oldTrigger (h : p.Shows v a) (hs : p.sources[i]? = some s)
    (hk : s.kind = .process) :
    (p.layout.logic.edge v).read s.oldTrigger.id =
      ((a.clock p.layout p.sources).cells i).old := by
  have hq := Source.net?_oldTrigger hk
  have hlast := Source.lastActive?_sync_oldTrigger v.read hk
  rw [← lastActive?_sync_port v.read hs hq] at hlast
  rw [read_edge_of_active hlast, cells_clock hs, hk, EventCell.old_clock_process,
    h.read_port hs (q := .trigger) rfl]
  rfl

theorem Shows.read_edge_enable (h : p.Shows v a) (hs : p.sources[i]? = some s) :
    (p.layout.logic.edge v).read (p.layout.enable.bit i).id =
      ((a.clock p.layout p.sources).cells i).enable := by
  have hstrobe : v.read p.layout.enable.strobe.id = (a.inputsOf p.layout i s).load :=
    h (.line .enable .strobe) _ rfl
  have hwritten : v.read (p.layout.enable.written i).id = (a.inputsOf p.layout i s).mask :=
    h _ _ (net?_written .enable (lt_length hs))
  have hbit : v.read (p.layout.enable.bit i).id = (a.cells i).enable := h.read_bit hs .enable
  rw [read_edge_of_active (lastActive?_sync_enable v.read (lt_length hs)), hstrobe, hwritten, hbit,
    cells_clock hs, EventCell.enable_clock]
  cases (a.inputsOf p.layout i s).load <;> rfl

/-- A clock edge on settled levels clocks every cell. -/
theorem Shows.edge (h : p.Shows v a) :
    p.Tracks (p.layout.logic.edge v) (a.clock p.layout p.sources) := by
  intro n x hn hd
  rcases kept_cases hn hd with hinput | ⟨i, s, hs, hk, rfl, rfl⟩ | ⟨i, s, hs, hk, rfl, rfl⟩ |
    ⟨i, s, hs, rfl, rfl⟩
  · have hget := Fragment.get?_edge_of_not_mem (v := v) (not_mem_syncTargets_of_isInput hinput hn)
    have hread := h n x hn
    rw [level_input hn hinput] at hread ⊢
    rw [Levels.read, hget, ← Levels.read, hread, CellArray.clock]
  · rw [h.read_edge_pending hs hk, level_port hs, CellArray.port, pending_of_kind_ne _ _ hk]
  · rw [h.read_edge_oldTrigger hs hk, level_port hs, CellArray.port]
  · rw [h.read_edge_enable hs, level_bit hs, CellArray.bit]

/-! ## Runs -/

/-- A simulator of the logic of a layout whose kept nets have the levels of the array. -/
structure Follows (p : Placement) (sim : Simulator) (a : CellArray) : Prop where
  fragment : sim.fragment = p.layout.logic
  tracks : p.Tracks sim.levels a

/-- The action forces inputs only. -/
def Drives (p : Placement) : Simulator.Action → Prop
  | .set x _ => ∃ n, n.isInput ∧ p.net? n = some x
  | .settle => True
  | .tick => True

variable {sim : Simulator} {actions : List Simulator.Action} {b : Bool}

theorem levels_settle (hfragment : sim.fragment = p.layout.logic) :
    sim.settle.1.levels = p.settled sim.levels := by
  rw [Simulator.levels_settle, hfragment, settled]

theorem Follows.shows_settle (h : p.Follows sim a) : p.Shows sim.settle.1.levels a := by
  rw [levels_settle h.fragment]
  exact h.tracks.settle

theorem Follows.shows_tick (h : p.Follows sim a) :
    p.Shows sim.tick.levels (a.clock p.layout p.sources) := by
  have hlevels : sim.tick.levels = p.settled (p.layout.logic.edge (p.settled sim.levels)) := by
    unfold settled
    rw [← h.fragment]
    rfl
  rw [hlevels]
  exact h.tracks.settle.edge.settle

/-- One action keeps the simulator and the array together. -/
theorem Follows.act (h : p.Follows sim a) {action : Simulator.Action} (hd : p.Drives action) :
    p.Follows (sim.act action) (a.act p.layout p.sources action) := by
  cases action with
  | set x b =>
    obtain ⟨n, hi, hn⟩ := hd
    exact ⟨h.fragment, h.tracks.set hn hi b⟩
  | settle => exact ⟨h.fragment, h.shows_settle.tracks⟩
  | tick => exact ⟨h.fragment, h.shows_tick.tracks⟩

theorem Follows.run (h : p.Follows sim a) (hd : ∀ action ∈ actions, p.Drives action) :
    p.Follows (sim.run actions) (a.run p.layout p.sources actions) := by
  induction actions generalizing sim a with
  | nil => exact h
  | cons action rest ih =>
    have hact := h.act (hd action List.mem_cons_self)
    exact ih hact fun b hb => hd b (List.mem_cons_of_mem action hb)

theorem tracks_empty (p : Placement) : p.Tracks .empty .initial := by
  intro n x hn hd
  rw [Levels.read_empty]
  rcases kept_cases hn hd with hinput | ⟨i, s, hs, hk, rfl, rfl⟩ | ⟨i, s, hs, hk, rfl, rfl⟩ |
    ⟨i, s, hs, rfl, rfl⟩
  · rw [level_input hn hinput, CellArray.initial]
  · rw [level_port hs, CellArray.port, pending_of_kind_ne _ _ hk]
    rfl
  · rw [level_port hs]
    rfl
  · rw [level_bit hs]
    rfl

theorem shows_start (p : Placement) :
    p.Shows (Simulator.start p.layout.logic).levels .initial :=
  p.tracks_empty.settle

theorem follows_start (p : Placement) : p.Follows (.start p.layout.logic) .initial :=
  ⟨rfl, p.shows_start.tracks⟩

/-- A run that does not end with a forced level ends with every net at its level in the array. -/
theorem shows_run (hd : ∀ action ∈ actions, p.Drives action)
    (hrest : ∀ x b, actions.getLast? ≠ some (.set x b)) :
    p.Shows ((Simulator.start p.layout.logic).run actions).levels
      (CellArray.initial.run p.layout p.sources actions) := by
  rcases List.eq_nil_or_concat actions with rfl | ⟨before, last, rfl⟩
  · exact p.shows_start
  · rw [List.concat_eq_append] at hd hrest ⊢
    have hbefore : ∀ action ∈ before, p.Drives action :=
      fun action h => hd action (List.mem_append_left _ h)
    have hfollows := p.follows_start.run hbefore
    rw [Simulator.run_concat, CellArray.run_concat]
    cases last with
    | set x b => exact absurd List.getLast?_concat (hrest x b)
    | settle => exact hfollows.shows_settle
    | tick => exact hfollows.shows_tick

end Placement

end IrqSynth
