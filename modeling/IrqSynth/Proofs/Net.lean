-- SUMMARY: Names for the nets of a controller, and distinct ids for distinct names.
import IrqSynth.Controller

/-!
# Nets by name

Every net of a controller has a name that does not depend on ids: a port of the source at some bit,
a line of one of the registers, or the interrupt line. Under ids that were handed out without
overlap, different names denote different nets.

Main statement: `Placement.net?_injective`.
-/
namespace IrqSynth

/-- The nets of a source. -/
inductive Port where
  | trigger
  | status
  | pending
  | clear
  | oldTrigger
  deriving DecidableEq, Repr

/-- The nets of a register. -/
inductive Line where
  | bit (i : Nat)
  | written (i : Nat)
  | strobe
  deriving DecidableEq, Repr

/-- The nets of a controller. -/
inductive Net where
  | irq
  | port (i : Nat) (q : Port)
  | line (role : Role) (q : Line)
  deriving DecidableEq, Repr

/-! ## Ids of named nets -/

/-- Where a port lies among the nets of its source. -/
def Port.offset : Port → Nat
  | .trigger => 0
  | .status => 1
  | .pending => 2
  | .clear => 3
  | .oldTrigger => 4

theorem Port.offset_injective {p q : Port} (h : p.offset = q.offset) : p = q := by
  revert h
  cases p <;> cases q <;> decide

/-- The id of a port, if the source has that port. -/
def Source.net? (s : Source) : Port → Option SignalId
  | .trigger => some s.trigger.id
  | .status => some s.status.id
  | .pending => some s.pending.id
  | .clear => some s.clear.id
  | .oldTrigger => if s.kind = .process then some s.oldTrigger.id else none

theorem Source.net?_oldTrigger {s : Source} (hk : s.kind = .process) :
    s.net? .oldTrigger = some s.oldTrigger.id := by
  simp [net?, hk]

theorem Source.net?_eq_some {s : Source} {q : Port} {x : SignalId} :
    s.net? q = some x ↔ x = s.base + q.offset ∧ q.offset < s.signalCount := by
  unfold Source.signalCount
  cases q with
  | trigger => cases s.kind <;> simp [net?, trigger, Port.offset, eq_comm]
  | status => cases s.kind <;> simp [net?, status, Port.offset, eq_comm]
  | pending => cases s.kind <;> simp [net?, pending, Port.offset, eq_comm]
  | clear => cases s.kind <;> simp [net?, clear, Port.offset, eq_comm]
  | oldTrigger => cases hk : s.kind <;> simp [net?, hk, oldTrigger, Port.offset, eq_comm]

/-- The id of a line, if the register has that line. -/
def Register.net? (r : Register) : Line → Option SignalId
  | .bit i => (r.bit? i).map Signal.id
  | .written i => (r.written? i).map Signal.id
  | .strobe => some r.strobe.id

theorem Register.net?_bit {r : Register} {i : Nat} {x : SignalId} :
    r.net? (.bit i) = some x ↔ i < r.width ∧ x = r.base + i := by
  unfold Register.net? Register.bit?
  split <;> simp_all [Register.bit, eq_comm]

theorem Register.net?_written {r : Register} {i : Nat} {x : SignalId} :
    r.net? (.written i) = some x ↔ i < r.width ∧ x = r.base + r.width + i := by
  unfold Register.net? Register.written?
  split <;> simp_all [Register.written, eq_comm]

theorem Register.net?_strobe {r : Register} {x : SignalId} :
    r.net? .strobe = some x ↔ x = r.base + 2 * r.width := by
  simp [Register.net?, Register.strobe, eq_comm]

/-- All nets of a register lie in the range of ids it owns. -/
theorem Register.net?_mem_range {r : Register} {q : Line} {x : SignalId} (h : r.net? q = some x) :
    r.base ≤ x ∧ x < r.base + r.signalCount := by
  unfold Register.signalCount
  cases q with
  | bit i =>
    obtain ⟨hi, rfl⟩ := net?_bit.1 h
    lia
  | written i =>
    obtain ⟨hi, rfl⟩ := net?_written.1 h
    lia
  | strobe =>
    obtain rfl := net?_strobe.1 h
    lia

theorem Register.net?_injective {r : Register} {p q : Line} {x : SignalId}
    (hp : r.net? p = some x) (hq : r.net? q = some x) : p = q := by
  cases p <;> cases q <;>
    simp only [net?_bit, net?_written, net?_strobe] at hp hq <;> grind

/-- The id of a net of a layout, if the layout has that net. -/
def Layout.net? (l : Layout) (sources : List Source) (irq : Signal) : Net → Option SignalId
  | .irq => some irq.id
  | .port i q => sources[i]?.bind fun s => s.net? q
  | .line role q => (l.register role).net? q

theorem Role.index_injective {r r' : Role} (h : r.index = r'.index) : r = r' := by
  revert h
  cases r <;> cases r' <;> decide

/-! ## Placements -/

/-- Sources in bit order, an interrupt line and the first of the register nets, whose ids do not
overlap. -/
structure Placement where
  sources : List Source
  irq : Signal
  base : SignalId
  ordered : sources.Pairwise fun a b => a.base + a.signalCount ≤ b.base
  below : ∀ s ∈ sources, s.base + s.signalCount ≤ base
  irq_below : irq.id < base
  irq_apart : ∀ s ∈ sources, irq.id < s.base ∨ s.base + s.signalCount ≤ irq.id

namespace Placement

variable (p : Placement)

/-- The layout for these sources. -/
def layout : Layout :=
  Layout.synthesize p.sources p.irq p.base

/-- The id of a net. -/
def net? : Net → Option SignalId :=
  p.layout.net? p.sources p.irq

theorem register_layout (role : Role) :
    p.layout.register role = role.synthesize p.sources (p.layout.register role).base := by
  cases role <;> rfl

@[simp] theorem width_register (role : Role) :
    (p.layout.register role).width = p.sources.length := by
  rw [register_layout, Role.width_synthesize]

@[simp] theorem kind_register (role : Role) : (p.layout.register role).kind = role.kind := by
  rw [register_layout, Role.synthesize]

/-- The registers lie one after the other, each as long as the others. -/
theorem base_register (role : Role) :
    (p.layout.register role).base = p.base + role.index * (2 * p.sources.length + 1) := by
  cases role with
  | status => simp [layout, Layout.register, Layout.synthesize, Role.index]
  | pending => simp [layout, Layout.register, Layout.synthesize, Role.index]
  | enable =>
    simp only [layout, Layout.register, Layout.synthesize, Role.base_synthesize,
      Role.signalCount_synthesize, Role.index]
    lia

variable {p} {i j : Nat} {s t : Source} {a b : Net} {x : SignalId}

theorem net?_port (hs : p.sources[i]? = some s) (q : Port) : p.net? (.port i q) = s.net? q := by
  simp [net?, Layout.net?, hs]

theorem net?_port_eq_some {q : Port} (h : p.net? (.port i q) = some x) :
    ∃ s, p.sources[i]? = some s ∧ x = s.base + q.offset ∧ q.offset < s.signalCount := by
  simp only [net?, Layout.net?, Option.bind_eq_some_iff, Source.net?_eq_some] at h
  exact h

theorem net?_line_eq_some {role : Role} {q : Line} (h : p.net? (.line role q) = some x) :
    (p.layout.register role).net? q = some x :=
  h

/-- Sources at different bits own different nets. -/
theorem apart (hs : p.sources[i]? = some s) (ht : p.sources[j]? = some t) (hij : i < j) :
    s.base + s.signalCount ≤ t.base := by
  obtain ⟨hi, rfl⟩ := List.getElem?_eq_some_iff.1 hs
  obtain ⟨hj, rfl⟩ := List.getElem?_eq_some_iff.1 ht
  exact List.pairwise_iff_getElem.1 p.ordered i j hi hj hij

theorem net?_port_lt_base {q : Port} (h : p.net? (.port i q) = some x) : x < p.base := by
  obtain ⟨s, hs, rfl, hq⟩ := net?_port_eq_some h
  have hbelow := p.below s (List.mem_of_getElem? hs)
  lia

theorem base_le_net?_line {role : Role} {q : Line} (h : p.net? (.line role q) = some x) :
    p.base ≤ x := by
  have hrange := (Register.net?_mem_range (net?_line_eq_some h)).1
  rw [base_register] at hrange
  lia

/-- Different names denote different nets. -/
theorem net?_injective (ha : p.net? a = some x) (hb : p.net? b = some x) : a = b := by
  have hirq := p.irq_below
  cases a with
  | irq =>
    obtain rfl : p.irq.id = x := Option.some.inj ha
    cases b with
    | irq => rfl
    | port j q =>
      obtain ⟨t, ht, hx, hq⟩ := net?_port_eq_some hb
      have hapart := p.irq_apart t (List.mem_of_getElem? ht)
      lia
    | line role q =>
      have hbase := base_le_net?_line hb
      lia
  | port i q =>
    obtain ⟨s, hs, hx, hq⟩ := net?_port_eq_some ha
    cases b with
    | irq =>
      obtain rfl : p.irq.id = x := Option.some.inj hb
      have hapart := p.irq_apart s (List.mem_of_getElem? hs)
      lia
    | port j r =>
      obtain ⟨t, ht, hy, hr⟩ := net?_port_eq_some hb
      rcases Nat.lt_trichotomy i j with hij | rfl | hij
      · have hst := apart hs ht hij
        lia
      · obtain rfl : s = t := Option.some.inj (hs.symm.trans ht)
        have hoffset : q.offset = r.offset := by lia
        rw [Port.offset_injective hoffset]
      · have hts := apart ht hs hij
        lia
    | line role r =>
      have hlt := net?_port_lt_base ha
      have hbase := base_le_net?_line hb
      lia
  | line role q =>
    have hbase := base_le_net?_line ha
    cases b with
    | irq =>
      obtain rfl : p.irq.id = x := Option.some.inj hb
      lia
    | port j r =>
      have hlt := net?_port_lt_base hb
      lia
    | line role' r =>
      have hq := Register.net?_mem_range (net?_line_eq_some ha)
      have hr := Register.net?_mem_range (net?_line_eq_some hb)
      rw [base_register, Register.signalCount, width_register] at hq hr
      have hindex : role.index = role'.index := by
        cases role <;> cases role' <;> simp only [Role.index] at hq hr ⊢ <;> lia
      obtain rfl := Role.index_injective hindex
      rw [Register.net?_injective (net?_line_eq_some ha) (net?_line_eq_some hb)]

end Placement

end IrqSynth
