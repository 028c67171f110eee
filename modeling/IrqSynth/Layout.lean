-- SUMMARY: The three registers of a finalized controller, their field texts, and the wiring between sources, registers and interrupt line.
import IrqSynth.Register
import IrqSynth.Source

/-!
# Layouts

The registers of a finalized controller and the logic around them. Bit `i` of the three registers
belongs to the `i`-th source.

Main statement: `Role.width_synthesize` (every register is as wide as there are sources).
-/
namespace IrqSynth

/-- The part a register plays, in the order of the memory map. -/
inductive Role where
  | status
  | pending
  | enable
  deriving DecidableEq, Repr

/-- The position of a register among the three. -/
def Role.index : Role → Nat
  | status => 0
  | pending => 1
  | enable => 2

/-- The name of the register that plays a part. -/
def Role.name : Role → String
  | status => "status"
  | pending => "pending"
  | enable => "enable"

/-- What a data sheet says of the register. -/
def Role.description : Role → String
  | status =>
    "This register contains the current raw level of the event triggers. " ++
      "Writes to this register have no effect."
  | pending =>
    "When an event occurs, the corresponding bit will be set in this register. " ++
      "To clear the Event, set the corresponding bit in this register."
  | enable =>
    "This register enables the corresponding events. " ++
      "Write a `0` to this register to disable individual events."

/-- Status and pending bits come from the sources, enable bits from software. -/
def Role.kind : Role → RegisterKind
  | status => .status
  | pending => .writeOneToClear
  | enable => .storage

/-- What a data sheet says of the bit called `name`, which belongs to source `s`. -/
def Role.fieldText (role : Role) (s : Source) (name : String) : String :=
  match role with
  | status => s.statusText name
  | pending => s.pendingText name
  | enable => Source.enableText name

/-- The register of one part for the given sources, with nets from `base` on. -/
def Role.synthesize (role : Role) (sources : List Source) (base : SignalId) : Register where
  name := role.name
  kind := role.kind
  description := role.description
  fields := sources.mapIdx fun i s =>
    let name := s.fieldName i
    ⟨name, i, role.fieldText s name⟩
  base := base

/-- A register has one bit for each source. -/
@[simp] theorem Role.width_synthesize (role : Role) (sources : List Source) (base : SignalId) :
    (role.synthesize sources base).width = sources.length := by
  have same (i : Nat) : i < (role.synthesize sources base).width ↔ i < sources.length := by
    simp only [Register.lt_width_iff, synthesize, List.mem_mapIdx]
    constructor
    · rintro ⟨f, ⟨k, hk, rfl⟩, hi⟩
      exact Nat.lt_of_le_of_lt hi hk
    · intro hi
      exact ⟨_, ⟨i, hi, rfl⟩, Nat.le_refl i⟩
  have := same (role.synthesize sources base).width
  have := same sources.length
  omega

@[simp] theorem Role.base_synthesize (role : Role) (sources : List Source) (base : SignalId) :
    (role.synthesize sources base).base = base :=
  rfl

@[simp] theorem Role.kind_synthesize (role : Role) (sources : List Source) (base : SignalId) :
    (role.synthesize sources base).kind = role.kind :=
  rfl

@[simp] theorem Role.signalCount_synthesize (role : Role) (sources : List Source)
    (base : SignalId) : (role.synthesize sources base).signalCount = 2 * sources.length + 1 := by
  rw [Register.signalCount, width_synthesize]

/-- The registers of a controller, the names of its fields in bit order, and its logic. -/
structure Layout where
  names : List String
  status : Register
  pending : Register
  enable : Register
  logic : Fragment
  deriving DecidableEq

namespace Layout

/-- The register that plays a part. -/
def register (l : Layout) : Role → Register
  | .status => l.status
  | .pending => l.pending
  | .enable => l.enable

/-- The number of nets of the three registers. -/
def signalCount (l : Layout) : Nat :=
  l.status.signalCount + l.pending.signalCount + l.enable.signalCount

-- ---------------------------------------------------------------------------
-- Wiring
-- ---------------------------------------------------------------------------

/-- Connects source `s` to bit `i`: its status and pending lines show in the registers, and a 1
written to its pending bit raises its clear line. -/
def wire (status pending : Register) (i : Nat) (s : Source) : List Stmt :=
  [(status.bit i).drive (.signal s.status.id),
    (pending.bit i).drive (.signal s.pending.id),
    .guard (.and (.signal pending.strobe.id) (.signal (pending.written i).id))
      [s.clear.drive (.lit true)]]

/-- Some bit is pending and enabled. -/
def asserted (pending enable : Register) (n : Nat) : Expr :=
  .disjunction ((List.range n).map fun i =>
    .and (.signal (pending.bit i).id) (.signal (enable.bit i).id))

/-- The layout for the given sources, with register nets from `base` on, that drives `irq`. -/
def synthesize (sources : List Source) (irq : Signal) (base : SignalId) : Layout :=
  let status := Role.status.synthesize sources base
  let pending := Role.pending.synthesize sources (base + status.signalCount)
  let enable := Role.enable.synthesize sources
    (base + status.signalCount + pending.signalCount)
  let wires := (sources.mapIdx (wire status pending)).flatten
  { names := sources.mapIdx fun i s => s.fieldName i
    status, pending, enable
    logic := Fragment.concat (sources.map Source.logic) ++ enable.logic ++
      ⟨wires ++ [irq.drive (asserted pending enable sources.length)], []⟩ }

end Layout

end IrqSynth
