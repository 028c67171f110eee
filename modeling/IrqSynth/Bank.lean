-- SUMMARY: The memory-mapped registers of a finalized controller on a simulation of its logic, with firmware accesses and runs.
import IrqSynth.BusWord
import IrqSynth.Controller
import IrqSynth.Simulation.Simulator

/-!
# Banks

The memory-mapped registers of a finalized controller as firmware sees them, on top of a simulation
of the controller's logic. The registers lie one after the other: status, pending, enable, each in
as many words as it needs. A successful write is one clock edge; reads and refused accesses change
nothing.
-/
namespace IrqSynth

/-- A controller's registers and interrupt line with the simulation of its logic. -/
structure Bank where
  layout : Layout
  irqLine : Signal
  sim : Simulator
  deriving DecidableEq

namespace Bank

/-- The bank of a finalized controller, at the start of its simulation. -/
def create (c : Controller) : Except ElabError Bank :=
  c.requireLayout.map fun l => ⟨l, c.irq, .start l.logic⟩

-- ---------------------------------------------------------------------------
-- Memory map
-- ---------------------------------------------------------------------------

/-- The number of events. -/
def width (b : Bank) : Nat :=
  b.layout.status.width

/-- The number of words of each register. -/
def words (b : Bank) : Nat :=
  BusWord.count b.width

/-- The number of bytes of the bank. -/
def size (b : Bank) : Nat :=
  3 * b.words * BusWord.bytes

/-- Where a register starts, in bytes. -/
def offset (b : Bank) : Role → Nat
  | .status => 0
  | .pending => b.words * BusWord.bytes
  | .enable => 2 * b.words * BusWord.bytes

/-- The register and the word at an offset. Only multiples of the word size below the size of the
bank are valid. -/
def locate (b : Bank) (offset : Nat) : Except ErrorCode (Role × Nat) :=
  if offset % BusWord.bytes ≠ 0 then .error .invalidInput
  else if offset < b.offset .pending then .ok (.status, offset / BusWord.bytes)
  else if offset < b.offset .enable then
    .ok (.pending, (offset - b.offset .pending) / BusWord.bytes)
  else if offset < b.size then .ok (.enable, (offset - b.offset .enable) / BusWord.bytes)
  else .error .invalidInput

-- ---------------------------------------------------------------------------
-- Bus accesses
-- ---------------------------------------------------------------------------

/-- The level of a register bit. -/
def level (b : Bank) (role : Role) (i : Nat) : Bool :=
  b.sim.read ((b.layout.register role).bit i).id

/-- One word of a register. -/
def word (b : Bank) (role : Role) (w : Nat) : BusValue :=
  BusWord.pack w (b.layout.register role).width (b.level role)

/-- The word at an offset. -/
def read (b : Bank) (offset : Nat) : Except ErrorCode BusValue :=
  (b.locate offset).map fun (role, w) => b.word role w

/-- The level of write line `i` during a write of `value` to word `w`. Outside that word a storage
register is given what it holds, and any other register 0. -/
def lineLevel (b : Bank) (role : Role) (w : Nat) (value : BusValue) (i : Nat) : Bool :=
  (BusWord.bitOf value w i).getD ((b.layout.register role).kind = .storage && b.level role i)

/-- The simulation with a value on the write lines of a register. -/
def present (b : Bank) (role : Role) (w : Nat) (value : BusValue) : Simulator :=
  let register := b.layout.register role
  (List.range register.width).foldl
    (fun sim i => sim.set (register.written i).id (b.lineLevel role w value i)) b.sim

/-- Writes one word of a register: the strobe is high for one clock edge. The write lines keep their
levels afterwards. -/
def writeWord (b : Bank) (role : Role) (w : Nat) (value : BusValue) : Bank :=
  let strobe := (b.layout.register role).strobe.id
  let clocked := ((b.present role w value).set strobe true).tick
  { b with sim := (clocked.set strobe false).settle.1 }

/-- Writes a value at an offset. -/
def write (b : Bank) (offset : Nat) (value : BusValue) : Except ErrorCode Bank :=
  (b.locate offset).map fun (role, w) => b.writeWord role w value

-- ---------------------------------------------------------------------------
-- Single events
-- ---------------------------------------------------------------------------

/-- Where the bit of an event lies in every register: the byte of its word, and its mask there. -/
def position (b : Bank) (i : Nat) : Except ErrorCode (Nat × BusValue) :=
  if b.width ≤ i then .error .invalidInput
  else .ok (i / BusWord.bits * BusWord.bytes, 1#64 <<< (i % BusWord.bits))

/-- Whether the bit of an event is 1 in a register. -/
def test (b : Bank) (role : Role) (i : Nat) : Except ErrorCode Bool := do
  let (byte, mask) ← b.position i
  let value ← b.read (b.offset role + byte)
  return value &&& mask ≠ 0

/-- Lets an event raise the interrupt. -/
def enable (b : Bank) (i : Nat) : Except ErrorCode Bank := do
  let (byte, mask) ← b.position i
  let offset := b.offset .enable + byte
  b.write offset ((← b.read offset) ||| mask)

/-- Keeps an event from raising the interrupt. -/
def disable (b : Bank) (i : Nat) : Except ErrorCode Bank := do
  let (byte, mask) ← b.position i
  let offset := b.offset .enable + byte
  b.write offset ((← b.read offset) &&& ~~~mask)

/-- Acknowledges an event. A level source stays pending while its trigger is high. -/
def acknowledge (b : Bank) (i : Nat) : Except ErrorCode Bank := do
  let (byte, mask) ← b.position i
  b.write (b.offset .pending + byte) mask

-- ---------------------------------------------------------------------------
-- All events
-- ---------------------------------------------------------------------------

/-- The level of the interrupt line. -/
def irq (b : Bank) : Bool :=
  b.sim.read b.irqLine.id

/-- The events whose bit is 1 in a register, in ascending order. -/
def events (b : Bank) (role : Role) : List Nat :=
  (List.range (b.layout.register role).width).filter (b.level role)

/-- The lowest event that is pending and enabled. -/
def next? (b : Bank) : Option Nat :=
  let enabled := b.events .enable
  (b.events .pending).find? fun i => enabled.contains i

-- ---------------------------------------------------------------------------
-- Runs
-- ---------------------------------------------------------------------------

/-- What hardware and firmware do to a bank. -/
inductive Action where
  | drive (action : Simulator.Action)
  | read (offset : Nat)
  | write (offset : Nat) (value : BusValue)
  | enable (event : Nat)
  | disable (event : Nat)
  | acknowledge (event : Nat)
  deriving DecidableEq, Repr

/-- Performs one action, or refuses it. -/
def perform (b : Bank) : Action → Except ErrorCode Bank
  | .drive a => .ok { b with sim := b.sim.act a }
  | .read offset => (b.read offset).map fun _ => b
  | .write offset value => b.write offset value
  | .enable i => b.enable i
  | .disable i => b.disable i
  | .acknowledge i => b.acknowledge i

/-- The bank after an action; a refused one leaves it as it was. -/
def act (b : Bank) (a : Action) : Bank :=
  match b.perform a with
  | .ok after => after
  | .error _ => b

/-- Performs actions in order. -/
def run (b : Bank) (actions : List Action) : Bank :=
  actions.foldl act b

end Bank

end IrqSynth
