-- SUMMARY: Elaboration and bus accesses with index, overflow and shift faults as outcomes of their own.
import IrqSynth.Bitmap
import IrqSynth.Design
import Mathlib.Algebra.Group.Nat.Defs

/-!
# Checked operations

The operations that reach into lists or calculate with machine words, with their faults as outcomes:
an index beyond the end of a list, a result that no machine word holds, a difference below zero and
a shift by the width of its operand or more. The outcome `none` is a fault; a refusal is an answer
like any other. Step by step these are the operations of designs and banks, which they equal as long
as nothing faults.
-/
namespace IrqSynth

namespace Checked

/-- A step that may fault or answer with an error code. -/
abbrev Access := ExceptT ErrorCode Option

-- ---------------------------------------------------------------------------
-- Machine words
-- ---------------------------------------------------------------------------

/-- The number of values of a machine word. -/
def limit : Nat :=
  2 ^ 64

def add (m n : Nat) : Option Nat :=
  if m + n < limit then some (m + n) else none

def mul (m n : Nat) : Option Nat :=
  if m * n < limit then some (m * n) else none

def sub (m n : Nat) : Option Nat :=
  if n ≤ m then some (m - n) else none

def shiftLeft {w : Nat} (v : BitVec w) (n : Nat) : Option (BitVec w) :=
  if n < w then some (v <<< n) else none

def shiftRight {w : Nat} (v : BitVec w) (n : Nat) : Option (BitVec w) :=
  if n < w then some (v >>> n) else none

-- ---------------------------------------------------------------------------
-- Registers and layouts
-- ---------------------------------------------------------------------------

/-- One more than the greatest offset of a field. -/
def width (fields : List Field) : Option Nat :=
  fields.foldlM (fun w f => return max w (← add f.offset 1)) 0

/-- A new register; its width decides how many nets it is given. -/
def register (name : String) (kind : RegisterKind) (description : String) (fields : List Field)
    (base : SignalId) : Option Register := do
  let _ ← width fields
  return ⟨name, kind, description, fields, base⟩

/-- The register of one part, with one field for each source that has a name in the list. -/
def synthesizeRegister (role : Role) (sources : List Source) (names : List String)
    (base : SignalId) : Option Register :=
  register role.name role.kind role.description
    ((sources.zip names).mapIdx fun i (s, name) => ⟨name, i, role.fieldText s name⟩) base

/-- The wires of source `s` at bit `i`, and the condition under which it raises the interrupt. -/
def wire (status pending enable : Register) (i : Nat) (s : Source) : Option (List Stmt × Expr) := do
  let pendingBit ← pending.bits[i]?
  let enableBit ← enable.bits[i]?
  let written ← pending.writtenBits[i]?
  let statusBit ← status.bits[i]?
  return ([statusBit.drive (.signal s.status.id), pendingBit.drive (.signal s.pending.id),
      .guard (.and (.signal pending.strobe.id) (.signal written.id)) [s.clear.drive (.lit true)]],
    .and (.signal pendingBit.id) (.signal enableBit.id))

def synthesize (sources : List Source) (names : List String) (irq : Signal) (base : SignalId) :
    Option Layout := do
  let status ← synthesizeRegister .status sources names base
  let pending ← synthesizeRegister .pending sources names (base + status.signalCount)
  let enable ← synthesizeRegister .enable sources names
    (base + status.signalCount + pending.signalCount)
  let wires ← sources.zipIdx.mapM fun (s, i) => wire status pending enable i s
  return { names, status, pending, enable
           logic := Fragment.concat (sources.map Source.logic) ++ enable.logic ++
             ⟨(wires.map (·.1)).flatten ++ [irq.drive (.disjunction (wires.map (·.2)))], []⟩ }

-- ---------------------------------------------------------------------------
-- Designs
-- ---------------------------------------------------------------------------

def finalize (c : Controller) (base : SignalId) :
    Option (Except ElabError (Controller × Layout)) :=
  if c.isFinalized then some (.error .alreadyFinalized)
  else
    match Roster.firstRepeat? [] c.roster.fieldNames with
    | some name => some (.error (.nameCollision name))
    | none => do
      let layout ← synthesize c.roster.sources c.roster.fieldNames c.irq base
      return .ok ({ c with layout := some layout }, layout)

/-- Performs one command. Only new registers and finalizing reach into lists or calculate. -/
def perform (d : Design) : Command → Option (Answer × Design)
  | .register kind name description fields => do
    let register ← register name kind description fields d.nextSignal
    return (.register register,
      { d with
        nextSignal := d.nextSignal + register.signalCount
        registers := d.registers.push register })
  | .finalize controller =>
    match d.controllers[controller]? with
    | none => some (.missing, d)
    | some c => do
      match ← finalize c d.nextSignal with
      | .error e => return (.refused e, d)
      | .ok (c, layout) =>
        return (.finalized layout,
          { d with
            nextSignal := d.nextSignal + layout.signalCount
            controllers := d.controllers.setIfInBounds controller c })
  | command => some (d.perform command)

def run (d : Design) : List Command → Option (List Answer × Design)
  | [] => some ([], d)
  | c :: rest => do
    let (answer, after) ← perform d c
    let (answers, final) ← run after rest
    return (answer :: answers, final)

-- ---------------------------------------------------------------------------
-- Bus words
-- ---------------------------------------------------------------------------

/-- Enters the bit at position `p` of a word that begins at bit `first`, under a mask that moves up
by one position. -/
def packBit (first width : Nat) (bit : Nat → Option Bool) :
    BitVec 32 × BitVec 32 → Nat → Option (BitVec 32 × BitVec 32)
  | (value, mask), p => do
    let index ← add first p
    let level ← if index < width then bit index else some false
    return (if level then value ||| mask else value, ← shiftLeft mask 1)

def pack (word width : Nat) (bit : Nat → Option Bool) : Option BusValue := do
  let first ← mul word BusWord.bits
  let (value, _) ← (List.range BusWord.bits).foldlM (packBit first width bit) (0#32, 1#32)
  return value.setWidth 64

def bitOf (value : BusValue) (word index : Nat) : Option (Option Bool) :=
  if index / BusWord.bits = word then do
    let shifted ← shiftRight value (index % BusWord.bits)
    return some (shifted &&& 1#64 ≠ 0)
  else some none

-- ---------------------------------------------------------------------------
-- Banks
-- ---------------------------------------------------------------------------

def size (b : Bank) : Option Nat := do
  mul (← mul 3 b.words) BusWord.bytes

def offset (b : Bank) : Role → Option Nat
  | .status => some 0
  | .pending => mul b.words BusWord.bytes
  | .enable => do mul (← mul 2 b.words) BusWord.bytes

def locate (b : Bank) (address : Nat) : Access (Role × Nat) := do
  if address % BusWord.bytes ≠ 0 then throw .invalidInput
  let pending ← offset b .pending
  let enable ← offset b .enable
  if address < pending then return (.status, address / BusWord.bytes)
  else if address < enable then return (.pending, (← sub address pending) / BusWord.bytes)
  else if address < (← size b) then return (.enable, (← sub address enable) / BusWord.bytes)
  else throw .invalidInput

/-- The level of a register bit. -/
def level (sim : Simulator) (register : Register) (i : Nat) : Option Bool := do
  let bit ← register.bits[i]?
  return sim.read bit.id

def read (b : Bank) (address : Nat) : Access BusValue := do
  let (role, w) ← locate b address
  let register := b.layout.register role
  pack w register.width (level b.sim register)

/-- Puts a write line on its level. A level that is kept is read from the simulation as it is by
then. -/
def presentBit (register : Register) (w : Nat) (value : BusValue) (sim : Simulator) :
    Signal × Nat → Option Simulator
  | (line, i) => do
    match ← bitOf value w i with
    | some bit => return sim.set line.id bit
    | none =>
      let kept ← if register.kind = .storage then level sim register i else some false
      return sim.set line.id kept

def present (b : Bank) (role : Role) (w : Nat) (value : BusValue) : Option Simulator :=
  let register := b.layout.register role
  register.writtenBits.zipIdx.foldlM (presentBit register w value) b.sim

def write (b : Bank) (address : Nat) (value : BusValue) : Access Bank := do
  let (role, w) ← locate b address
  let sim ← present b role w value
  let strobe := (b.layout.register role).strobe.id
  return { b with sim := ((sim.set strobe true).tick.set strobe false).settle.1 }

def position (b : Bank) (i : Nat) : Access (Nat × BusValue) := do
  if b.width ≤ i then throw .invalidInput
  let byte ← mul (i / BusWord.bits) BusWord.bytes
  let mask ← shiftLeft 1#64 (i % BusWord.bits)
  return (byte, mask)

def test (b : Bank) (role : Role) (i : Nat) : Access Bool := do
  let (byte, mask) ← position b i
  let value ← read b (← add (← offset b role) byte)
  return value &&& mask ≠ 0

/-- Writes the word of an event in the enable register as `f` makes it of that word and the mask. -/
def change (b : Bank) (i : Nat) (f : BusValue → BusValue → BusValue) : Access Bank := do
  let (byte, mask) ← position b i
  let address ← add (← offset b .enable) byte
  write b address (f (← read b address) mask)

def enable (b : Bank) (i : Nat) : Access Bank :=
  change b i fun word mask => word ||| mask

def disable (b : Bank) (i : Nat) : Access Bank :=
  change b i fun word mask => word &&& ~~~mask

def acknowledge (b : Bank) (i : Nat) : Access Bank := do
  let (byte, mask) ← position b i
  write b (← add (← offset b .pending) byte) mask

/-- Performs one action. -/
def act (b : Bank) : Bank.Action → Access Bank
  | .drive a => return { b with sim := b.sim.act a }
  | .read address => do
    let _ ← read b address
    return b
  | .write address value => write b address value
  | .enable i => enable b i
  | .disable i => disable b i
  | .acknowledge i => acknowledge b i

end Checked

end IrqSynth
