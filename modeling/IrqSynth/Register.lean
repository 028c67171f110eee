-- SUMMARY: Registers of one-bit fields, their nets, and the lookup of fields by name.
import IrqSynth.Logic.Fragment

/-!
# Registers

Registers of one-bit fields. A register of width `w` owns `2 * w + 1` nets with consecutive ids:
the bits that software reads, the lines that carry a written word, and the strobe that is high for
the cycle of a write.

Main statements: `lt_width_iff` (how wide a register is) and `field?_of_first` (looking up a name).
-/
namespace IrqSynth

/-- Who drives the bits of a register, and what a write means. -/
inductive RegisterKind where
  /-- Driven by hardware; a write has no effect. -/
  | status
  /-- Holds the word written last. -/
  | storage
  /-- Driven by hardware; writing 1 to a bit acknowledges it. -/
  | writeOneToClear
  deriving DecidableEq, Repr

/-- How a data sheet describes the access to a register. -/
def RegisterKind.access : RegisterKind → String
  | status => "read-only"
  | storage => "read-write"
  | writeOneToClear => "read-write, write 1 to clear"

/-- A named bit of a register. -/
structure Field where
  name : String
  offset : Nat
  description : String
  deriving DecidableEq, Repr

/-- A register whose nets start at id `base`. -/
structure Register where
  name : String
  kind : RegisterKind
  description : String
  fields : List Field
  base : SignalId
  deriving DecidableEq, Repr

namespace Register

/-- One more than the greatest offset of a field, and 0 without fields. -/
def width (r : Register) : Nat :=
  r.fields.foldl (fun w f => max w (f.offset + 1)) 0

theorem lt_foldl_max_iff (fields : List Field) (i w : Nat) :
    i < fields.foldl (fun w f => max w (f.offset + 1)) w ↔ i < w ∨ ∃ f ∈ fields, i ≤ f.offset := by
  induction fields generalizing w with
  | nil => simp
  | cons f rest ih =>
    have first : i < max w (f.offset + 1) ↔ i < w ∨ i ≤ f.offset := by omega
    rw [List.foldl_cons, ih, first]
    simp [or_assoc]

/-- A position belongs to the register exactly when some field lies there or beyond. -/
theorem lt_width_iff {r : Register} {i : Nat} :
    i < r.width ↔ ∃ f ∈ r.fields, i ≤ f.offset := by
  simp [width, lt_foldl_max_iff]

-- ---------------------------------------------------------------------------
-- Nets
-- ---------------------------------------------------------------------------

/-- The net that software reads at position `i`. -/
def bit (r : Register) (i : Nat) : Signal :=
  ⟨r.base + i, s!"{r.name}_{i}"⟩

/-- The net that carries position `i` of a written word. -/
def written (r : Register) (i : Nat) : Signal :=
  ⟨r.base + r.width + i, s!"{r.name}_r_{i}"⟩

/-- The write strobe. -/
def strobe (r : Register) : Signal :=
  ⟨r.base + 2 * r.width, s!"{r.name}_re"⟩

/-- The number of nets a register owns. -/
def signalCount (r : Register) : Nat :=
  2 * r.width + 1

/-- The bit at a position, if the register is that wide. -/
def bit? (r : Register) (i : Nat) : Option Signal :=
  if i < r.width then some (r.bit i) else none

/-- The write line of a position, if the register is that wide. -/
def written? (r : Register) (i : Nat) : Option Signal :=
  if i < r.width then some (r.written i) else none

def bits (r : Register) : List Signal :=
  (List.range r.width).map r.bit

def writtenBits (r : Register) : List Signal :=
  (List.range r.width).map r.written

-- ---------------------------------------------------------------------------
-- Fields
-- ---------------------------------------------------------------------------

/-- The first field of a name. -/
def field? (r : Register) (name : String) : Option Field :=
  r.fields.find? fun f => f.name = name

/-- The bit at the offset of the first field of a name. -/
def fieldBit? (r : Register) (name : String) : Option Signal :=
  (r.field? name).bind fun f => r.bit? f.offset

/-- A field is found by its name if no field declared before it has that name. -/
theorem field?_of_first {r : Register} {f : Field} {before after : List Field}
    (hfields : r.fields = before ++ f :: after) (hfirst : ∀ g ∈ before, g.name ≠ f.name) :
    r.field? f.name = some f := by
  refine List.find?_eq_some_iff_append.2 ⟨by simp, before, after, hfields, ?_⟩
  intro g hg
  simpa using hfirst g hg

-- ---------------------------------------------------------------------------
-- Logic
-- ---------------------------------------------------------------------------

/-- The statements that take over the written word, one per bit. -/
def capture (r : Register) : List Stmt :=
  (List.range r.width).map fun i => (r.bit i).drive (.signal (r.written i).id)

/-- The logic of the register itself: only storage has any, which takes the written word over at
a clock edge with the strobe high. -/
def logic (r : Register) : Fragment :=
  match r.kind with
  | .storage => ⟨[], [.guard (.signal r.strobe.id) r.capture]⟩
  | .status => .empty
  | .writeOneToClear => .empty

end Register

end IrqSynth
