-- SUMMARY: Sets of events with room for a whole register: the operations firmware needs, their laws, and bit vectors as an instance.
import IrqSynth.Bank

/-!
# Sets of events

Firmware takes all events of a register at once as a set with room for every event a controller may
have. How such a set is kept is left open; a bit vector is one way.

Main statement: `Bitmap.lawful_bitVec`.
-/
namespace IrqSynth

/-- The operations on sets of numbers below some size. -/
structure Bitmap (σ : Type) where
  empty : σ
  /-- Puts a number into the set or takes it out; none is the fault of a number beyond the size. -/
  set : σ → Nat → Bool → Option σ
  get : σ → Nat → Bool
  inter : σ → σ → σ
  /-- The least member. -/
  first? : σ → Option Nat

namespace Bitmap

/-- The operations are those of sets of numbers below `size`. -/
structure Lawful {σ : Type} (bitmap : Bitmap σ) (size : Nat) : Prop where
  get_empty : ∀ i < size, bitmap.get bitmap.empty i = false
  set_some : ∀ set level, ∀ i < size, ∃ after, bitmap.set set i level = some after ∧
    ∀ k < size, bitmap.get after k = if k = i then level else bitmap.get set k
  get_inter : ∀ set other, ∀ i < size,
    bitmap.get (bitmap.inter set other) i = (bitmap.get set i && bitmap.get other i)
  first?_eq_some : ∀ set i, bitmap.first? set = some i ↔
    i < size ∧ bitmap.get set i = true ∧ ∀ k < i, bitmap.get set k = false

/-- Number `i` belongs to the set if bit `i` is 1. -/
def bitVec (size : Nat) : Bitmap (BitVec size) where
  empty := .zero size
  set set i level :=
    if i < size then
      some (if level then set ||| .twoPow size i else set &&& ~~~.twoPow size i)
    else none
  get := BitVec.getLsbD
  inter := (· &&& ·)
  first? set := (List.range size).find? set.getLsbD

theorem lawful_bitVec (size : Nat) : (bitVec size).Lawful size where
  get_empty i _ := BitVec.getLsbD_zero
  set_some set level i hi := by
    refine ⟨_, if_pos hi, ?_⟩
    intro k hk
    have hbit : (BitVec.twoPow size i).getLsbD k = decide (i = k) := by
      rw [BitVec.getLsbD_twoPow, decide_eq_true hi, Bool.true_and]
    cases level with
    | true =>
      simp only [bitVec, if_true, BitVec.getLsbD_or, hbit]
      grind
    | false =>
      simp only [bitVec, Bool.false_eq_true, if_false, BitVec.getLsbD_and, BitVec.getLsbD_not, hbit,
        decide_eq_true hk]
      grind
  get_inter set other i _ := BitVec.getLsbD_and
  first?_eq_some set i := by
    rw [bitVec, List.find?_range_eq_some]
    simp [and_left_comm]

end Bitmap

-- ---------------------------------------------------------------------------
-- Registers as sets
-- ---------------------------------------------------------------------------

namespace Bank

variable {σ : Type}

/-- The set of the events whose bit is 1 in a register. -/
def snapshot (b : Bank) (bitmap : Bitmap σ) (role : Role) : Option σ :=
  (b.layout.register role).bits.zipIdx.foldlM
    (fun set (signal, i) => bitmap.set set i (b.sim.read signal.id)) bitmap.empty

/-- The least event that is in the sets of both the pending and the enable register. -/
def nextIn? (b : Bank) (bitmap : Bitmap σ) : Option (Option Nat) := do
  let pending ← b.snapshot bitmap .pending
  let enabled ← b.snapshot bitmap .enable
  return bitmap.first? (bitmap.inter pending enabled)

end Bank

end IrqSynth
