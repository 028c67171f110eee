-- SUMMARY: Register words of 32 bits: packing, unpacking, and the bits that a word holds.
/-!
# Bus words

Registers are read and written in words of 32 bits: word `w` of a register covers bits `32 * w` to
`32 * w + 31`. A word travels in a bus value of 64 bits whose upper half is 0 when it is read and
ignored when it is written.

Main statements: `lt_count_iff` (the words of a register), `getLsbD_pack` and `bitOf_pack` (reading a
packed word back).
-/
namespace IrqSynth

/-- What a bus access carries. -/
abbrev BusValue := BitVec 64

namespace BusWord

/-- The number of bits in a word. -/
def bits : Nat :=
  32

/-- The number of bytes from one word to the next. -/
def bytes : Nat :=
  bits / 8

/-- The number of words that hold a register of the given width. -/
def count (width : Nat) : Nat :=
  (width + (bits - 1)) / bits

/-- Word `word` of a register whose bit `i` is `bit i`. Positions past the end of the register
are 0. -/
def pack (word width : Nat) (bit : Nat → Bool) : BusValue :=
  (BitVec.ofBoolListLE ((List.range bits).map fun p =>
    decide (word * bits + p < width) && bit (word * bits + p))).setWidth 64

/-- The level that a value written to word `word` asks of bit `index`: none if the bit lies in
another word. -/
def bitOf (value : BusValue) (word index : Nat) : Option Bool :=
  if index / bits = word then some (value.getLsbD (index % bits)) else none

-- ---------------------------------------------------------------------------
-- Words of a register
-- ---------------------------------------------------------------------------

/-- A register has the words whose first position lies in it. -/
theorem lt_count_iff {width w : Nat} : w < count width ↔ w * bits < width := by
  unfold count bits
  omega

theorem div_lt_count {width i : Nat} (hi : i < width) : i / bits < count width :=
  lt_count_iff.2 (Nat.lt_of_le_of_lt (Nat.div_mul_le_self i bits) hi)

theorem isSome_bitOf {value : BusValue} {word i : Nat} :
    (bitOf value word i).isSome ↔ i / bits = word := by
  unfold bitOf
  split <;> simp_all

-- ---------------------------------------------------------------------------
-- Packing and unpacking
-- ---------------------------------------------------------------------------

theorem getLsbD_pack (word width : Nat) (bit : Nat → Bool) (p : Nat) :
    (pack word width bit).getLsbD p =
      (decide (p < bits) && decide (word * bits + p < width) && bit (word * bits + p)) := by
  simp only [pack, BitVec.getLsbD_setWidth, BitVec.getLsbD_ofBoolListLE,
    List.getD_eq_getElem?_getD, List.getElem?_map]
  by_cases hp : p < bits
  · have wide : p < 64 := by simp only [bits] at hp; omega
    simp [hp, wide]
  · simp [hp]

/-- The bits of a packed word are the bits of the register. -/
theorem bitOf_pack {word width index : Nat} (bit : Nat → Bool) (h : index < width) :
    bitOf (pack word width bit) word index =
      if index / bits = word then some (bit index) else none := by
  simp only [bitOf]
  split
  · rename_i hw
    have split : word * bits + index % bits = index := by
      rw [← hw]
      exact Nat.div_add_mod' index bits
    have small : index % bits < bits := Nat.mod_lt index (by decide)
    simp [getLsbD_pack, split, small, h]
  · rfl

end BusWord

end IrqSynth
