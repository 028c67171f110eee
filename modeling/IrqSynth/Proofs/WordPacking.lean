-- SUMMARY: Packing and unpacking of registers are inverse to each other.
import IrqSynth.Proofs.CheckedBank

/-!
# Packing and unpacking

Packing a register into words and unpacking the words undo each other, for registers of every width:
the last word may be partly filled, and a bus value may have bits beyond a word.

Main statements: `pack_bitOf` (packing what was unpacked), `store_pack` and `foldl_store_pack` (writing
packed words back) and `packed_words_restore_bits`.
-/
namespace IrqSynth

namespace BusWord

variable {width word i p : Nat} {bit held : Nat → Bool} {value : BusValue}

/-! ## One word -/

theorem bitOf_add (hp : p < bits) : bitOf value word (word * bits + p) = some (value.getLsbD p) := by
  have hdiv : (word * bits + p) / bits = word := by
    unfold bits at hp ⊢
    omega
  have hmod : (word * bits + p) % bits = p := by
    rw [Nat.mul_add_mod', Nat.mod_eq_of_lt hp]
  rw [bitOf, if_pos hdiv, hmod]

/-- Packing what was unpacked keeps the positions of the word that lie in the register. -/
theorem pack_bitOf (value : BusValue) (word width p : Nat) :
    (pack word width fun k => bitOf value word k = some true).getLsbD p =
      (decide (p < bits ∧ word * bits + p < width) && value.getLsbD p) := by
  rw [getLsbD_pack, Bool.decide_and]
  by_cases hp : p < bits
  · rw [bitOf_add hp]
    simp
  · simp [hp]

/-- Beyond the last word of a register there is nothing to pack. -/
theorem pack_of_le (h : count width ≤ word) : pack word width bit = 0 := by
  apply BitVec.eq_of_getLsbD_eq
  intro p _
  have hwidth : width ≤ word * bits := Nat.not_lt.1 (mt lt_count_iff.2 (Nat.not_lt.2 h))
  have hp : ¬word * bits + p < width := by omega
  rw [getLsbD_pack, decide_eq_false hp, Bool.and_false, Bool.false_and]
  exact BitVec.getLsbD_zero.symm

/-! ## All words of a register -/

/-- The bits of a register after `value` is written to its word `word`. Outside that word they are
kept. -/
def store (value : BusValue) (word : Nat) (held : Nat → Bool) (i : Nat) : Bool :=
  (bitOf value word i).getD (held i)

theorem store_pack (hi : i < width) :
    store (pack word width bit) word held i = if i / bits = word then bit i else held i := by
  rw [store, bitOf_pack bit hi]
  split <;> rfl

/-- Writing packed words copies the bits of these words and no others. -/
theorem foldl_store_pack (words : List Nat) (held : Nat → Bool) (hi : i < width) :
    words.foldl (fun held w => store (pack w width bit) w held) held i =
      if i / bits ∈ words then bit i else held i := by
  induction words generalizing held with
  | nil => rfl
  | cons w rest ih =>
    rw [List.foldl_cons, ih, store_pack hi]
    grind

end BusWord

open BusWord

/-- What a write to a storage register presents on its write lines is the word stored into its bits. -/
theorem Bank.lineLevel_storage {b : Bank} {role : Role}
    (hkind : (b.layout.register role).kind = .storage) (w : Nat) (value : BusValue) :
    b.lineLevel role w value = store value w (b.level role) := by
  funext i
  simp [Bank.lineLevel, store, hkind]

/-! ## Main result -/

/-- Packing and unpacking words are inverse. A packed word gives back the bits of the register that
lie in it, and no others; packing what was unpacked restricts a value to the positions of the word
that lie in the register. Packing, step by step, never asks for a bit at or beyond the width, and gives
0 for every word beyond the last. Every bit lies in exactly one of the words, and every word has a bit.
So writing back all words that were read, in any order, gives the register the bits that were read,
whatever it held; and a word read from a storage register of a bank and written back presents on every
write line the level that the bit has. -/
theorem packed_words_restore_bits {word : Nat} (hword : word * bits + (bits - 1) < Checked.limit)
    (width : Nat) (bit : Nat → Bool) (value : BusValue) :
    (∀ i < width, bitOf (pack word width bit) word i =
        if i / bits = word then some (bit i) else none) ∧
      (∀ p, (pack word width fun k => bitOf value word k = some true).getLsbD p =
        (decide (p < bits ∧ word * bits + p < width) && value.getLsbD p)) ∧
      (∀ answer : Nat → Option Bool, (∀ i < width, answer i = some (bit i)) →
        Checked.pack word width answer = some (pack word width bit)) ∧
      (count width ≤ word → pack word width bit = 0) ∧
      (∀ i < width, ∃! w, w < count width ∧ (bitOf value w i).isSome) ∧
      (∀ w < count width, ∃ i < width, (bitOf value w i).isSome) ∧
      (∀ held (words : List Nat), (∀ w < count width, w ∈ words) → ∀ i < width,
        words.foldl (fun held w => store (pack w width bit) w held) held i = bit i) ∧
      ∀ (b : Bank) role, (b.layout.register role).kind = .storage →
        ∀ w, ∀ i < (b.layout.register role).width,
          b.lineLevel role w (b.word role w) i = b.level role i := by
  refine ⟨?_, pack_bitOf value word width, ?_, pack_of_le, ?_, ?_, ?_, ?_⟩
  · intro i hi
    exact bitOf_pack bit hi
  · intro answer hanswer
    refine Checked.pack_eq hanswer ?_
    unfold bits at hword ⊢
    omega
  · intro i hi
    refine ⟨i / bits, ⟨div_lt_count hi, isSome_bitOf.2 rfl⟩, ?_⟩
    rintro w ⟨-, hw⟩
    exact (isSome_bitOf.1 hw).symm
  · intro w hw
    refine ⟨w * bits, lt_count_iff.1 hw, isSome_bitOf.2 ?_⟩
    exact Nat.mul_div_cancel w (by decide)
  · intro held words hwords i hi
    rw [foldl_store_pack words held hi, if_pos (hwords _ (div_lt_count hi))]
  · intro b role hkind w i hi
    have hstored : store (b.word role w) w (b.level role) i =
        if i / bits = w then b.level role i else b.level role i := store_pack hi
    rw [Bank.lineLevel_storage hkind, hstored, ite_self]

/-- The second and last word of a register of 40 bits has 8 positions. All 64 bits of the value are
high. -/
theorem second_word_of_forty_bits :
    let bit (i : Nat) : Bool := i = 3 ∨ i = 32 ∨ i = 39
    1 * bits + (bits - 1) < Checked.limit ∧
      bitOf (pack 1 40 bit) 1 39 = some true ∧ bitOf (pack 1 40 bit) 1 3 = none ∧
      (pack 1 40 fun k => bitOf (BitVec.allOnes 64) 1 k = some true).getLsbD 7 = true ∧
      (pack 1 40 fun k => bitOf (BitVec.allOnes 64) 1 k = some true).getLsbD 8 = false ∧
      Checked.pack 1 40 (fun i => if i < 40 then some (bit i) else none) = some 129#64 ∧
      ∀ i < 40, [1, 0, 1].foldl (fun held w => store (pack w 40 bit) w held) (fun _ => true) i =
        bit i := by
  intro bit
  have hword : 1 * bits + (bits - 1) < Checked.limit := by decide
  obtain ⟨hunpack, hpack, hsteps, -, -, -, hrestore, -⟩ :=
    packed_words_restore_bits hword 40 bit (BitVec.allOnes 64)
  refine ⟨hword, hunpack 39 (by decide), hunpack 3 (by decide), (hpack 7).trans (by decide),
    (hpack 8).trans (by decide), ?_, hrestore _ [1, 0, 1] (by decide)⟩
  rw [hsteps _ fun i hi => if_pos hi]
  decide +kernel

end IrqSynth
