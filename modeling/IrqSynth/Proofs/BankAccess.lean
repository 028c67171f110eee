-- SUMMARY: Offsets, words and single-event accesses of a bank, each brought down to a read or a write of one word.
import IrqSynth.Bank

/-!
# Bus accesses of a bank

Which offsets name which words, and what the accesses to single events come down to: tests are bits
of the words, and every access that takes effect writes one word.

Main statements: `locate_eq_ok`, `test_eq` and `perform_cases`.
-/
namespace IrqSynth

namespace Bank

variable {b b' : Bank} {role : Role} {i w offset : Nat} {action : Action}

theorem create_eq_ok {c : Controller} :
    create c = .ok b ↔ ∃ l, c.layout = some l ∧ b = ⟨l, c.irq, .start l.logic⟩ := by
  unfold create Controller.requireLayout
  cases c.layout with
  | none => simp [Except.map]
  | some l => simp [Except.map, eq_comm]

/-! ## Memory map -/

theorem offset_eq (b : Bank) (role : Role) :
    b.offset role = role.index * (b.words * BusWord.bytes) := by
  cases role with
  | status => simp [Bank.offset, Role.index]
  | pending => simp [Bank.offset, Role.index]
  | enable => simp [Bank.offset, Role.index, Nat.mul_assoc]

/-- The offsets that are located are those of the words of the registers. -/
theorem locate_eq_ok :
    b.locate offset = .ok (role, w) ↔
      w < b.words ∧ offset = b.offset role + w * BusWord.bytes := by
  have hbytes : BusWord.bytes = 4 := rfl
  unfold locate size
  simp only [offset_eq, Role.index, hbytes]
  cases role <;> grind

theorem locate_offset (role : Role) (hw : w < b.words) :
    b.locate (b.offset role + w * BusWord.bytes) = .ok (role, w) :=
  locate_eq_ok.2 ⟨hw, rfl⟩

/-- An access by offset succeeds exactly at the offset of a word. -/
theorem map_locate_eq_ok {α : Type} {f : Role × Nat → α} {r : α} :
    (b.locate offset).map f = .ok r ↔
      ∃ role w, w < b.words ∧ offset = b.offset role + w * BusWord.bytes ∧ r = f (role, w) := by
  cases h : b.locate offset with
  | error e =>
    constructor
    · intro hr
      cases hr
    · rintro ⟨role, w, hw, rfl, -⟩
      rw [locate_offset role hw] at h
      cases h
  | ok located =>
    obtain ⟨role, w⟩ := located
    obtain ⟨hw, rfl⟩ := locate_eq_ok.1 h
    constructor
    · intro hr
      exact ⟨role, w, hw, rfl, (Except.ok.inj hr).symm⟩
    · rintro ⟨role', w', hw', hoffset, rfl⟩
      have hsame := h.symm.trans (locate_eq_ok.2 ⟨hw', hoffset⟩)
      rw [Except.ok.inj hsame]
      rfl

/-- Different words have different offsets. -/
theorem offset_eq_iff {role' : Role} {w' : Nat} (hw : w < b.words) (hw' : w' < b.words) :
    b.offset role + w * BusWord.bytes = b.offset role' + w' * BusWord.bytes ↔
      role = role' ∧ w = w' := by
  constructor
  · intro heq
    have hlocate := locate_offset role hw
    rw [heq, locate_offset role' hw'] at hlocate
    obtain ⟨rfl, rfl⟩ := Prod.mk.inj (Except.ok.inj hlocate)
    exact ⟨rfl, rfl⟩
  · rintro ⟨rfl, rfl⟩
    rfl

theorem div_lt_words (hi : i < b.width) : i / BusWord.bits < b.words :=
  BusWord.div_lt_count hi

theorem position_of_lt (hi : i < b.width) :
    b.position i = .ok (i / BusWord.bits * BusWord.bytes, 1#64 <<< (i % BusWord.bits)) := by
  rw [position, if_neg (Nat.not_le.2 hi)]

theorem position_of_le (hi : b.width ≤ i) : b.position i = .error .invalidInput := by
  rw [position, if_pos hi]

theorem position_bind_of_le {α : Type} (hi : b.width ≤ i)
    (f : Nat × BusValue → Except ErrorCode α) : b.position i >>= f = .error .invalidInput := by
  rw [position_of_le hi]
  rfl

/-! ## Reading -/

theorem read_eq_bind (b : Bank) (offset : Nat) :
    b.read offset = b.locate offset >>= fun r => .ok (b.word r.1 r.2) := by
  rw [read]
  cases b.locate offset <;> rfl

theorem read_offset (role : Role) (hw : w < b.words) :
    b.read (b.offset role + w * BusWord.bytes) = .ok (b.word role w) := by
  rw [read, locate_offset role hw]
  rfl

theorem read_eq_ok {value : BusValue} :
    b.read offset = .ok value ↔
      ∃ role w, w < b.words ∧ offset = b.offset role + w * BusWord.bytes ∧ value = b.word role w :=
  map_locate_eq_ok

/-- The bit of an event in its word is the level of its register bit. -/
theorem getLsbD_word (hi : i < (b.layout.register role).width) :
    (b.word role (i / BusWord.bits)).getLsbD (i % BusWord.bits) = b.level role i := by
  have hsplit : i / BusWord.bits * BusWord.bits + i % BusWord.bits = i :=
    Nat.div_add_mod' i BusWord.bits
  have hlt : i % BusWord.bits < BusWord.bits := Nat.mod_lt i (by decide)
  rw [word, BusWord.getLsbD_pack, hsplit]
  simp [hlt, hi]

theorem and_mask_ne_zero (v : BusValue) {k : Nat} (hk : k < 64) :
    (decide (v &&& 1#64 <<< k ≠ 0)) = v.getLsbD k := by
  rw [← BitVec.twoPow_eq, BitVec.and_twoPow]
  cases v.getLsbD k with
  | false => simp
  | true =>
    have hne : BitVec.twoPow 64 k ≠ 0#64 := by
      intro hzero
      have hbit := congrArg (fun x : BitVec 64 => x.getLsbD k) hzero
      simp [hk] at hbit
    simpa using hne

/-- Testing an event reads the level of its bit. -/
theorem test_eq (hi : i < b.width) (hw : i < (b.layout.register role).width) :
    b.test role i = .ok (b.level role i) := by
  have hmod : i % BusWord.bits < 64 := by
    unfold BusWord.bits
    omega
  have htest : b.test role i =
      .ok (decide (b.word role (i / BusWord.bits) &&& 1#64 <<< (i % BusWord.bits) ≠ 0)) := by
    simp only [test, position_of_lt hi, bind, Except.bind, read_offset role (div_lt_words hi)]
    rfl
  rw [htest, and_mask_ne_zero _ hmod, getLsbD_word hw]

theorem test_of_le (hi : b.width ≤ i) (role : Role) : b.test role i = .error .invalidInput :=
  position_bind_of_le hi _

/-! ## Writing -/

theorem write_eq_bind (b : Bank) (offset : Nat) (value : BusValue) :
    b.write offset value = b.locate offset >>= fun r => .ok (b.writeWord r.1 r.2 value) := by
  rw [write]
  cases b.locate offset <;> rfl

theorem write_offset (role : Role) (hw : w < b.words) (value : BusValue) :
    b.write (b.offset role + w * BusWord.bytes) value = .ok (b.writeWord role w value) := by
  rw [write, locate_offset role hw]
  rfl

theorem write_eq_ok {value : BusValue} :
    b.write offset value = .ok b' ↔
      ∃ role w, w < b.words ∧ offset = b.offset role + w * BusWord.bytes ∧
        b' = b.writeWord role w value :=
  map_locate_eq_ok

theorem enable_of_lt (hi : i < b.width) :
    b.enable i = .ok (b.writeWord .enable (i / BusWord.bits)
      (b.word .enable (i / BusWord.bits) ||| 1#64 <<< (i % BusWord.bits))) := by
  simp only [enable, position_of_lt hi, bind, Except.bind, read_offset .enable (div_lt_words hi),
    write_offset .enable (div_lt_words hi)]

theorem disable_of_lt (hi : i < b.width) :
    b.disable i = .ok (b.writeWord .enable (i / BusWord.bits)
      (b.word .enable (i / BusWord.bits) &&& ~~~(1#64 <<< (i % BusWord.bits)))) := by
  simp only [disable, position_of_lt hi, bind, Except.bind, read_offset .enable (div_lt_words hi),
    write_offset .enable (div_lt_words hi)]

theorem acknowledge_of_lt (hi : i < b.width) :
    b.acknowledge i =
      .ok (b.writeWord .pending (i / BusWord.bits) (1#64 <<< (i % BusWord.bits))) := by
  simp only [acknowledge, position_of_lt hi, bind, Except.bind,
    write_offset .pending (div_lt_words hi)]

theorem enable_of_le (hi : b.width ≤ i) : b.enable i = .error .invalidInput :=
  position_bind_of_le hi _

theorem disable_of_le (hi : b.width ≤ i) : b.disable i = .error .invalidInput :=
  position_bind_of_le hi _

theorem acknowledge_of_le (hi : b.width ≤ i) : b.acknowledge i = .error .invalidInput :=
  position_bind_of_le hi _

/-- The action writes `value` to word `w` of a register. -/
inductive Writes (b : Bank) : Action → Role → Nat → BusValue → Prop where
  | write (role : Role) (w : Nat) (value : BusValue) (hw : w < b.words) :
    Writes b (.write (b.offset role + w * BusWord.bytes) value) role w value
  | enable (i : Nat) (hi : i < b.width) :
    Writes b (.enable i) .enable (i / BusWord.bits)
      (b.word .enable (i / BusWord.bits) ||| 1#64 <<< (i % BusWord.bits))
  | disable (i : Nat) (hi : i < b.width) :
    Writes b (.disable i) .enable (i / BusWord.bits)
      (b.word .enable (i / BusWord.bits) &&& ~~~(1#64 <<< (i % BusWord.bits)))
  | acknowledge (i : Nat) (hi : i < b.width) :
    Writes b (.acknowledge i) .pending (i / BusWord.bits) (1#64 <<< (i % BusWord.bits))

theorem perform_read_eq_bind (b : Bank) (offset : Nat) :
    b.perform (.read offset) = b.read offset >>= fun _ => .ok b := by
  rw [perform]
  cases b.read offset <;> rfl

/-- An action that is not refused acts on the simulation, reads, or writes one word. -/
theorem perform_cases (h : b.perform action = .ok b') :
    (∃ a, action = .drive a ∧ b' = { b with sim := b.sim.act a }) ∨
      (∃ offset, action = .read offset ∧ b' = b) ∨
      ∃ role w value, b.Writes action role w value ∧ b' = b.writeWord role w value := by
  cases action with
  | drive a => exact .inl ⟨a, rfl, (Except.ok.inj h).symm⟩
  | read offset =>
    simp only [perform] at h
    cases hread : b.read offset with
    | error e =>
      rw [hread] at h
      cases h
    | ok v =>
      rw [hread] at h
      exact .inr (.inl ⟨offset, rfl, (Except.ok.inj h).symm⟩)
  | write offset value =>
    obtain ⟨role, w, hw, rfl, rfl⟩ := write_eq_ok.1 h
    exact .inr (.inr ⟨role, w, value, .write role w value hw, rfl⟩)
  | enable i =>
    rcases Nat.lt_or_ge i b.width with hi | hi
    · rw [perform, enable_of_lt hi] at h
      exact .inr (.inr ⟨_, _, _, .enable i hi, (Except.ok.inj h).symm⟩)
    · cases (enable_of_le hi).symm.trans h
  | disable i =>
    rcases Nat.lt_or_ge i b.width with hi | hi
    · rw [perform, disable_of_lt hi] at h
      exact .inr (.inr ⟨_, _, _, .disable i hi, (Except.ok.inj h).symm⟩)
    · cases (disable_of_le hi).symm.trans h
  | acknowledge i =>
    rcases Nat.lt_or_ge i b.width with hi | hi
    · rw [perform, acknowledge_of_lt hi] at h
      exact .inr (.inr ⟨_, _, _, .acknowledge i hi, (Except.ok.inj h).symm⟩)
    · cases (acknowledge_of_le hi).symm.trans h

theorem act_of_ok (h : b.perform action = .ok b') : b.act action = b' := by
  rw [act, h]

/-- An action leaves the bank alone, acts on the simulation, or writes one word. -/
theorem act_cases (b : Bank) (action : Action) :
    b.act action = b ∨
      (∃ a, action = .drive a ∧ b.act action = { b with sim := b.sim.act a }) ∨
      ∃ role w value, b.Writes action role w value ∧ b.act action = b.writeWord role w value := by
  cases hperform : b.perform action with
  | error e => exact .inl (by rw [act, hperform])
  | ok after =>
    rw [act_of_ok hperform]
    rcases perform_cases hperform with ⟨a, rfl, rfl⟩ | ⟨offset, rfl, rfl⟩ | hwrites
    · exact .inr (.inl ⟨a, rfl, rfl⟩)
    · exact .inl rfl
    · exact .inr (.inr hwrites)

end Bank

end IrqSynth
