-- SUMMARY: No access to a bank faults, and each equals its unchecked form.
import IrqSynth.Proofs.BankRun
import IrqSynth.Proofs.CheckedDesign
import IrqSynth.Proofs.FirmwareViews
import Mathlib.Algebra.Order.Floor.Div

/-!
# Accesses without faults

No access to the bank of a finalized controller faults, whatever was done to the bank before: offsets
stay far below the limit of machine words, words lie within their registers, and the events of a
register fit into a set.

Main statements: `pack_eq` and `present_eq` (one word), `read_eq` and `act_eq` (accesses), and
`no_operation_faults`.
-/
namespace IrqSynth

/-- The registers are equally wide, and no wider than the number of sources allows. -/
structure Bank.Sized (b : Bank) : Prop where
  width : ∀ role, (b.layout.register role).width = b.width
  room : b.width ≤ Controller.maxSources

namespace Checked

variable {b : Bank} {role : Role} {i w n first width address byte : Nat} {mask value : BusValue}
  {bit : Nat → Option Bool} {levels : Nat → Bool} {α β : Type}

/-! ## Steps in sequence -/

/-- If neither of two steps faults, nor does their sequence, which gives what the unchecked steps
give. -/
theorem run_bind {x : Access α} {r : Except ErrorCode α} {f : α → Access β}
    {g : α → Except ErrorCode β} (hx : x.run = some r)
    (hf : ∀ a, r = .ok a → (f a).run = some (g a)) : (x >>= f).run = some (r >>= g) := by
  rw [ExceptT.run_bind, hx]
  cases r with
  | error e => rfl
  | ok a => exact hf a rfl

theorem run_lift_bind {x : Option α} {a : α} (h : x = some a) (f : α → Access β) :
    ((liftM x : Access α) >>= f).run = (f a).run := by
  subst h
  rfl

theorem isSome_foldlM {f : β → α → Option β} {xs : List α}
    (hf : ∀ acc, ∀ x ∈ xs, (f acc x).isSome) (acc : β) : (xs.foldlM f acc).isSome := by
  induction xs generalizing acc with
  | nil => rfl
  | cons x rest ih =>
    obtain ⟨next, hnext⟩ := Option.isSome_iff_exists.1 (hf acc x List.mem_cons_self)
    rw [List.foldlM_cons, hnext]
    exact ih (fun acc y hy => hf acc y (List.mem_cons_of_mem x hy)) next

/-! ## Words -/

/-- Below 32 positions the mask is 1 at the position to be entered. -/
theorem packBit_eq (hbit : ∀ i < width, bit i = some (levels i)) (hfirst : first + 32 ≤ limit)
    (hn : n < 32) (value : BitVec 32) :
    packBit first width bit (value, 1#32 <<< n) n =
      some (if first + n < width ∧ levels (first + n) = true then value ||| 1#32 <<< n else value,
        1#32 <<< (n + 1)) := by
  have hindex : add first n = some (first + n) := if_pos (by omega)
  have hmask : shiftLeft (1#32 <<< n) 1 = some (1#32 <<< (n + 1)) := by
    rw [BitVec.shiftLeft_add]
    rfl
  simp only [packBit, hindex, hmask, Option.bind_eq_bind, Option.bind_some, Option.pure_def]
  by_cases hlt : first + n < width
  · rw [if_pos hlt, hbit _ hlt]
    simp [hlt]
  · simp [hlt]

/-- After `n` positions the lowest `n` bits are entered. -/
theorem foldlM_packBit (hbit : ∀ i < width, bit i = some (levels i)) (hfirst : first + 32 ≤ limit)
    (hn : n ≤ 32) :
    ∃ value : BitVec 32,
      (List.range n).foldlM (packBit first width bit) (0#32, 1#32) = some (value, 1#32 <<< n) ∧
      ∀ k, value.getLsbD k =
        (decide (k < n) && decide (first + k < width) && levels (first + k)) := by
  induction n with
  | zero => exact ⟨0#32, rfl, fun k => by simp⟩
  | succ n ih =>
    obtain ⟨value, hvalue, hget⟩ := ih (Nat.le_of_succ_le hn)
    -- The mask is a single 1, so entering a bit touches no other position.
    have hone (k : Nat) : (1#32 <<< n).getLsbD k = decide (n = k) := by
      rw [← BitVec.twoPow_eq, BitVec.getLsbD_twoPow, decide_eq_true (Nat.lt_of_succ_le hn),
        Bool.true_and]
    refine ⟨if first + n < width ∧ levels (first + n) = true then value ||| 1#32 <<< n else value,
      ?_, ?_⟩
    · rw [List.range_succ, List.foldlM_append, hvalue]
      simp only [Option.bind_eq_bind, Option.bind_some, List.foldlM_cons, List.foldlM_nil,
        packBit_eq hbit hfirst (Nat.lt_of_succ_le hn), Option.pure_def]
    · intro k
      split
      · rw [BitVec.getLsbD_or, hget, hone]
        grind
      · rw [hget]
        grind

/-- Positions past the end of the register are not asked for: `bit` need not answer there. -/
theorem pack_eq (hbit : ∀ i < width, bit i = some (levels i))
    (hroom : w * BusWord.bits + 32 ≤ limit) :
    pack w width bit = some (BusWord.pack w width levels) := by
  have hfirst : mul w BusWord.bits = some (w * BusWord.bits) := if_pos (by omega)
  obtain ⟨value, hvalue, hget⟩ := foldlM_packBit hbit hroom (Nat.le_refl BusWord.bits)
  have hsame : value.setWidth 64 = BusWord.pack w width levels := by
    apply BitVec.eq_of_getLsbD_eq
    intro k hk
    rw [BusWord.getLsbD_pack, BitVec.getLsbD_setWidth, hget, decide_eq_true hk, Bool.true_and]
  rw [pack, hfirst, Option.bind_eq_bind, Option.bind_some, hvalue, ← hsame]
  rfl

theorem bitOf_eq (value : BusValue) (w i : Nat) :
    bitOf value w i = some (BusWord.bitOf value w i) := by
  unfold bitOf BusWord.bitOf
  split
  · have hlt : i % BusWord.bits < 64 := by
      unfold BusWord.bits
      omega
    have hshift : shiftRight value (i % BusWord.bits) = some (value >>> (i % BusWord.bits)) :=
      if_pos hlt
    have hbit := Bank.and_mask_ne_zero (value >>> (i % BusWord.bits)) (k := 0) (by decide)
    rw [BitVec.getLsbD_ushiftRight, Nat.add_zero] at hbit
    rw [hshift, ← hbit]
    rfl
  · rfl

theorem level_eq (sim : Simulator) {r : Register} (hi : i < r.width) :
    level sim r i = some (sim.read (r.bit i).id) := by
  rw [level, Register.getElem?_bits hi]
  rfl

/-! ## Write lines -/

theorem presentBit_eq {sim : Simulator} (hi : i < (b.layout.register role).width)
    (hkept : sim.read ((b.layout.register role).bit i).id = b.level role i) :
    presentBit (b.layout.register role) w value sim ((b.layout.register role).written i, i) =
      some (sim.set ((b.layout.register role).written i).id (b.lineLevel role w value i)) := by
  simp only [presentBit, bitOf_eq, Option.bind_eq_bind, Option.bind_some, Bank.lineLevel]
  cases BusWord.bitOf value w i with
  | some bit => rfl
  | none =>
    by_cases hkind : (b.layout.register role).kind = .storage
    · simp [hkind, level_eq sim hi, hkept]
    · simp [hkind]

/-- No write line is a bit, so a level that is kept is still the one that the register held before. -/
theorem foldlM_presentBit (hn : n ≤ (b.layout.register role).width) :
    (List.range n).foldlM (fun sim i =>
        presentBit (b.layout.register role) w value sim ((b.layout.register role).written i, i))
        b.sim =
      some ((List.range n).foldl (fun sim i =>
        sim.set ((b.layout.register role).written i).id (b.lineLevel role w value i)) b.sim) := by
  induction n with
  | zero => rfl
  | succ n ih =>
    have hkept : ((List.range n).foldl (fun sim i =>
        sim.set ((b.layout.register role).written i).id (b.lineLevel role w value i)) b.sim).read
          ((b.layout.register role).bit n).id = b.level role n := by
      apply Simulator.read_foldl_set
      intro i hi
      simp only [Register.written, Register.bit]
      lia
    rw [List.range_succ, List.foldlM_append, List.foldl_append, ih (Nat.le_of_succ_le hn)]
    simp only [Option.bind_eq_bind, Option.bind_some, List.foldlM_cons, List.foldlM_nil,
      List.foldl_cons, List.foldl_nil, presentBit_eq hn hkept, Option.pure_def]

theorem present_eq (b : Bank) (role : Role) (w : Nat) (value : BusValue) :
    present b role w value = some (b.present role w value) := by
  rw [present, Register.writtenBits, zipIdx_map_range, List.foldlM_map]
  exact foldlM_presentBit (Nat.le_refl _)

/-! ## Memory map -/

section

variable (h : b.Sized)
include h

theorem words_le : b.words ≤ 32 := by
  have hroom : b.width ≤ 1024 := h.room
  unfold Bank.words BusWord.count BusWord.bits
  omega

theorem size_eq : size b = some b.size := by
  have hwords := words_le h
  have hinner : mul 3 b.words = some (3 * b.words) := if_pos (by unfold limit; omega)
  rw [size, hinner]
  exact if_pos (by unfold limit BusWord.bytes BusWord.bits; omega)

theorem offset_eq (role : Role) : offset b role = some (b.offset role) := by
  have hwords := words_le h
  cases role with
  | status => rfl
  | pending => exact if_pos (by unfold limit BusWord.bytes BusWord.bits; omega)
  | enable =>
    have hinner : mul 2 b.words = some (2 * b.words) := if_pos (by unfold limit; omega)
    rw [offset, hinner]
    exact if_pos (by unfold limit BusWord.bytes BusWord.bits; omega)

/-- A difference is taken only where the offset is known to be no less. -/
theorem locate_eq (address : Nat) : (locate b address).run = some (b.locate address) := by
  have hsub {m n : Nat} (h : ¬m < n) : sub m n = some (m - n) := if_pos (Nat.not_lt.1 h)
  unfold locate Bank.locate
  split
  · rfl
  · rw [run_lift_bind (offset_eq h .pending), run_lift_bind (offset_eq h .enable)]
    -- The cases are tried from the lowest register up, so each rules out the offsets before it.
    split
    · rfl
    · rename_i hpending
      split
      · rw [run_lift_bind (hsub hpending)]
        rfl
      · rename_i henable
        rw [run_lift_bind (size_eq h)]
        split
        · rw [run_lift_bind (hsub henable)]
          rfl
        · rfl

/-! ## Accesses -/

theorem read_eq (address : Nat) : (read b address).run = some (b.read address) := by
  rw [b.read_eq_bind]
  refine run_bind (locate_eq h address) ?_
  rintro ⟨role, w⟩ hlocate
  have hw : w < 32 := Nat.lt_of_lt_of_le (Bank.locate_eq_ok.1 hlocate).1 (words_le h)
  have hroom : w * BusWord.bits + 32 ≤ limit := by
    unfold limit BusWord.bits
    omega
  have hpack : pack w (b.layout.register role).width (level b.sim (b.layout.register role)) =
      some (b.word role w) := pack_eq (fun i hi => level_eq b.sim hi) hroom
  simp only [hpack]
  rfl

theorem write_eq (address : Nat) (value : BusValue) :
    (write b address value).run = some (b.write address value) := by
  rw [b.write_eq_bind]
  refine run_bind (locate_eq h address) ?_
  rintro ⟨role, w⟩ -
  exact run_lift_bind (present_eq b role w value) _

theorem position_eq (i : Nat) : (position b i).run = some (b.position i) := by
  unfold position Bank.position
  split
  · rfl
  · rename_i hi
    have hroom : b.width ≤ 1024 := h.room
    have hbyte : mul (i / BusWord.bits) BusWord.bytes = some (i / BusWord.bits * BusWord.bytes) :=
      if_pos (by unfold limit BusWord.bytes BusWord.bits; omega)
    have hmask : shiftLeft 1#64 (i % BusWord.bits) = some (1#64 <<< (i % BusWord.bits)) :=
      if_pos (by unfold BusWord.bits; omega)
    rw [run_lift_bind hbyte, run_lift_bind hmask]
    rfl

/-- The offset of the word of an event is a machine word. -/
theorem address_eq (role : Role) (hposition : b.position i = .ok (byte, mask)) :
    add (b.offset role) byte = some (b.offset role + byte) := by
  have hwords : b.words * BusWord.bytes ≤ 32 * 4 := Nat.mul_le_mul_right 4 (words_le h)
  have hoffset : b.offset role ≤ 2 * (b.words * BusWord.bytes) := by
    rw [Bank.offset_eq]
    exact Nat.mul_le_mul_right _ (by cases role <;> decide)
  have hbyte : byte < b.words * BusWord.bytes := by
    rcases Nat.lt_or_ge i b.width with hi | hi
    · rw [Bank.position_of_lt hi] at hposition
      obtain ⟨rfl, -⟩ := Prod.mk.inj (Except.ok.inj hposition)
      exact Nat.mul_lt_mul_of_pos_right (Bank.div_lt_words hi) (by decide)
    · rw [Bank.position_of_le hi] at hposition
      cases hposition
  exact if_pos (by unfold limit; omega)

theorem test_eq (role : Role) (i : Nat) : (test b role i).run = some (b.test role i) := by
  refine run_bind (position_eq h i) ?_
  rintro ⟨byte, mask⟩ hposition
  rw [run_lift_bind (offset_eq h role), run_lift_bind (address_eq h role hposition)]
  refine run_bind (read_eq h _) ?_
  intro value _
  rfl

theorem change_eq (i : Nat) (f : BusValue → BusValue → BusValue) :
    (change b i f).run = some (do
      let (byte, mask) ← b.position i
      let address := b.offset .enable + byte
      b.write address (f (← b.read address) mask)) := by
  refine run_bind (position_eq h i) ?_
  rintro ⟨byte, mask⟩ hposition
  rw [run_lift_bind (offset_eq h .enable), run_lift_bind (address_eq h .enable hposition)]
  exact run_bind (read_eq h _) fun value _ => write_eq h _ _

theorem enable_eq (i : Nat) : (enable b i).run = some (b.enable i) :=
  change_eq h i fun word mask => word ||| mask

theorem disable_eq (i : Nat) : (disable b i).run = some (b.disable i) :=
  change_eq h i fun word mask => word &&& ~~~mask

theorem acknowledge_eq (i : Nat) : (acknowledge b i).run = some (b.acknowledge i) := by
  refine run_bind (position_eq h i) ?_
  rintro ⟨byte, mask⟩ hposition
  rw [run_lift_bind (offset_eq h .pending), run_lift_bind (address_eq h .pending hposition)]
  exact write_eq h _ _

theorem act_eq (action : Bank.Action) : (act b action).run = some (b.perform action) := by
  cases action with
  | drive a => rfl
  | read address =>
    rw [b.perform_read_eq_bind]
    exact run_bind (read_eq h address) fun _ _ => rfl
  | write address value => exact write_eq h address value
  | enable i => exact enable_eq h i
  | disable i => exact disable_eq h i
  | acknowledge i => exact acknowledge_eq h i

/-! ## Sets of events -/

variable {σ : Type} {bitmap : Bitmap σ}
  (hset : ∀ set level, ∀ i < Controller.maxSources, (bitmap.set set i level).isSome)
include hset

theorem isSome_snapshot (role : Role) : (b.snapshot bitmap role).isSome := by
  apply isSome_foldlM
  rintro set ⟨bit, i⟩ hmem
  have hi : i < (b.layout.register role).bits.length := (List.mem_zipIdx' hmem).1
  rw [Register.bits, List.length_map, List.length_range, h.width] at hi
  exact hset _ _ i (Nat.lt_of_lt_of_le hi h.room)

theorem isSome_nextIn? : (b.nextIn? bitmap).isSome := by
  obtain ⟨pending, hpending⟩ := Option.isSome_iff_exists.1 (isSome_snapshot h hset .pending)
  obtain ⟨enabled, henabled⟩ := Option.isSome_iff_exists.1 (isSome_snapshot h hset .enable)
  rw [Bank.nextIn?, hpending, henabled]
  rfl

end

/-! ## All accesses -/

/-- Every access to the bank does what the unchecked one does, and an access to an event that the
bank has is not refused. -/
structure Faultless (b : Bank) : Prop where
  size : size b = some b.size
  offset : ∀ role, offset b role = some (b.offset role)
  read : ∀ address, (read b address).run = some (b.read address)
  test : ∀ role i, (test b role i).run = some (b.test role i)
  act : ∀ action, (act b action).run = some (b.perform action)
  snapshot : ∀ {σ : Type} {bitmap : Bitmap σ},
    (∀ set level, ∀ i < Controller.maxSources, (bitmap.set set i level).isSome) →
      (∀ role, (b.snapshot bitmap role).isSome) ∧ (b.nextIn? bitmap).isSome
  tested : ∀ role, ∀ i < b.width, ∃ level, b.test role i = .ok level
  performed : ∀ i < b.width, ∀ action ∈ [.enable i, .disable i, .acknowledge i],
    ∃ after, b.perform action = .ok after

theorem faultless (h : b.Sized) : Faultless b where
  size := size_eq h
  offset := offset_eq h
  read := read_eq h
  test := test_eq h
  act := act_eq h
  snapshot hset := ⟨isSome_snapshot h hset, isSome_nextIn? h hset⟩
  tested role i hi := ⟨_, Bank.test_eq hi (Nat.lt_of_lt_of_eq hi (h.width role).symm)⟩
  performed i hi action haction := by
    simp only [List.mem_cons, List.not_mem_nil, or_false] at haction
    rcases haction with rfl | rfl | rfl
    · exact ⟨_, Bank.enable_of_lt hi⟩
    · exact ⟨_, Bank.disable_of_lt hi⟩
    · exact ⟨_, Bank.acknowledge_of_lt hi⟩

end Checked

theorem Placement.Hosts.sized {p : Placement} {b : Bank} (h : p.Hosts b)
    (hroom : p.sources.length ≤ Controller.maxSources) : b.Sized where
  width role := (h.width role).trans (h.width .status).symm
  room := Nat.le_trans (Nat.le_of_eq (h.width .status)) hroom

/-- The bank has as many words for each register as it takes to hold a bit for every source. -/
theorem Placement.Hosts.words {p : Placement} {b : Bank} (h : p.Hosts b) :
    b.words = p.sources.length ⌈/⌉ BusWord.bits := by
  have hwidth : b.width = p.sources.length := h.width .status
  rw [Bank.words, hwidth, BusWord.count, Nat.ceilDiv_eq_add_pred_div]
  rfl

/-- No construction faults as long as machine words can count the bits of the registers that are
asked for. A finalized controller has one field name and one bit in each register for every source,
and its bank has as many words for each register as it takes to hold them; whatever is done to the
bank, no access to it faults. -/
theorem no_operation_faults {commands : List Command}
    (hoffsets : ∀ command ∈ commands, ∀ f ∈ Checked.fieldsOf command,
      f.offset + 1 < Checked.limit) :
    Checked.run .empty commands = some (Design.empty.run commands) ∧
      ∀ (m : Nat) (c : Controller) (l : Layout),
        (Design.empty.run commands).2.controllers[m]? = some c → c.layout = some l →
        c.roster.size ≤ Controller.maxSources ∧ l.names.length = c.roster.size ∧
          (∀ role, (l.register role).width = c.roster.size) ∧
          ∀ b, Bank.create c = .ok b → ∀ actions,
            (b.run actions).words = c.roster.size ⌈/⌉ BusWord.bits ∧
              Checked.Faultless (b.run actions) := by
  refine ⟨Checked.run_eq Design.exclusive_empty hoffsets, ?_⟩
  intro m c l hc hl
  obtain ⟨p, hsources, hirq, rfl⟩ := (Design.wellFormed_run commands).exists_placement hc hl
  have hsize : p.sources.length = c.roster.size := by rw [Roster.size, hsources]
  have hroom := ((Design.exclusive_run commands).orderly m c hc).capacity
  refine ⟨hroom, ?_, ?_, ?_⟩
  · rw [← hsize]
    exact List.length_mapIdx
  · intro role
    rw [Placement.width_register, hsize]
  · intro b hb actions
    obtain ⟨l, hl', rfl⟩ := Bank.create_eq_ok.1 hb
    obtain rfl := Option.some.inj (hl.symm.trans hl')
    have hstart : p.Hosts ⟨p.layout, c.irq, .start p.layout.logic⟩ := hirq ▸ p.hosts_start
    have hafter := hstart.run actions
    exact ⟨hsize ▸ hafter.words, Checked.faultless (hafter.sized (hsize ▸ hroom))⟩

/-- The sample with one more register, whose only field lies beyond its first word: nothing faults, nor
does any access after a write and a forced enable bit. -/
theorem sample_faultless :
    let commands := Design.sample ++ [.register .storage "scratch" "" [⟨"top", 40, ""⟩]]
    let b : Bank :=
      ⟨Design.sampleLayout, Design.sampleController.irq, .start Design.sampleLayout.logic⟩
    (∀ command ∈ commands, ∀ f ∈ Checked.fieldsOf command, f.offset + 1 < Checked.limit) ∧
      Checked.run .empty commands = some (Design.empty.run commands) ∧
      (Design.empty.run commands).2.controllers[0]? = some Design.sampleController ∧
      Bank.create Design.sampleController = .ok b ∧
      Checked.Faultless (b.run [.write 8 5, .drive (.set 29 true)]) := by
  intro commands b
  have hoffsets : ∀ command ∈ commands, ∀ f ∈ Checked.fieldsOf command,
      f.offset + 1 < Checked.limit := by decide
  have hc : (Design.empty.run commands).2.controllers[0]? = some Design.sampleController := by
    decide +kernel
  have hb : Bank.create Design.sampleController = .ok b :=
    Bank.create_eq_ok.2 ⟨_, Design.sample_layout, rfl⟩
  obtain ⟨hrun, hbank⟩ := no_operation_faults hoffsets
  obtain ⟨-, -, -, haccess⟩ := hbank 0 _ _ hc Design.sample_layout
  exact ⟨hoffsets, hrun, hc, hb, (haccess b hb _).2⟩

end IrqSynth
