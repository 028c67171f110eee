-- SUMMARY: Offsets, words and bits of a bank correspond one to one, and failed accesses in place change nothing.
import IrqSynth.InPlace
import IrqSynth.Proofs.CheckedBank
import Mathlib.Data.Set.Function

/-!
# The memory map

The words of the registers share out the multiples of four below the size of the bank: every such
offset is one word of one register, and every bit of a register lies at one place. Accesses elsewhere
are refused. The programs that change a bank in place find this out before they change anything.

Main statements: `Bank.bijOn_offset` (words and offsets), `Placement.Hosts.showsAt_iff` (bits and
places), `InPlace.on_perform` (a failure has no effect) and `memory_map_partitioned`.
-/
namespace IrqSynth

/-! ## Accesses in place -/

namespace InPlace

variable {α β : Type} {b : Bank} {r : Except ErrorCode α}

/-- How a bank is left by an access that gives a new bank or fails. -/
def outcome (b : Bank) : Except ErrorCode Bank → Except ErrorCode Unit × Bank
  | .ok after => (.ok (), after)
  | .error e => (.error e, b)

theorem on_bind_query {x : Access α} (hx : x.on b = (r, b)) {f : α → Access β}
    {g : α → Except ErrorCode β} (hf : ∀ a, (f a).on b = (g a, b)) :
    (x >>= f).on b = (r >>= g, b) := by
  rw [on_bind, hx]
  cases r with
  | error e => rfl
  | ok a => exact hf a

theorem on_bind_outcome {x : Access α} (hx : x.on b = (r, b)) {f : α → Access Unit}
    {g : α → Except ErrorCode Bank} (hf : ∀ a, (f a).on b = outcome b (g a)) :
    (x >>= f).on b = outcome b (r >>= g) := by
  rw [on_bind, hx]
  cases r with
  | error e => rfl
  | ok a => exact hf a

theorem on_locate (b : Bank) (offset : Nat) : (locate offset).on b = (b.locate offset, b) :=
  on_ofExcept b _

theorem on_read (b : Bank) (offset : Nat) : (read offset).on b = (b.read offset, b) := by
  rw [b.read_eq_bind]
  exact on_bind_query (on_locate b offset) fun _ => rfl

theorem on_position (b : Bank) (i : Nat) : (position i).on b = (b.position i, b) :=
  on_ofExcept b _

theorem on_test (b : Bank) (role : Role) (i : Nat) : (test role i).on b = (b.test role i, b) := by
  refine on_bind_query (on_position b i) fun place => ?_
  exact on_bind_query (on_read b _) fun _ => rfl

variable {role : Role} {w i n : Nat} {value : BusValue}

/-- A level that is kept is the one that the register held at first, if its bit is unchanged. -/
theorem on_present {sim : Simulator}
    (hkept : sim.read ((b.layout.register role).bit i).id = b.level role i) :
    (present role w value i).on { b with sim } = (.ok (),
      { b with
        sim := sim.set ((b.layout.register role).written i).id (b.lineLevel role w value i) }) := by
  rw [Bank.lineLevel, ← hkept]
  rfl

/-- The write lines are set one after the other. No line is a bit. -/
theorem on_forM_present (hn : n ≤ (b.layout.register role).width) :
    (forM (List.range n) (present role w value)).on b =
      (.ok (), { b with sim := (List.range n).foldl (fun sim i =>
        sim.set ((b.layout.register role).written i).id (b.lineLevel role w value i)) b.sim }) := by
  induction n with
  | zero => rfl
  | succ n ih =>
    have hkept : ((List.range n).foldl (fun sim i =>
        sim.set ((b.layout.register role).written i).id (b.lineLevel role w value i)) b.sim).read
          ((b.layout.register role).bit n).id = b.level role n := by
      apply Simulator.read_foldl_set
      intro i hi
      simp only [Register.written, Register.bit]
      lia
    simp only [List.range_succ, List.forM_append, List.forM_cons, on_bind,
      ih (Nat.le_of_succ_le hn), on_present hkept, List.foldl_append]
    rfl

theorem on_write (b : Bank) (offset : Nat) (value : BusValue) :
    (write offset value).on b = outcome b (b.write offset value) := by
  rw [b.write_eq_bind]
  refine on_bind_outcome (on_locate b offset) ?_
  intro place
  simp only [on_bind, on_get, on_forM_present (Nat.le_refl _)]
  rfl

theorem on_change (b : Bank) (i : Nat) (f : BusValue → BusValue → BusValue) :
    (change i f).on b = outcome b (do
      let (byte, mask) ← b.position i
      let offset := b.offset .enable + byte
      b.write offset (f (← b.read offset) mask)) := by
  refine on_bind_outcome (on_position b i) fun place => ?_
  exact on_bind_outcome (on_read b _) fun value => on_write b _ _

/-- A program that changes the bank in place gives what the access gives, and leaves the bank as it
was if it fails. -/
theorem on_perform (b : Bank) (action : Bank.Action) :
    (perform action).on b = outcome b (b.perform action) := by
  cases action with
  | drive action => rfl
  | read offset =>
    rw [b.perform_read_eq_bind]
    exact on_bind_outcome (on_read b offset) fun _ => rfl
  | write offset value => exact on_write b offset value
  | enable i => exact on_change b i fun word mask => word ||| mask
  | disable i => exact on_change b i fun word mask => word &&& ~~~mask
  | acknowledge i => exact on_bind_outcome (on_position b i) fun place => on_write b _ _

end InPlace

/-! ## Words and offsets -/

namespace Bank

variable {b : Bank} {offset : Nat}

theorem exists_word_iff :
    (∃ role w, w < b.words ∧ offset = b.offset role + w * BusWord.bytes) ↔
      4 ∣ offset ∧ offset < 12 * b.words := by
  have hbytes : BusWord.bytes = 4 := rfl
  simp only [offset_eq, hbytes]
  constructor
  · rintro ⟨role, w, hw, rfl⟩
    cases role <;> simp only [Role.index] <;> omega
  · rintro ⟨⟨q, rfl⟩, hlt⟩
    have hq : q < b.words ∨ b.words ≤ q ∧ q < 2 * b.words ∨ 2 * b.words ≤ q := by omega
    rcases hq with hq | ⟨hle, hq⟩ | hle
    · exact ⟨.status, q, hq, by simp only [Role.index]; omega⟩
    · exact ⟨.pending, q - b.words, by omega, by simp only [Role.index]; omega⟩
    · exact ⟨.enable, q - 2 * b.words, by omega, by simp only [Role.index]; omega⟩

theorem exists_map_locate_iff {α : Type} {f : Role × Nat → α} :
    (∃ r, (b.locate offset).map f = .ok r) ↔ 4 ∣ offset ∧ offset < 12 * b.words := by
  simp only [map_locate_eq_ok, ← exists_word_iff]
  constructor
  · rintro ⟨r, role, w, hw, hoffset, -⟩
    exact ⟨role, w, hw, hoffset⟩
  · rintro ⟨role, w, hw, hoffset⟩
    exact ⟨_, role, w, hw, hoffset, rfl⟩

theorem offset_add_inj {role role' : Role} {w w' : Nat} (hw : w < b.words) (hw' : w' < b.words)
    (h : b.offset role + 4 * w = b.offset role' + 4 * w') : role = role' ∧ w = w' := by
  have hbytes (w : Nat) : w * BusWord.bytes = 4 * w := Nat.mul_comm w 4
  exact (offset_eq_iff hw hw').1 (by rw [hbytes, hbytes, h])

/-- The words of the registers and the valid offsets correspond one to one. -/
theorem bijOn_offset (b : Bank) :
    Set.BijOn (fun place : Role × Nat => b.offset place.1 + 4 * place.2)
      {place | place.2 < b.words} {offset | 4 ∣ offset ∧ offset < 12 * b.words} := by
  have hbytes (w : Nat) : w * BusWord.bytes = 4 * w := Nat.mul_comm w 4
  refine ⟨?_, ?_, ?_⟩
  · rintro ⟨role, w⟩ hw
    exact exists_word_iff.1 ⟨role, w, hw, by rw [hbytes]⟩
  · rintro ⟨role, w⟩ hw ⟨role', w'⟩ hw' hsame
    obtain ⟨rfl, rfl⟩ := offset_add_inj hw hw' hsame
    rfl
  · rintro offset hoffset
    obtain ⟨role, w, hw, rfl⟩ := exists_word_iff.2 hoffset
    exact ⟨⟨role, w⟩, hw, by simp only [hbytes]⟩

/-- Different bits lie at different places. -/
theorem injOn_place (b : Bank) :
    Set.InjOn (fun bit : Role × Nat => (b.offset bit.1 + 4 * (bit.2 / 32), bit.2 % 32))
      {bit | bit.2 < b.width} := by
  rintro ⟨role, i⟩ hi ⟨role', k⟩ hk hsame
  obtain ⟨hoffset, hmod⟩ := Prod.mk.inj hsame
  obtain ⟨rfl, hdiv⟩ := offset_add_inj (div_lt_words hi) (div_lt_words hk) hoffset
  have hik : i = k := calc
    i = 32 * (i / 32) + i % 32 := (Nat.div_add_mod i 32).symm
    _ = 32 * (k / 32) + k % 32 := congrArg₂ (32 * · + ·) hdiv hmod
    _ = k := Nat.div_add_mod k 32
  rw [hik]

/-- The bank with other levels on its nets. -/
def withLevels (b : Bank) (levels : Levels) : Bank :=
  { b with sim := { b.sim with levels } }

theorem level_withLevels (levels : Levels) (role : Role) (i : Nat) :
    (b.withLevels levels).level role i = levels.read ((b.layout.register role).bit i).id :=
  rfl

/-- Bit `k` of the word at an offset is the level of bit `i` of a register, whatever the levels. -/
def ShowsAt (b : Bank) (role : Role) (i offset k : Nat) : Prop :=
  ∀ levels : Levels, ∃ word, (b.withLevels levels).read offset = .ok word ∧
    word.getLsbD k = levels.read ((b.layout.register role).bit i).id

/-- Accesses to an event succeed exactly if the bank has that event. -/
theorem exists_perform_iff {i : Nat} {action : Action}
    (haction : action ∈ [.enable i, .disable i, .acknowledge i]) :
    (∃ after, b.perform action = .ok after) ↔ i < b.width := by
  simp only [List.mem_cons, List.not_mem_nil, or_false] at haction
  rcases Nat.lt_or_ge i b.width with hi | hi
  · refine iff_of_true ?_ hi
    rcases haction with rfl | rfl | rfl
    · exact ⟨_, enable_of_lt hi⟩
    · exact ⟨_, disable_of_lt hi⟩
    · exact ⟨_, acknowledge_of_lt hi⟩
  · refine iff_of_false ?_ (Nat.not_lt.2 hi)
    rintro ⟨after, hafter⟩
    rcases haction with rfl | rfl | rfl
    · cases (enable_of_le hi).symm.trans hafter
    · cases (disable_of_le hi).symm.trans hafter
    · cases (acknowledge_of_le hi).symm.trans hafter

theorem exists_test_iff {role : Role} {i : Nat}
    (hwidth : (b.layout.register role).width = b.width) :
    (∃ level, b.test role i = .ok level) ↔ i < b.width := by
  rcases Nat.lt_or_ge i b.width with hi | hi
  · exact iff_of_true ⟨_, test_eq hi (Nat.lt_of_lt_of_eq hi hwidth.symm)⟩ hi
  · refine iff_of_false ?_ (Nat.not_lt.2 hi)
    rintro ⟨level, hlevel⟩
    cases (test_of_le hi role).symm.trans hlevel

end Bank

/-! ## Bits and places -/

/-- Every bit of a register shows at exactly one place. -/
theorem Placement.Hosts.showsAt_iff {p : Placement} {b : Bank} {role : Role} {i offset k : Nat}
    (h : p.Hosts b) (hi : i < p.sources.length) :
    b.ShowsAt role i offset k ↔ offset = b.offset role + 4 * (i / 32) ∧ k = i % 32 := by
  have hbytes (w : Nat) : w * BusWord.bytes = 4 * w := Nat.mul_comm w 4
  constructor
  · intro hshows
    -- With this bit alone high, a word that shows it has its only 1 there.
    obtain ⟨word, hread, hbit⟩ :=
      hshows (Levels.empty.set ((b.layout.register role).bit i).id true)
    obtain ⟨role', w, hw, hoffset, rfl⟩ := Bank.read_eq_ok.1 hread
    rw [Levels.read_set, if_pos rfl, Bank.word, BusWord.getLsbD_pack, Bank.level_withLevels] at hbit
    simp only [Bool.and_eq_true, decide_eq_true_eq] at hbit
    obtain ⟨⟨hk, hlt⟩, hlevel⟩ := hbit
    have hsame : ((b.layout.register role).bit i).id =
        ((b.layout.register role').bit (w * BusWord.bits + k)).id := by
      by_contra hne
      rw [Levels.read_set, if_neg hne, Levels.read_empty] at hlevel
      cases hlevel
    have hplace : w * BusWord.bits + k < p.sources.length := (h.width role').symm ▸ hlt
    rw [h.layout] at hsame
    have hnet := net?_injective (net?_bit role hi) (hsame ▸ net?_bit role' hplace)
    simp only [Net.line.injEq, Line.bit.injEq] at hnet
    obtain ⟨rfl, hik⟩ := hnet
    have hk : k < 32 := hk
    have hik : i = w * 32 + k := hik
    have hdiv : i / 32 = w := by omega
    have hmod : i % 32 = k := by omega
    rw [hdiv, hmod]
    exact ⟨hoffset.trans (congrArg (b.offset role + ·) (hbytes w)), rfl⟩
  · rintro ⟨rfl, rfl⟩ levels
    have hwidth : i < (b.layout.register role).width := Nat.lt_of_lt_of_eq hi (h.width role).symm
    have hevent : i < (b.withLevels levels).width := Nat.lt_of_lt_of_eq hi (h.width .status).symm
    have hread := Bank.read_offset role (Bank.div_lt_words hevent)
    rw [hbytes] at hread
    exact ⟨_, hread, Bank.getLsbD_word hwidth⟩

/-! ## Main result -/

/-- However a bank with `n` events is used, its memory map is laid out in three times as many words as
`n` bits need, register by register. Reads and writes succeed exactly at the offsets of words, which
correspond one to one to the words of the registers; every bit of a register shows at one place, and
different bits at different places; accesses to single events succeed exactly for the first `n`
numbers. Programs that change the bank in place agree with this: those that fail leave the bank as it
was, and reads and tests do so in any case. -/
theorem memory_map_partitioned {commands : List Command} {m : Nat} {c : Controller} {b : Bank}
    {actions : List Bank.Action} (hc : (Design.empty.run commands).2.controllers[m]? = some c)
    (hb : Bank.create c = .ok b) :
    let after := b.run actions
    let n := c.roster.size
    let words := n ⌈/⌉ 32
    (after.offset .status = 0 ∧ after.offset .pending = 4 * words ∧
        after.offset .enable = 8 * words ∧ after.size = 12 * words) ∧
      (∀ offset,
        ((∃ word, after.read offset = .ok word) ↔ 4 ∣ offset ∧ offset < 12 * words) ∧
          ∀ value, (∃ next, after.write offset value = .ok next) ↔
            4 ∣ offset ∧ offset < 12 * words) ∧
      Set.BijOn (fun place : Role × Nat => after.offset place.1 + 4 * place.2)
        {place | place.2 < words} {offset | 4 ∣ offset ∧ offset < 12 * words} ∧
      (∀ role, ∀ i < n, ∀ offset k, after.ShowsAt role i offset k ↔
        offset = after.offset role + 4 * (i / 32) ∧ k = i % 32) ∧
      Set.InjOn (fun bit : Role × Nat => (after.offset bit.1 + 4 * (bit.2 / 32), bit.2 % 32))
        {bit | bit.2 < n} ∧
      (∀ i, (∀ action ∈ [.enable i, .disable i, .acknowledge i],
          (∃ next, after.perform action = .ok next) ↔ i < n) ∧
        ∀ role, (∃ level, after.test role i = .ok level) ↔ i < n) ∧
      (∀ offset, (InPlace.read offset).on after = (after.read offset, after)) ∧
      (∀ role i, (InPlace.test role i).on after = (after.test role i, after)) ∧
      ∀ action,
        (∀ next, after.perform action = .ok next →
          (InPlace.perform action).on after = (.ok (), next)) ∧
        ∀ e, after.perform action = .error e →
          (InPlace.perform action).on after = (.error e, after) := by
  intro after n words
  obtain ⟨p, hsources, rfl⟩ := Placement.exists_create (Design.wellFormed_run commands) hc hb
  have hafter : p.Hosts after := p.hosts_start.run actions
  have hsize : p.sources.length = n := by rw [hsources]; rfl
  have hwords : after.words = words := hafter.words.trans (congrArg (· ⌈/⌉ 32) hsize)
  have hwidth : after.width = n := (hafter.width .status).trans hsize
  refine ⟨⟨rfl, ?_, ?_, ?_⟩, ?_, ?_, ?_, ?_, ?_, InPlace.on_read after, InPlace.on_test after, ?_⟩
  · rw [← hwords]
    exact Nat.mul_comm after.words 4
  · have henable : after.offset .enable = 2 * after.words * 4 := rfl
    omega
  · have hbytes : after.size = 3 * after.words * 4 := rfl
    omega
  · intro offset
    rw [← hwords]
    exact ⟨Bank.exists_map_locate_iff, fun value => Bank.exists_map_locate_iff⟩
  · rw [← hwords]
    exact after.bijOn_offset
  · intro role i hi offset k
    exact hafter.showsAt_iff (Nat.lt_of_lt_of_eq hi hsize.symm)
  · rw [← hwidth]
    exact after.injOn_place
  · intro i
    rw [← hwidth]
    refine ⟨fun action haction => Bank.exists_perform_iff haction, fun role => ?_⟩
    exact Bank.exists_test_iff ((hafter.width role).trans (hafter.width .status).symm)
  · intro action
    rw [InPlace.on_perform]
    refine ⟨?_, ?_⟩
    · intro next hnext
      rw [hnext]
      rfl
    · intro e he
      rw [he]
      rfl

/-- A bank with 33 events has two words for each register. The last bit of the enable register is bit 0
of the word at 20 and nowhere else; 24 is past the end, and event 33 does not exist. -/
theorem thirty_three_events_mapped :
    let commands : List Command := .controller :: List.replicate 33 (.source .level none none) ++
      (List.range 33).map (.attach 0) ++ [.finalize 0]
    ∃ c b, (Design.empty.run commands).2.controllers[0]? = some c ∧ Bank.create c = .ok b ∧
      let after := b.run [.write 20 1, .drive (.set 2 true)]
      (∃ word, after.read 20 = .ok word) ∧ (∀ value, ¬∃ next, after.write 24 value = .ok next) ∧
      (∀ offset k, after.ShowsAt .enable 32 offset k ↔ offset = 20 ∧ k = 0) ∧
      (∃ next, after.perform (.acknowledge 32) = .ok next) ∧
      ∃ e, (InPlace.perform (.acknowledge 33)).on after = (.error e, after) := by
  intro commands
  have hdesign : (Design.empty.run commands).2.controllers[0]?.any
      (fun c => c.isFinalized && c.roster.size == 33) = true := by decide +kernel
  obtain ⟨c, hc, hfacts⟩ := Option.any_eq_true _ _ |>.1 hdesign
  obtain ⟨hfinal, hsize⟩ := Bool.and_eq_true_iff.1 hfacts
  obtain ⟨l, hl⟩ := Option.isSome_iff_exists.1 hfinal
  rw [beq_iff_eq] at hsize
  have hb : Bank.create c = .ok ⟨l, c.irq, .start l.logic⟩ := Bank.create_eq_ok.2 ⟨l, hl, rfl⟩
  obtain ⟨⟨-, -, henable, -⟩, haccess, -, hshows, -, hevents, -, -, hplace⟩ :=
    @memory_map_partitioned _ _ _ _ [.write 20 1, .drive (.set 2 true)] hc hb
  have hwords : c.roster.size ⌈/⌉ 32 = 2 := by
    rw [hsize]
    rfl
  rw [hwords] at henable haccess
  refine ⟨c, _, hc, hb, ?_, ?_, ?_, ?_, ?_⟩
  · exact (haccess 20).1.2 (by decide)
  · exact fun value hnext => absurd (((haccess 24).2 value).1 hnext) (by decide)
  · intro offset k
    rw [hshows .enable 32 (by rw [hsize]; decide) offset k, henable]
  · exact ((hevents 32).1 (.acknowledge 32) (by simp)).2 (by rw [hsize]; decide)
  · generalize Bank.run _ _ = after at hevents hplace ⊢
    cases hperform : after.perform (.acknowledge 33) with
    | ok next =>
      have hlt := ((hevents 33).1 (.acknowledge 33) (by simp)).1 ⟨next, hperform⟩
      rw [hsize] at hlt
      exact absurd hlt (by decide)
    | error e => exact ⟨e, (hplace (.acknowledge 33)).2 e hperform⟩

end IrqSynth
