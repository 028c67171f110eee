-- SUMMARY: Words, tests, sets and the interrupt line of a bank show the same bits.
import IrqSynth.Bitmap
import IrqSynth.Proofs.BankRun
import IrqSynth.Proofs.Exclusive
import Mathlib.Algebra.Group.Nat.Defs
import Mathlib.Order.Bounds.Defs

/-!
# Firmware views

A bank shows the same bits in four ways: in the words of its registers, in the tests of single
events, in the sets of all events, and, once the logic is at rest, through the interrupt line. They
agree whatever was forced on the nets of the simulation before.

Main statements: `next?_eq_some` (the least event), `Bitmap.Lawful.snapshot` (the set of a register),
`Hosts.run` and `Hosts.irq_iff` (the line), and `firmware_views_agree`.
-/
namespace IrqSynth

theorem BusWord.toNat_pack_lt (w width : Nat) (bit : Nat → Bool) :
    (pack w width bit).toNat < 2 ^ bits := by
  rw [pack, BitVec.toNat_setWidth]
  refine Nat.lt_of_le_of_lt (Nat.mod_le _ _) (Nat.lt_of_lt_of_eq (BitVec.isLt _) ?_)
  rw [List.length_map, List.length_range]

theorem zipIdx_map_range {α : Type} (f : Nat → α) (n : Nat) :
    ((List.range n).map f).zipIdx = (List.range n).map fun i => (f i, i) := by
  apply List.ext_getElem?
  intro i
  simp only [List.getElem?_zipIdx, List.getElem?_map]
  grind

/-! ## Words and tests -/

namespace Bank

variable {b : Bank} {role : Role} {i w : Nat}

theorem getLsbD_word_of_le {k : Nat}
    (hk : (b.layout.register role).width ≤ w * BusWord.bits + k) :
    (b.word role w).getLsbD k = false := by
  rw [word, BusWord.getLsbD_pack, decide_eq_false (Nat.not_lt.2 hk), Bool.and_false, Bool.false_and]

theorem mem_events {r : Role} :
    i ∈ b.events r ↔ i < (b.layout.register r).width ∧ b.level r i = true := by
  rw [events, List.mem_filter, List.mem_range]

/-! ## The least event -/

theorem next?_eq_some :
    b.next? = some i ↔
      (i ∈ b.events .pending ∧ i ∈ b.events .enable) ∧
        ∀ k < i, ¬(k ∈ b.events .pending ∧ k ∈ b.events .enable) := by
  have hfind : b.next? = (List.range (b.layout.register .pending).width).find? fun k =>
      decide (b.level .pending k = true ∧ (b.events .enable).contains k = true) :=
    List.find?_filter
  have hpending (k : Nat) := mem_events (b := b) (r := .pending) (i := k)
  rw [hfind, List.find?_range_eq_some]
  simp only [hpending, List.mem_range, List.contains_eq_mem, decide_eq_true_iff, Bool.not_eq_true',
    decide_eq_false_iff_not]
  grind

theorem next?_eq_none :
    b.next? = none ↔ ∀ k, ¬(k ∈ b.events .pending ∧ k ∈ b.events .enable) := by
  rw [next?, List.find?_eq_none]
  simp

end Bank

/-! ## Sets of events -/

namespace Bitmap

variable {σ : Type} {bitmap : Bitmap σ} {size n : Nat}

/-- Entering the levels of the first `n` numbers one after the other. -/
theorem Lawful.foldlM_set (h : bitmap.Lawful size) (level : Nat → Bool) (hn : n ≤ size) :
    ∃ set, (List.range n).foldlM (fun set i => bitmap.set set i (level i)) bitmap.empty = some set ∧
      ∀ k < size, bitmap.get set k = (decide (k < n) && level k) := by
  induction n with
  | zero => exact ⟨bitmap.empty, rfl, fun k hk => by simp [h.get_empty k hk]⟩
  | succ n ih =>
    obtain ⟨set, hset, hget⟩ := ih (Nat.le_of_succ_le hn)
    obtain ⟨after, hafter, hlast⟩ := h.set_some set (level n) n hn
    refine ⟨after, ?_, ?_⟩
    · rw [List.range_succ, List.foldlM_append, hset]
      simpa using hafter
    · intro k hk
      rw [hlast k hk, hget k hk]
      by_cases hkn : k = n
      · simp [hkn]
      · have hlt : k < n + 1 ↔ k < n := by omega
        simp [hkn, hlt]

/-- The set of a register exists and has the events whose bit is 1. -/
theorem Lawful.snapshot (h : bitmap.Lawful size) (b : Bank) (role : Role)
    (hwidth : (b.layout.register role).width ≤ size) :
    ∃ set, b.snapshot bitmap role = some set ∧
      ∀ i < size, bitmap.get set i = decide (i ∈ b.events role) := by
  obtain ⟨set, hset, hget⟩ := h.foldlM_set (b.level role) hwidth
  refine ⟨set, ?_, ?_⟩
  · rw [Bank.snapshot, Register.bits, zipIdx_map_range, List.foldlM_map]
    exact hset
  · intro i hi
    rw [hget i hi, Bool.eq_iff_iff, decide_eq_true_iff, Bank.mem_events, Bool.and_eq_true,
      decide_eq_true_iff]

/-- The least event of the two sets is the next event. -/
theorem Lawful.nextIn? (h : bitmap.Lawful size) (b : Bank)
    (hwidth : ∀ role, (b.layout.register role).width ≤ size) :
    b.nextIn? bitmap = some b.next? := by
  obtain ⟨pending, hpending, hgetp⟩ := h.snapshot b .pending (hwidth .pending)
  obtain ⟨enabled, henabled, hgete⟩ := h.snapshot b .enable (hwidth .enable)
  rw [Bank.nextIn?, hpending, henabled]
  refine congrArg some (Option.ext fun i => ?_)
  have hmem (k : Nat) (hk : k < size) : bitmap.get (bitmap.inter pending enabled) k =
      decide (k ∈ b.events .pending ∧ k ∈ b.events .enable) := by
    rw [h.get_inter _ _ k hk, hgetp k hk, hgete k hk, Bool.decide_and]
  have hlt (hi : i ∈ b.events .pending) : i < size :=
    Nat.lt_of_lt_of_le (Bank.mem_events.1 hi).1 (hwidth .pending)
  rw [h.first?_eq_some, Bank.next?_eq_some]
  constructor
  · rintro ⟨hi, hget, hleast⟩
    refine ⟨of_decide_eq_true ((hmem i hi).symm.trans hget), ?_⟩
    intro k hk
    exact of_decide_eq_false ((hmem k (Nat.lt_trans hk hi)).symm.trans (hleast k hk))
  · rintro ⟨hi, hleast⟩
    have hsize := hlt hi.1
    refine ⟨hsize, (hmem i hsize).trans (decide_eq_true hi), ?_⟩
    intro k hk
    exact (hmem k (Nat.lt_trans hk hsize)).trans (decide_eq_false (hleast k hk))

end Bitmap

/-! ## The interrupt line -/

namespace Bank

variable {b : Bank} {action : Action}

/-- The action is not refused and ends with a settling, as all do but reads and forced levels. -/
def settles (b : Bank) (action : Action) : Bool :=
  match action with
  | .drive (.set _ _) => false
  | .read _ => false
  | action => (b.perform action).isOk

theorem settles_cases (h : b.settles action = true) :
    action = .drive .settle ∨ action = .drive .tick ∨
      ∃ role w value, b.act action = b.writeWord role w value := by
  cases hperform : b.perform action with
  | error e =>
    have hrefused : b.settles action = false := by
      unfold settles
      split
      · rfl
      · rfl
      · rw [hperform]
        rfl
    rw [hrefused] at h
    cases h
  | ok after =>
    rcases perform_cases hperform with ⟨a, rfl, -⟩ | ⟨offset, rfl, -⟩ | ⟨role, w, value, -, hafter⟩
    · cases a with
      | set x level => cases h
      | settle => exact .inl rfl
      | tick => exact .inr (.inl rfl)
    · cases h
    · exact .inr (.inr ⟨role, w, value, (act_of_ok hperform).trans hafter⟩)

end Bank

namespace Placement

variable {p : Placement} {b : Bank} {sim : Simulator} {role : Role} {action : Bank.Action}
  {actions : List Bank.Action}

/-- The bank simulates the logic of the layout. Its nets may carry anything. -/
structure Hosts (p : Placement) (b : Bank) : Prop where
  layout : b.layout = p.layout
  irqLine : b.irqLine = p.irq
  fragment : b.sim.fragment = p.layout.logic

theorem hosts_start (p : Placement) : p.Hosts ⟨p.layout, p.irq, .start p.layout.logic⟩ :=
  ⟨rfl, rfl, rfl⟩

/-- The bank of a finalized controller starts out with the logic of a placement of its sources. -/
theorem exists_create {d : Design} {m : Nat} {c : Controller} (h : d.WellFormed)
    (hc : d.controllers[m]? = some c) (hb : Bank.create c = .ok b) :
    ∃ p : Placement, p.sources = c.roster.sources ∧
      b = ⟨p.layout, p.irq, .start p.layout.logic⟩ := by
  obtain ⟨l, hl, rfl⟩ := Bank.create_eq_ok.1 hb
  obtain ⟨p, hsources, hirq, rfl⟩ := h.exists_placement hc hl
  exact ⟨p, hsources, by rw [hirq]⟩

theorem Hosts.width (h : p.Hosts b) (role : Role) :
    (b.layout.register role).width = p.sources.length := by
  rw [h.layout, width_register]

theorem Hosts.writeWord (h : p.Hosts b) (role : Role) (w : Nat) (value : BusValue) :
    p.Hosts (b.writeWord role w value) := by
  refine ⟨h.layout, h.irqLine, ?_⟩
  rw [sim_writeWord h.layout, Simulator.fragment_settle, Simulator.fragment_run]
  exact h.fragment

theorem Hosts.act (h : p.Hosts b) (action : Bank.Action) : p.Hosts (b.act action) := by
  rcases b.act_cases action with hact | ⟨a, rfl, hact⟩ | ⟨role, w, value, -, hact⟩
  · rwa [hact]
  · rw [hact]
    exact ⟨h.layout, h.irqLine, (Simulator.fragment_act b.sim a).trans h.fragment⟩
  · rw [hact]
    exact h.writeWord role w value

theorem Hosts.run (h : p.Hosts b) (actions : List Bank.Action) : p.Hosts (b.run actions) := by
  induction actions generalizing b with
  | nil => exact h
  | cons action rest ih => exact ih (h.act action)

/-! ## The logic at rest -/

theorem solves_settle (hfragment : sim.fragment = p.layout.logic) :
    p.layout.logic.Solves sim.settle.1.levels := by
  rw [Simulator.levels_settle, hfragment]
  exact (p.settle_spec _).2.1

theorem Hosts.solves_writeWord (h : p.Hosts b) (role : Role) (w : Nat) (value : BusValue) :
    p.layout.logic.Solves (b.writeWord role w value).sim.levels := by
  rw [sim_writeWord h.layout]
  exact solves_settle ((Simulator.fragment_run _ _).trans h.fragment)

theorem Hosts.solves_act (h : p.Hosts b) (hsettles : b.settles action = true) :
    p.layout.logic.Solves (b.act action).sim.levels := by
  rcases Bank.settles_cases hsettles with rfl | rfl | ⟨role, w, value, hact⟩
  · exact solves_settle h.fragment
  · exact solves_settle h.fragment
  · rw [hact]
    exact h.solves_writeWord role w value

/-- With the logic at rest the interrupt line is high while there is a next event. -/
theorem Hosts.irq_iff (h : p.Hosts b) (hrest : p.layout.logic.Solves b.sim.levels) :
    b.irq = true ↔ b.next? ≠ none := by
  have hlevel (role : Role) (i : Nat) :
      b.sim.levels.read ((p.layout.register role).bit i).id = b.level role i := by
    rw [Bank.level, h.layout, Simulator.read]
  have hirq : b.irq = true ↔
      ∃ i < p.sources.length, b.level .pending i = true ∧ b.level .enable i = true := by
    rw [Bank.irq, h.irqLine, Simulator.read, read_irq hrest, List.any_eq_true]
    simp only [List.mem_range, Bool.and_eq_true, ← hlevel, Layout.register]
  rw [hirq, ne_eq, Bank.next?_eq_none, not_forall]
  refine exists_congr fun i => ?_
  rw [not_not, Bank.mem_events, Bank.mem_events, h.width, h.width]
  constructor
  · rintro ⟨hi, hpending, henable⟩
    exact ⟨⟨hi, hpending⟩, hi, henable⟩
  · rintro ⟨⟨hi, hpending⟩, -, henable⟩
    exact ⟨hi, hpending, henable⟩

end Placement

/-! ## Agreement -/

/-- However a bank is used, and whatever is forced on the nets of its simulation: the tests of single
events, the sets of all events and the words of the registers agree, words have no bit beyond the
events, and the next event is the least one that is pending and enabled. After an action that settles
the logic the interrupt line is high exactly when there is a next event. -/
theorem firmware_views_agree {commands : List Command} {m : Nat} {c : Controller} {b : Bank}
    {actions : List Bank.Action} {σ : Type} {bitmap : Bitmap σ}
    (hc : (Design.empty.run commands).2.controllers[m]? = some c) (hb : Bank.create c = .ok b)
    (hbitmap : bitmap.Lawful Controller.maxSources) :
    let after := b.run actions
    (∀ role, ∀ i < c.roster.size, ∃ word : BusValue,
        after.read (after.offset role + i / BusWord.bits * BusWord.bytes) = .ok word ∧
          after.test role i = .ok (word.getLsbD (i % BusWord.bits)) ∧
          (i ∈ after.events role ↔ word.getLsbD (i % BusWord.bits) = true)) ∧
      (∀ role, ∃ set, after.snapshot bitmap role = some set ∧
        ∀ i < Controller.maxSources, bitmap.get set i = decide (i ∈ after.events role)) ∧
      (∀ offset word, after.read offset = .ok word → word.toNat < 2 ^ BusWord.bits ∧
        ∃ role, ∃ w < after.words, offset = after.offset role + w * BusWord.bytes ∧
          ∀ k, c.roster.size ≤ w * BusWord.bits + k → word.getLsbD k = false) ∧
      after.nextIn? bitmap = some after.next? ∧
      (∀ i, after.next? = some i ↔
        IsLeast {k | k ∈ after.events .pending ∧ k ∈ after.events .enable} i) ∧
      (after.next? = none ↔ ∀ k, ¬(k ∈ after.events .pending ∧ k ∈ after.events .enable)) ∧
      ((actions = [] ∨
          ∃ before last, actions = before ++ [last] ∧ (b.run before).settles last = true) →
        (after.irq = true ↔ after.next? ≠ none)) := by
  intro after
  obtain ⟨l, hl, rfl⟩ := Bank.create_eq_ok.1 hb
  obtain ⟨p, hsources, hirq, rfl⟩ := (Design.wellFormed_run commands).exists_placement hc hl
  have hstart : p.Hosts ⟨p.layout, c.irq, .start p.layout.logic⟩ := hirq ▸ p.hosts_start
  have hafter : p.Hosts after := hstart.run actions
  have hsize : c.roster.size = p.sources.length := by rw [Roster.size, hsources]
  have hwidth (role : Role) : (after.layout.register role).width = c.roster.size :=
    (hafter.width role).trans hsize.symm
  have hroom (role : Role) : (after.layout.register role).width ≤ Controller.maxSources := by
    rw [hwidth]
    exact ((Design.exclusive_run commands).orderly m c hc).capacity
  refine ⟨?_, ?_, ?_, hbitmap.nextIn? after hroom, ?_, Bank.next?_eq_none, ?_⟩
  · intro role i hi
    have hbit : i < (after.layout.register role).width := Nat.lt_of_lt_of_eq hi (hwidth role).symm
    have hevent : i < after.width := Nat.lt_of_lt_of_eq hi (hwidth .status).symm
    refine ⟨_, Bank.read_offset role (Bank.div_lt_words hevent), ?_, ?_⟩
    · rw [Bank.getLsbD_word hbit, Bank.test_eq hevent hbit]
    · rw [Bank.getLsbD_word hbit, Bank.mem_events, and_iff_right hbit]
  · intro role
    exact hbitmap.snapshot after role (hroom role)
  · intro offset word hword
    obtain ⟨role, w, hw, hoffset, rfl⟩ := Bank.read_eq_ok.1 hword
    refine ⟨BusWord.toNat_pack_lt _ _ _, role, w, hw, hoffset, ?_⟩
    intro k hk
    exact Bank.getLsbD_word_of_le (Nat.le_trans (Nat.le_of_eq (hwidth role)) hk)
  · intro i
    rw [Bank.next?_eq_some]
    refine and_congr_right fun _ => ?_
    constructor
    · intro hleast k hk
      exact Nat.not_lt.1 fun hlt => hleast k hlt hk
    · intro hleast k hlt hk
      exact Nat.not_lt.2 (hleast hk) hlt
  · rintro (rfl | ⟨before, last, rfl, hsettles⟩)
    · exact hstart.irq_iff (Placement.solves_settle rfl)
    · have hrest := (hstart.run before).solves_act hsettles
      have hrun : after = (Bank.run ⟨p.layout, c.irq, .start p.layout.logic⟩ before).act last :=
        List.foldl_append
      rw [hrun] at hafter ⊢
      exact hafter.irq_iff hrest

/-- In the sample two events are enabled. The latch of the lower one is forced high, the trigger of
the other too, and the interrupt line low; after a settling the line is high and the lower one is
next. -/
theorem sample_views :
    let b : Bank :=
      ⟨Design.sampleLayout, Design.sampleController.irq, .start Design.sampleLayout.logic⟩
    let before : List Bank.Action :=
      [.write 8 6, .drive (.set 7 true), .drive (.set 10 true), .drive (.set 0 false)]
    let after := b.run (before ++ [.drive .settle])
    Bank.create Design.sampleController = .ok b ∧
      (Bitmap.bitVec Controller.maxSources).Lawful Controller.maxSources ∧
      (b.run before).settles (.drive .settle) = true ∧ (b.run before).irq = false ∧
      after.next? = some 1 ∧
      after.nextIn? (Bitmap.bitVec Controller.maxSources) = some (some 1) ∧
      after.irq = true := by
  intro b before after
  have hb : Bank.create Design.sampleController = .ok b :=
    Bank.create_eq_ok.2 ⟨_, Design.sample_layout, rfl⟩
  have hbitmap := Bitmap.lawful_bitVec Controller.maxSources
  have hnext : after.next? = some 1 := by decide +kernel
  obtain ⟨-, -, -, hnextIn, -, -, hirq⟩ :=
    @firmware_views_agree _ _ _ _ (before ++ [.drive .settle]) _ _ Design.sample_controller hb
      hbitmap
  refine ⟨hb, hbitmap, rfl, by decide +kernel, hnext, ?_, ?_⟩
  · exact hnextIn.trans (congrArg some hnext)
  · refine (hirq (.inr ⟨before, _, rfl, rfl⟩)).2 ?_
    rw [hnext]
    exact Option.some_ne_none 1

end IrqSynth
