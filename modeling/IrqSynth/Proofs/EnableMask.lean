-- SUMMARY: The enabled events as the fold of the successful accesses of firmware.
import IrqSynth.Proofs.EventHistory
import Mathlib.Data.Finset.Basic
import Mathlib.Data.Finset.Range

/-!
# The enable mask

Which events are enabled is decided by what firmware asked for, and by nothing else: the mask of a
run is the fold of its accesses over the empty set.

Main statements: `Writes.mem_asked` (what one write asks for), `Masks.act` (one action) and
`enabled_events_eq_mask`.
-/
namespace IrqSynth

namespace Bank

/-! ## What firmware asks for -/

/-- The offset of the word of the enable register with event `i`. -/
def enableWord (b : Bank) (i : Nat) : Nat :=
  b.offset .enable + i / BusWord.bits * BusWord.bytes

/-- The events that an action asks to be enabled, if those before it were `on`. A write to a word of
the enable register decides the events of that word. -/
def asked (b : Bank) (on : Finset Nat) : Action → Finset Nat
  | .write offset value =>
    (on.filter fun i => offset ≠ b.enableWord i) ∪
      (Finset.range b.width).filter fun i =>
        offset = b.enableWord i ∧ value.getLsbD (i % BusWord.bits)
  | .enable i => insert i on
  | .disable i => on.erase i
  | .acknowledge _ => on
  | .read _ => on
  | .drive _ => on

/-- The events to be enabled after an action. A refused action asks for nothing. -/
def remask (b : Bank) (on : Finset Nat) (action : Action) : Finset Nat :=
  match b.perform action with
  | .error _ => on
  | .ok _ => b.asked on action

/-- The events to be enabled after a run. -/
def mask (b : Bank) (on : Finset Nat) : List Action → Finset Nat
  | [] => on
  | action :: rest => (b.act action).mask (b.remask on action) rest

variable {b b' : Bank} {on : Finset Nat} {action : Action} {role : Role} {i k w : Nat}
  {value : BusValue}

theorem eq_enableWord_iff (hw : w < b.words) (hi : i < b.width) :
    b.offset role + w * BusWord.bytes = b.enableWord i ↔
      role = .enable ∧ w = i / BusWord.bits :=
  offset_eq_iff hw (div_lt_words hi)

/-- In the word of event `i` the mask of event `k` covers the position of `i` if the two are the
same. -/
theorem getLsbD_mask (hdiv : i / BusWord.bits = k / BusWord.bits) :
    (1#64 <<< (k % BusWord.bits)).getLsbD (i % BusWord.bits) = decide (i = k) := by
  have hbits : BusWord.bits = 32 := rfl
  rw [hbits] at hdiv ⊢
  rw [← BitVec.twoPow_eq, BitVec.getLsbD_twoPow, Bool.eq_iff_iff, Bool.and_eq_true,
    decide_eq_true_iff, decide_eq_true_iff, decide_eq_true_iff]
  omega

/-- A write that reaches the enable register decides the events of its word. Any other leaves the
mask alone. -/
theorem Writes.mem_asked (h : b.Writes action role w value) (hi : i < b.width)
    (hwidth : i < (b.layout.register .enable).width)
    (hlevel : b.level .enable i = decide (i ∈ on)) :
    i ∈ b.asked on action ↔
      if role = .enable then (BusWord.bitOf value w i).getD (decide (i ∈ on)) = true
      else i ∈ on := by
  have hword := getLsbD_word (b := b) hwidth
  rw [hlevel] at hword
  cases h with
  | write role w value hw =>
    rw [asked, Finset.mem_union, Finset.mem_filter, Finset.mem_filter, Finset.mem_range, ne_eq,
      eq_enableWord_iff hw hi, BusWord.bitOf]
    by_cases hrole : role = .enable
    · by_cases hdiv : i / BusWord.bits = w
      · simp [hrole, hdiv, hi]
      · simp [hrole, hdiv, Ne.symm hdiv]
    · simp [hrole]
  | enable k hk =>
    rw [asked, Finset.mem_insert, if_pos rfl, BusWord.bitOf]
    by_cases hdiv : i / BusWord.bits = k / BusWord.bits
    · rw [if_pos hdiv, Option.getD_some, BitVec.getLsbD_or, getLsbD_mask hdiv, ← hdiv, hword]
      simp [or_comm]
    · have hne : i ≠ k := by
        rintro rfl
        exact hdiv rfl
      simp [hdiv, hne]
  | disable k hk =>
    rw [asked, Finset.mem_erase, if_pos rfl, BusWord.bitOf]
    by_cases hdiv : i / BusWord.bits = k / BusWord.bits
    · have hlt : i % BusWord.bits < 64 := by
        unfold BusWord.bits
        omega
      rw [if_pos hdiv, Option.getD_some, BitVec.getLsbD_and, BitVec.getLsbD_not, getLsbD_mask hdiv,
        ← hdiv, hword]
      simp [hlt, and_comm]
    · have hne : i ≠ k := by
        rintro rfl
        exact hdiv rfl
      simp [hdiv, hne]
  | acknowledge k hk => rfl

theorem lt_width_of_mem_asked (hon : ∀ i ∈ on, i < b.width) (h : b.Writes action role w value)
    (hi : i ∈ b.asked on action) : i < b.width := by
  cases h with
  | write role w value hw =>
    rw [asked, Finset.mem_union, Finset.mem_filter, Finset.mem_filter, Finset.mem_range] at hi
    exact hi.elim (fun hi => hon i hi.1) fun hi => hi.1
  | enable k hk =>
    rcases Finset.mem_insert.1 hi with rfl | hi
    · exact hk
    · exact hon i hi
  | disable k hk => exact hon i (Finset.mem_of_mem_erase hi)
  | acknowledge k hk => exact hon i hi

theorem lineLevel_enable (hkind : b.layout.enable.kind = .storage) :
    b.lineLevel .enable w value i = (BusWord.bitOf value w i).getD (b.level .enable i) := by
  have hregister : (b.layout.register .enable).kind = .storage := hkind
  simp [lineLevel, hregister]

end Bank

namespace Placement

variable {p : Placement} {b : Bank} {a : CellArray} {on : Finset Nat} {i : Nat} {s : Source}
  {role : Role} {lines : Nat → Bool}

/-! ## The mask and the cells -/

theorem enable_clocked (hidle : ∀ r, a.inputs (p.layout.register r).strobe.id = false)
    (hs : p.sources[i]? = some s) :
    ((p.clocked role lines a).cells i).enable =
      if role = .enable then lines i else (a.cells i).enable := by
  have hload : ((p.present role lines a).inputsOf p.layout i s).load = decide (.enable = role) :=
    strobe_present hidle .enable
  rw [cells_clocked hs, EventCell.enable_clock, hload]
  by_cases hrole : role = .enable
  · subst hrole
    exact written_present .enable (lt_length hs)
  · simp [hrole, Ne.symm hrole]

theorem enable_clock (hidle : ∀ r, a.inputs (p.layout.register r).strobe.id = false)
    (hs : p.sources[i]? = some s) :
    ((a.clock p.layout p.sources).cells i).enable = (a.cells i).enable := by
  have hload : (a.inputsOf p.layout i s).load = false := hidle .enable
  rw [cells_clock hs, EventCell.enable_clock, hload]
  rfl

/-- The level of an enable bit is kept in its cell at all times. -/
theorem Follows.level_enable (h : p.Follows b.sim a) (hlayout : b.layout = p.layout)
    (hs : p.sources[i]? = some s) : b.level .enable i = (a.cells i).enable := by
  rw [Bank.level, hlayout]
  exact (h.tracks _ _ (net?_bit .enable (lt_length hs)) rfl).trans (level_bit hs .enable)

theorem Serves.level_enable (h : p.Serves b a) (hs : p.sources[i]? = some s) :
    b.level .enable i = (a.cells i).enable :=
  h.follows.level_enable h.layout hs

/-- The cells of just these events are enabled. -/
structure Masks (p : Placement) (on : Finset Nat) (a : CellArray) : Prop where
  enable : ∀ (i : Nat) (s : Source), p.sources[i]? = some s → (a.cells i).enable = decide (i ∈ on)
  lt : ∀ i ∈ on, i < p.sources.length

theorem masks_initial (p : Placement) : p.Masks ∅ .initial :=
  ⟨fun _ _ _ => rfl, fun _ hi => absurd hi (Finset.notMem_empty _)⟩

theorem Masks.tick (h : p.Masks on a)
    (hidle : ∀ r, a.inputs (p.layout.register r).strobe.id = false) :
    p.Masks on (a.clock p.layout p.sources) := by
  refine ⟨?_, h.lt⟩
  intro i s hs
  rw [enable_clock hidle hs]
  exact h.enable i s hs

theorem Masks.writeWord (h : p.Masks on a) (hserves : p.Serves b a) {action : Bank.Action}
    {role : Role} {w : Nat} {value : BusValue} (hwrites : b.Writes action role w value) :
    p.Masks (b.asked on action) (p.clocked role (b.lineLevel role w value) a) := by
  have hwidth : b.width = p.sources.length := hserves.width .status
  refine ⟨?_, ?_⟩
  · intro i s hs
    have hlevel : b.level .enable i = decide (i ∈ on) :=
      (hserves.level_enable hs).trans (h.enable i s hs)
    have hkind : b.layout.enable.kind = .storage := kind_of_layout hserves.layout .enable
    have hasked := hwrites.mem_asked (hwidth ▸ lt_length hs)
      (hserves.width .enable ▸ lt_length hs) hlevel
    rw [enable_clocked hserves.idle hs, h.enable i s hs, Bool.eq_iff_iff, decide_eq_true_iff, hasked]
    by_cases hrole : role = .enable
    · subst hrole
      rw [if_pos rfl, if_pos rfl, Bank.lineLevel_enable hkind, hlevel]
    · rw [if_neg hrole, if_neg hrole, decide_eq_true_iff]
  · intro i hi
    rw [← hwidth]
    exact Bank.lt_width_of_mem_asked (hwidth ▸ h.lt) hwrites hi

/-- Every action keeps the bank, its cells and the mask together. -/
theorem Masks.act (h : p.Masks on a) (hserves : p.Serves b a) {action : Bank.Action}
    (hdrives : p.DrivesTriggers action) :
    ∃ a', p.Serves (b.act action) a' ∧ p.Masks (b.remask on action) a' := by
  cases hperform : b.perform action with
  | error e =>
    simp only [Bank.act, Bank.remask, hperform]
    exact ⟨a, hserves, h⟩
  | ok after =>
    simp only [Bank.act, Bank.remask, hperform]
    rcases Bank.perform_cases hperform with ⟨action, rfl, rfl⟩ | ⟨offset, rfl, rfl⟩ |
      ⟨role, w, value, hwrites, rfl⟩
    · cases action with
      | set x level =>
        obtain ⟨i, s, hs, rfl⟩ := hdrives x level rfl
        exact ⟨_, hserves.set_trigger hs level, h.enable, h.lt⟩
      | settle => exact ⟨a, hserves.settle, h⟩
      | tick => exact ⟨_, hserves.tick, h.tick hserves.idle⟩
    · exact ⟨a, hserves, h⟩
    · exact ⟨_, hserves.writeWord role w value, h.writeWord hserves hwrites⟩

theorem Masks.run {actions : List Bank.Action} (h : p.Masks on a) (hserves : p.Serves b a)
    (hdrives : ∀ action ∈ actions, p.DrivesTriggers action) :
    ∃ a', p.Serves (b.run actions) a' ∧ p.Masks (b.mask on actions) a' := by
  induction actions generalizing b on a with
  | nil => exact ⟨a, hserves, h⟩
  | cons action rest ih =>
    obtain ⟨a', hserves', h'⟩ := h.act hserves (hdrives action List.mem_cons_self)
    exact ih h' hserves' fun other hother => hdrives other (List.mem_cons_of_mem action hother)

end Placement

/-- After any interleaving of hardware and firmware the enabled events are the fold of what firmware
asked for over the empty set: the set of all enabled events, the test of a single event and the words
of the enable register agree on it. -/
theorem enabled_events_eq_mask {commands : List Command} {m : Nat} {c : Controller} {b : Bank}
    {actions : List Bank.Action}
    (hc : (Design.empty.run commands).2.controllers[m]? = some c) (hb : Bank.create c = .ok b)
    (htriggers : ∀ x level, .drive (.set x level) ∈ actions →
      ∃ t ∈ c.roster.sources, x = t.trigger.id) :
    let after := b.run actions
    let on := b.mask ∅ actions
    (after.events .enable).toFinset = on ∧
      (∀ i < c.roster.size, after.test .enable i = .ok (decide (i ∈ on))) ∧
      ∀ w < after.words, ∃ word : BusValue,
        after.read (after.offset .enable + w * BusWord.bytes) = .ok word ∧
          ∀ k < BusWord.bits, word.getLsbD k = decide (w * BusWord.bits + k ∈ on) := by
  intro after on
  obtain ⟨l, hl, rfl⟩ := Bank.create_eq_ok.1 hb
  obtain ⟨p, hsources, -, rfl⟩ := (Design.wellFormed_run commands).exists_placement hc hl
  have hdrives := p.drivesTriggers (hsources ▸ htriggers)
  obtain ⟨a, hserves, hmasks⟩ := p.masks_initial.run (p.serves_start c.irq) hdrives
  have hwidth (role : Role) : (after.layout.register role).width = p.sources.length :=
    hserves.width role
  have hlevel {i : Nat} (hi : i < p.sources.length) : after.level .enable i = decide (i ∈ on) := by
    have hs := List.getElem?_eq_getElem hi
    exact (hserves.level_enable hs).trans (hmasks.enable i _ hs)
  have hsize : c.roster.size = p.sources.length := by rw [Roster.size, hsources]
  refine ⟨?_, ?_, ?_⟩
  · ext i
    rw [List.mem_toFinset, Bank.events, List.mem_filter, List.mem_range, hwidth]
    constructor
    · rintro ⟨hi, h⟩
      exact of_decide_eq_true ((hlevel hi).symm.trans h)
    · intro h
      exact ⟨hmasks.lt i h, (hlevel (hmasks.lt i h)).trans (decide_eq_true h)⟩
  · intro i hi
    rw [hsize] at hi
    rw [Bank.test_eq (Nat.lt_of_lt_of_eq hi (hwidth .status).symm)
      (Nat.lt_of_lt_of_eq hi (hwidth .enable).symm), hlevel hi]
  · intro w hw
    refine ⟨_, Bank.read_offset .enable hw, ?_⟩
    intro k hk
    rw [Bank.word, BusWord.getLsbD_pack, hwidth, decide_eq_true hk, Bool.true_and]
    by_cases hi : w * BusWord.bits + k < p.sources.length
    · rw [decide_eq_true hi, Bool.true_and, hlevel hi]
    · have hout : w * BusWord.bits + k ∉ on := fun h => hi (hmasks.lt _ h)
      rw [decide_eq_false hi, Bool.false_and, decide_eq_false hout]

/-- In the sample a write to the enable register sets two bits and one beyond its width; single
accesses, a write to the pending register and refused accesses follow. -/
theorem sample_mask :
    let b : Bank :=
      ⟨Design.sampleLayout, Design.sampleController.irq, .start Design.sampleLayout.logic⟩
    let actions : List Bank.Action :=
      [.write 8 0xd, .drive (.set 5 true), .enable 1, .write 4 7, .disable 0, .enable 3,
        .write 12 0, .drive .tick]
    Bank.create Design.sampleController = .ok b ∧
      (∀ x level, .drive (.set x level) ∈ actions →
        ∃ t ∈ Design.sampleController.roster.sources, x = t.trigger.id) ∧
      b.mask ∅ actions = {1, 2} ∧ ((b.run actions).events .enable).toFinset = {1, 2} ∧
      (b.run actions).test .enable 2 = .ok true := by
  intro b actions
  have hb : Bank.create Design.sampleController = .ok b :=
    Bank.create_eq_ok.2 ⟨_, Design.sample_layout, rfl⟩
  have htriggers : ∀ x level, .drive (.set x level) ∈ actions →
      ∃ t ∈ Design.sampleController.roster.sources, x = t.trigger.id := by
    intro x level hset
    have hx : x = 5 := by
      simp only [actions, List.mem_cons, Bank.Action.drive.injEq, Simulator.Action.set.injEq,
        List.not_mem_nil] at hset
      grind
    have hs : Design.sampleController.roster.sources[1]? = some ⟨1, .process, none, none, 5⟩ := by
      decide +kernel
    exact ⟨_, List.mem_of_getElem? hs, hx⟩
  have hmask : b.mask ∅ actions = {1, 2} := by decide +kernel
  obtain ⟨hevents, htest, -⟩ := enabled_events_eq_mask Design.sample_controller hb htriggers
  rw [hmask] at hevents htest
  exact ⟨hb, htriggers, hmask, hevents, htest 2 (by decide +kernel)⟩

end IrqSynth
