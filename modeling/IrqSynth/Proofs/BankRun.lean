-- SUMMARY: A bus write is one clock edge of the event cells, and strobes are low between accesses.
import IrqSynth.Proofs.BankAccess
import IrqSynth.Proofs.Refinement

/-!
# Banks and event cells

A bus write as the event cells see it: one clock edge with the strobe of one register high. Between
two accesses of firmware every strobe is low.

Main statements: `Follows.shows_writeWord` (a write from arbitrary levels), `Serves.set_trigger`,
`Serves.settle`, `Serves.tick` and `Serves.writeWord`.
-/
namespace IrqSynth

/-! ## Forcing a range of lines -/

namespace CellArray

variable {l : Layout} {sources : List Source} {a : CellArray} {f : Nat → SignalId} {g : Nat → Bool}
  {i n : Nat} {x : SignalId}

/-- The array after forcing line `f i` to `g i` for every `i` below `n`. -/
def force (l : Layout) (sources : List Source) (f : Nat → SignalId) (g : Nat → Bool) (n : Nat)
    (a : CellArray) : CellArray :=
  a.run l sources ((List.range n).map fun i => .set (f i) (g i))

theorem force_succ :
    a.force l sources f g (n + 1) = (a.force l sources f g n).act l sources (.set (f n) (g n)) := by
  rw [force, List.range_succ, List.map_append]
  exact a.run_concat l sources _ _

theorem cells_force : (a.force l sources f g n).cells = a.cells := by
  induction n with
  | zero => rfl
  | succ n ih =>
    rw [force_succ]
    exact ih

theorem inputs_force_of_ne (hx : ∀ i < n, f i ≠ x) :
    (a.force l sources f g n).inputs x = a.inputs x := by
  induction n with
  | zero => rfl
  | succ n ih =>
    rw [force_succ, inputs_set, if_neg (hx n (Nat.lt_succ_self n))]
    exact ih fun i hi => hx i (Nat.lt_succ_of_lt hi)

theorem inputs_force (hf : Function.Injective f) (hi : i < n) :
    (a.force l sources f g n).inputs (f i) = g i := by
  induction n with
  | zero => cases hi
  | succ n ih =>
    rw [force_succ, inputs_set]
    rcases Nat.lt_succ_iff_lt_or_eq.1 hi with hlt | rfl
    · have hne : f n ≠ f i := by
        intro h
        exact Nat.ne_of_gt hlt (hf h)
      rw [if_neg hne, ih hlt]
    · rw [if_pos rfl]

end CellArray

namespace Placement

variable {p : Placement} {a : CellArray} {i : Nat} {s : Source} {role : Role} {lines : Nat → Bool}
  {m n : Net} {x y : SignalId}

theorem ne_of_net?_ne (hn : p.net? n = some x) (hm : p.net? m = some y) (hne : n ≠ m) : x ≠ y := by
  rintro rfl
  exact hne (net?_injective hn hm)

/-! ## The edge of a write -/

/-- The array with `lines` on the write lines of a register and its strobe high. -/
def present (p : Placement) (role : Role) (lines : Nat → Bool) (a : CellArray) : CellArray :=
  (a.force p.layout p.sources (fun i => ((p.layout.register role).written i).id) lines
    p.sources.length).act p.layout p.sources (.set (p.layout.register role).strobe.id true)

/-- The array after a write: a clock edge under the strobe, which is then low again. -/
def clocked (p : Placement) (role : Role) (lines : Nat → Bool) (a : CellArray) : CellArray :=
  ((p.present role lines a).clock p.layout p.sources).act p.layout p.sources
    (.set (p.layout.register role).strobe.id false)

theorem inputs_present_of_ne (hn : p.net? n = some x) (hstrobe : n ≠ .line role .strobe)
    (hwritten : ∀ i, n ≠ .line role (.written i)) :
    (p.present role lines a).inputs x = a.inputs x := by
  have hx : (p.layout.register role).strobe.id ≠ x := ne_of_net?_ne rfl hn hstrobe.symm
  rw [present, CellArray.inputs_set, if_neg hx]
  apply CellArray.inputs_force_of_ne
  intro i hi
  exact ne_of_net?_ne (net?_written role hi) hn (hwritten i).symm

theorem trigger_present (hs : p.sources[i]? = some s) :
    (p.present role lines a).inputs s.trigger.id = a.inputs s.trigger.id :=
  inputs_present_of_ne (net?_port hs .trigger) (fun h => by cases h) fun _ h => by cases h

theorem strobe_present (hidle : ∀ r, a.inputs (p.layout.register r).strobe.id = false) (r : Role) :
    (p.present role lines a).inputs (p.layout.register r).strobe.id = decide (r = role) := by
  by_cases h : r = role
  · rw [h, present, CellArray.inputs_set, if_pos rfl, decide_eq_true rfl]
  · rw [inputs_present_of_ne (n := .line r .strobe) rfl (by simpa using h)
      (fun _ h => by cases h), hidle, decide_eq_false h]

theorem written_present (role : Role) (hi : i < p.sources.length) :
    (p.present role lines a).inputs ((p.layout.register role).written i).id = lines i := by
  have hne : (p.layout.register role).strobe.id ≠ ((p.layout.register role).written i).id :=
    ne_of_net?_ne (n := .line role .strobe) rfl (net?_written role hi) (fun h => by cases h)
  have hinj : Function.Injective fun i => ((p.layout.register role).written i).id := by
    intro j k h
    simp only [Register.written] at h
    lia
  rw [present, CellArray.inputs_set, if_neg hne]
  exact CellArray.inputs_force hinj hi

theorem clear_present (hidle : ∀ r, a.inputs (p.layout.register r).strobe.id = false)
    (hs : p.sources[i]? = some s) :
    ((p.present role lines a).inputsOf p.layout i s).clear =
      (decide (role = .pending) && lines i) := by
  have hstrobe : (p.present role lines a).inputs p.layout.pending.strobe.id =
      decide (.pending = role) := strobe_present hidle .pending
  rw [CellArray.inputsOf, hstrobe]
  by_cases h : role = .pending
  · subst h
    exact congrArg (true && ·) (written_present .pending (lt_length hs))
  · rw [decide_eq_false h, decide_eq_false (Ne.symm h), Bool.false_and, Bool.false_and]

theorem cells_clocked (hs : p.sources[i]? = some s) :
    (p.clocked role lines a).cells i =
      (a.cells i).clock s.kind ((p.present role lines a).inputsOf p.layout i s) := by
  have hcells : (p.present role lines a).cells = a.cells := by
    rw [present, CellArray.cells_set]
    exact CellArray.cells_force
  rw [clocked, CellArray.cells_set, cells_clock hs, hcells]

/-- A write leaves every input alone but the lines of its own register. -/
theorem inputs_clocked_of_ne (hn : p.net? n = some x) (hstrobe : n ≠ .line role .strobe)
    (hwritten : ∀ i, n ≠ .line role (.written i)) :
    (p.clocked role lines a).inputs x = a.inputs x := by
  have hx : (p.layout.register role).strobe.id ≠ x := ne_of_net?_ne rfl hn hstrobe.symm
  rw [clocked, CellArray.inputs_set, if_neg hx]
  exact inputs_present_of_ne hn hstrobe hwritten

theorem trigger_clocked (hs : p.sources[i]? = some s) :
    (p.clocked role lines a).inputs s.trigger.id = a.inputs s.trigger.id :=
  inputs_clocked_of_ne (net?_port hs .trigger) (fun h => by cases h) fun _ h => by cases h

theorem strobe_clocked (hidle : ∀ r, a.inputs (p.layout.register r).strobe.id = false) (r : Role) :
    (p.clocked role lines a).inputs (p.layout.register r).strobe.id = false := by
  by_cases h : role = r
  · rw [h, clocked, CellArray.inputs_set, if_pos rfl]
  · have hne : (p.layout.register role).strobe.id ≠ (p.layout.register r).strobe.id :=
      ne_of_net?_ne (n := .line role .strobe) (m := .line r .strobe) rfl rfl (by simpa using h)
    rw [clocked, CellArray.inputs_set, if_neg hne]
    exact (strobe_present hidle r).trans (decide_eq_false (Ne.symm h))

/-! ## Banks -/

/-- A bank of the layout between two accesses: its simulation follows the array, the strobes are
low, and the pending bits of sources with a latch show it. -/
structure Serves (p : Placement) (b : Bank) (a : CellArray) : Prop where
  layout : b.layout = p.layout
  follows : p.Follows b.sim a
  idle : ∀ r, a.inputs (p.layout.register r).strobe.id = false
  pending : ∀ i s, p.sources[i]? = some s → s.kind ≠ .level →
    b.level .pending i = (a.cells i).latch

variable {b : Bank}

theorem Shows.read_pending {v : Levels} (h : p.Shows v a) (hs : p.sources[i]? = some s)
    (hk : s.kind ≠ .level) : v.read (p.layout.pending.bit i).id = (a.cells i).latch := by
  have hbit : v.read (p.layout.pending.bit i).id = a.bit p.layout i s .pending :=
    h.read_bit hs .pending
  rw [hbit, CellArray.bit, CellArray.port, pending_of_kind_ne _ _ hk]

theorem kind_of_layout (hlayout : b.layout = p.layout) (role : Role) :
    (b.layout.register role).kind = role.kind := by
  rw [hlayout, kind_register]

theorem Serves.width (h : p.Serves b a) (r : Role) :
    (b.layout.register r).width = p.sources.length := by
  rw [h.layout, width_register]

theorem serves_of_shows {sim : Simulator} (hlayout : b.layout = p.layout)
    (hfragment : sim.fragment = p.layout.logic) (h : p.Shows sim.levels a)
    (hidle : ∀ r, a.inputs (p.layout.register r).strobe.id = false) :
    p.Serves { b with sim } a := by
  refine ⟨hlayout, ⟨hfragment, h.tracks⟩, hidle, ?_⟩
  intro i s hs hk
  have hlevel : Bank.level { b with sim } .pending i = sim.levels.read (p.layout.pending.bit i).id := by
    rw [Bank.level, hlayout]
    rfl
  rw [hlevel]
  exact h.read_pending hs hk

theorem Serves.set_trigger (h : p.Serves b a) (hs : p.sources[i]? = some s) (level : Bool) :
    p.Serves { b with sim := b.sim.set s.trigger.id level }
      (a.act p.layout p.sources (.set s.trigger.id level)) := by
  have hdrives : p.Drives (.set s.trigger.id level) :=
    ⟨.port i .trigger, rfl, net?_port hs .trigger⟩
  refine ⟨h.layout, h.follows.act hdrives, ?_, ?_⟩
  · intro r
    have hne : s.trigger.id ≠ (p.layout.register r).strobe.id :=
      ne_of_net?_ne (m := .line r .strobe) (net?_port hs .trigger) rfl (fun h => by cases h)
    rw [CellArray.inputs_set, if_neg hne]
    exact h.idle r
  · intro j t ht hk
    have hne : s.trigger.id ≠ (p.layout.pending.bit j).id :=
      ne_of_net?_ne (net?_port hs .trigger) (net?_bit .pending (lt_length ht)) (fun h => by cases h)
    have hold := h.pending j t ht hk
    rw [Bank.level, h.layout] at hold ⊢
    rw [Simulator.read_set]
    exact (if_neg hne).trans hold

theorem Serves.settle (h : p.Serves b a) : p.Serves { b with sim := b.sim.settle.1 } a :=
  serves_of_shows h.layout h.follows.fragment h.follows.shows_settle h.idle

theorem Serves.tick (h : p.Serves b a) :
    p.Serves { b with sim := b.sim.tick } (a.clock p.layout p.sources) :=
  serves_of_shows h.layout h.follows.fragment h.follows.shows_tick h.idle

/-- What a write does to the simulation, up to the last settling. -/
def script (p : Placement) (role : Role) (lines : Nat → Bool) : List Simulator.Action :=
  ((List.range p.sources.length).map fun i =>
      .set ((p.layout.register role).written i).id (lines i)) ++
    [.set (p.layout.register role).strobe.id true, .tick,
      .set (p.layout.register role).strobe.id false]

theorem sim_writeWord (hlayout : b.layout = p.layout) (w : Nat) (value : BusValue) :
    (b.writeWord role w value).sim =
      (b.sim.run (p.script role (b.lineLevel role w value))).settle.1 := by
  rw [Bank.writeWord, Bank.present, hlayout, width_register, Simulator.run, script,
    List.foldl_append, List.foldl_map]
  rfl

theorem run_script : a.run p.layout p.sources (p.script role lines) = p.clocked role lines a := by
  rw [script, CellArray.run_append]
  rfl

theorem cycle_writeWord (role : Role) (w : Nat) (value : BusValue) :
    (b.writeWord role w value).sim.cycle = b.sim.cycle + 1 := by
  have hpresent : (b.present role w value).cycle = b.sim.cycle :=
    Simulator.cycle_foldl_set _ _ _ _
  exact congrArg (· + 1) hpresent

/-- A write forces the write lines and the strobe of its register. -/
theorem mem_script_set {level : Bool} (h : .set x level ∈ p.script role lines) :
    x = (p.layout.register role).strobe.id ∨
      x ∈ (p.layout.register role).writtenBits.map Signal.id := by
  rcases List.mem_append.1 h with hmem | hmem
  · obtain ⟨i, hi, hset⟩ := List.mem_map.1 hmem
    obtain ⟨rfl, -⟩ := Simulator.Action.set.inj hset
    rw [← p.width_register role] at hi
    exact .inr (List.mem_map_of_mem (List.mem_map_of_mem hi))
  · left
    simp only [List.mem_cons, Simulator.Action.set.injEq, reduceCtorEq, List.not_mem_nil, or_false,
      false_or] at hmem
    exact hmem.elim And.left And.left

theorem drives_script (p : Placement) (role : Role) (lines : Nat → Bool) :
    ∀ action ∈ p.script role lines, p.Drives action := by
  intro action haction
  cases action with
  | set x level =>
    rcases mem_script_set haction with rfl | hx
    · exact ⟨.line role .strobe, rfl, rfl⟩
    · obtain ⟨w, hw, rfl⟩ := List.mem_map.1 hx
      obtain ⟨i, hi, rfl⟩ := List.mem_map.1 hw
      rw [List.mem_range, width_register] at hi
      exact ⟨.line role (.written i), rfl, net?_written role hi⟩
  | settle => trivial
  | tick => trivial

/-- Writing a word is one clock edge with the strobe of its register high, from any levels. -/
theorem Follows.shows_writeWord (h : p.Follows b.sim a) (hlayout : b.layout = p.layout)
    (role : Role) (w : Nat) (value : BusValue) :
    p.Shows (b.writeWord role w value).sim.levels
      (p.clocked role (b.lineLevel role w value) a) := by
  have hrun := h.run (p.drives_script role (b.lineLevel role w value))
  rw [run_script] at hrun
  rw [sim_writeWord hlayout]
  exact hrun.shows_settle

/-- Between two accesses the strobes are low before and after a write. -/
theorem Serves.writeWord (h : p.Serves b a) (role : Role) (w : Nat) (value : BusValue) :
    p.Serves (b.writeWord role w value) (p.clocked role (b.lineLevel role w value) a) := by
  have hfragment : (b.writeWord role w value).sim.fragment = p.layout.logic := by
    rw [sim_writeWord h.layout, Simulator.fragment_settle, Simulator.fragment_run]
    exact h.follows.fragment
  exact serves_of_shows (b := b) h.layout hfragment
    (h.follows.shows_writeWord h.layout role w value) (strobe_clocked h.idle)

end Placement

end IrqSynth

