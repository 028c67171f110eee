-- SUMMARY: What the two answers of a settling mean for arbitrary logic.
import IrqSynth.Proofs.Settling

/-!
# The answer of a settling

Settling is a bounded search for a pass that changes nothing. This module says what its answer means
for logic of any kind, logic that oscillates or holds itself included, and which nets settlings and
clock edges can change at all.

Main statements: `settle_snd_iff_exists` (the answer is true when one of the passes changes nothing),
`settle_settle` and `tick_settle` (a second settling, and one before a clock edge, change nothing),
`get?_tick_of_not_drives` and `get?_run_of_not_drives` (a net changes if it is driven or forced), and
`settle_answer`.
-/
namespace IrqSynth

namespace Fragment

variable {f : Fragment} {v : Levels} {s : SignalId} {k : Nat}

/-! ## The passes of a settling -/

/-- A pass that changes nothing ends the search, if it is within the bound. -/
theorem settle_of_pass_iterate (hfixed : f.pass (f.pass^[k] v) = f.pass^[k] v)
    (hk : k < maxSettlePasses) : f.settle v = (f.pass^[k] v, true) :=
  settleWithin_eq_of_fixed hfixed hk

theorem settle_snd_iff_exists (f : Fragment) (v : Levels) :
    (f.settle v).2 = true ↔
      ∃ k < maxSettlePasses, f.pass (f.pass^[k] v) = f.pass^[k] v := by
  constructor
  · intro h
    exact ⟨maxSettlePasses - 1, by decide, (settle_snd f v).1 h⟩
  · rintro ⟨k, hk, hfixed⟩
    rw [settle_of_pass_iterate hfixed hk]

/-- Levels that were found to be at rest are a fixed point of the pass. -/
theorem pass_settle (h : (f.settle v).2 = true) : f.pass (f.settle v).1 = (f.settle v).1 := by
  obtain ⟨k, hk, hfixed⟩ := (settle_snd_iff_exists f v).1 h
  rw [settle_of_pass_iterate hfixed hk]
  exact hfixed

theorem settle_of_pass_eq (h : f.pass v = v) : f.settle v = (v, true) :=
  settle_of_pass_iterate (k := 0) h (by decide)

theorem settle_settle (h : (f.settle v).2 = true) :
    f.settle (f.settle v).1 = ((f.settle v).1, true) :=
  settle_of_pass_eq (pass_settle h)

end Fragment

namespace Simulator

variable {sim : Simulator} {s : SignalId} {n : Nat}

/-! ## Settling twice -/

theorem settle_settle (h : sim.settle.2 = true) : sim.settle.1.settle = (sim.settle.1, true) := by
  have hagain := Fragment.settle_settle (f := sim.fragment) (v := sim.levels) h
  have hsettle : sim.settle.1.settle =
      ({ sim with levels := (sim.fragment.settle (sim.fragment.settle sim.levels).1).1 },
        (sim.fragment.settle (sim.fragment.settle sim.levels).1).2) := rfl
  rw [hsettle, hagain]
  rfl

/-- A clock edge settles first, so logic that comes to rest need not be settled before it. -/
theorem tick_settle (h : sim.settle.2 = true) : sim.settle.1.tick = sim.tick := by
  have hbefore : sim.settle.1.settle.1 = sim.settle.1 := by rw [settle_settle h]
  have htick (t : Simulator) : t.tick =
      ({ t.settle.1 with
        levels := t.fragment.edge t.settle.1.levels
        cycle := t.cycle + 1 } : Simulator).settle.1 := rfl
  rw [htick sim.settle.1, htick sim, hbefore]
  rfl

/-! ## Nets that are not driven -/

theorem get?_settle_of_not_mem (hs : s ∉ sim.fragment.combTargets) :
    sim.settle.1.levels.get? s = sim.levels.get? s :=
  Fragment.get?_settle_of_not_mem hs

theorem get?_tick_of_not_drives (hs : ¬sim.fragment.Drives s) :
    sim.tick.levels.get? s = sim.levels.get? s := by
  have hcomb : s ∉ sim.fragment.combTargets := fun h => hs (.inl h)
  have hsync : s ∉ sim.fragment.syncTargets := fun h => hs (.inr h)
  rw [levels_tick, Fragment.get?_settle_of_not_mem hcomb, Fragment.get?_edge_of_not_mem hsync,
    Fragment.get?_settle_of_not_mem hcomb]

theorem fragment_iterate_tick (sim : Simulator) (n : Nat) :
    (tick^[n] sim).fragment = sim.fragment := by
  induction n with
  | zero => rfl
  | succ n ih => rw [Function.iterate_succ_apply', fragment_tick, ih]

/-- Clock edges change driven nets only, however many there are. -/
theorem get?_iterate_tick_of_not_drives (hs : ¬sim.fragment.Drives s) (n : Nat) :
    (tick^[n] sim).levels.get? s = sim.levels.get? s := by
  induction n with
  | zero => rfl
  | succ n ih =>
    rw [Function.iterate_succ_apply', get?_tick_of_not_drives, ih]
    rwa [fragment_iterate_tick]

/-! ## Forced nets -/

/-- The level that an action forces on net `s`, if it does. -/
def Action.forces? (s : SignalId) : Action → Option Bool
  | .set t b => if t = s then some b else none
  | .settle => none
  | .tick => none

/-- The level last forced on net `s`, if there was one. -/
def lastForced? (s : SignalId) (actions : List Action) : Option Bool :=
  (actions.filterMap (Action.forces? s)).getLast?

theorem lastForced?_cons (s : SignalId) (action : Action) (rest : List Action) :
    lastForced? s (action :: rest) = (lastForced? s rest).or (action.forces? s) := by
  unfold lastForced?
  cases hforces : action.forces? s with
  | none => rw [List.filterMap_cons_none hforces, Option.or_none]
  | some b =>
    rw [List.filterMap_cons_some hforces, List.getLast?_cons]
    cases (rest.filterMap (Action.forces? s)).getLast? <;> rfl

theorem get?_act_of_not_drives (hs : ¬sim.fragment.Drives s) (action : Action) :
    (sim.act action).levels.get? s = (action.forces? s).or (sim.levels.get? s) := by
  cases action with
  | set t b =>
    rw [Action.forces?, act, set, Levels.get?_set]
    split <;> rfl
  | settle => exact get?_settle_of_not_mem (not_or.1 hs).1
  | tick => exact get?_tick_of_not_drives hs

/-- A net that nothing drives has the level last forced on it. -/
theorem get?_run_of_not_drives (sim : Simulator) (hs : ¬sim.fragment.Drives s)
    (actions : List Action) :
    (sim.run actions).levels.get? s = (lastForced? s actions).or (sim.levels.get? s) := by
  induction actions generalizing sim with
  | nil => rfl
  | cons action rest ih =>
    have hact : ¬(sim.act action).fragment.Drives s := by rwa [fragment_act]
    rw [lastForced?_cons, Option.or_assoc, ← get?_act_of_not_drives hs]
    exact ih (sim.act action) hact

/-- A net that nothing drives or forces keeps its entry. -/
theorem get?_run_of_not_forced (hs : ¬sim.fragment.Drives s) {actions : List Action}
    (hforced : ∀ b, .set s b ∉ actions) : (sim.run actions).levels.get? s = sim.levels.get? s := by
  have hnone : lastForced? s actions = none := by
    rw [lastForced?, List.getLast?_eq_none_iff, List.filterMap_eq_nil_iff]
    intro action haction
    cases action with
    | set t b =>
      have hne : t ≠ s := by
        rintro rfl
        exact hforced b haction
      exact if_neg hne
    | settle => rfl
    | tick => rfl
  rw [get?_run_of_not_drives sim hs, hnone, Option.none_or]

theorem read_run_of_not_drives {f : Fragment} (hs : ¬f.Drives s) (actions : List Action) :
    ((start f).run actions).read s = (lastForced? s actions).getD false := by
  have hstart : (start f).levels.get? s = none := by
    rw [levels_start, Fragment.get?_settle_of_not_mem (not_or.1 hs).1, Levels.get?_empty]
  rw [read, Levels.read, get?_run_of_not_drives (start f) hs, hstart, Option.or_none]

end Simulator

/-! ## Main result -/

/-- For any logic and any levels: settling answers true exactly when one of its 64 passes changes
nothing. Then a second settling changes nothing, a clock edge has the same effect with and without
it, and every driven net has the value of its last active assignment on the levels reached. When it
answers false the levels are those after all passes. In either case only nets that are driven
combinationally have changed, and clock edges change driven nets only. -/
theorem settle_answer (sim : Simulator) :
    let f := sim.fragment
    let after := sim.settle.1
    (sim.settle.2 = true ↔
        ∃ k < 64, f.pass (f.pass^[k] sim.levels) = f.pass^[k] sim.levels) ∧
      (sim.settle.2 = true →
        after.settle = (after, true) ∧ after.tick = sim.tick ∧ f.Solves after.levels) ∧
      (sim.settle.2 = false → after.levels = f.pass^[64] sim.levels) ∧
      after.cycle = sim.cycle ∧
      (∀ s ∉ f.combTargets, after.levels.get? s = sim.levels.get? s) ∧
      ∀ n s, ¬f.Drives s → (Simulator.tick^[n] sim).levels.get? s = sim.levels.get? s := by
  intro f after
  refine ⟨f.settle_snd_iff_exists sim.levels, ?_, ?_, rfl, ?_, ?_⟩
  · intro hrest
    have hsolves : f.Solves (f.settle sim.levels).1 := Fragment.solves_settleWithin hrest
    exact ⟨Simulator.settle_settle hrest, Simulator.tick_settle hrest, hsolves⟩
  · intro _
    exact f.settleWithin_fst maxSettlePasses sim.levels
  · intro s hs
    exact Simulator.get?_settle_of_not_mem hs
  · intro n s hs
    exact Simulator.get?_iterate_tick_of_not_drives hs n

/-- A net that is its own complement does not come to rest: after 64 passes it is low again. -/
example :
    (Simulator.mk ⟨[.assign 0 (.not (.signal 0))], []⟩ .empty 0).settle =
      (⟨⟨[.assign 0 (.not (.signal 0))], []⟩, Levels.empty.set 0 false, 0⟩, false) := by
  decide +kernel

end IrqSynth
