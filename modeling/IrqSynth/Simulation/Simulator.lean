-- SUMMARY: Passes, settling, clock edges, and the simulator that performs them.
import IrqSynth.Logic.Fragment
import IrqSynth.Simulation.Exec

/-!
# Simulator

Runs a fragment cycle by cycle. Setting a net changes nothing else until the logic settles; a
clock edge settles, applies the clocked statements and settles again.

Main statements: `get?_pass` and `get?_edge` (what one pass and one edge make of a net).
-/
namespace IrqSynth

-- ---------------------------------------------------------------------------
-- Settling
-- ---------------------------------------------------------------------------

/-- The number of evaluation passes after which settling gives up. -/
def maxSettlePasses : Nat :=
  64

namespace Fragment

/-- One evaluation pass: every net driven by combinational logic falls to 0, then the combinational
statements act on the levels before the pass. -/
def pass (f : Fragment) (v : Levels) : Levels :=
  Stmt.execAll v f.comb (v.lower (Stmt.targetsAll f.comb))

/-- Repeats the pass until one changes nothing, which gives true, at most `n` times. Levels that
still change after that are kept as they are, with the answer false. -/
def settleWithin (f : Fragment) : Nat → Levels → Levels × Bool
  | 0, v => (v, false)
  | n + 1, v =>
    let next := f.pass v
    if next = v then (v, true) else f.settleWithin n next

/-- Settles within the fixed number of passes. -/
def settle (f : Fragment) (v : Levels) : Levels × Bool :=
  f.settleWithin maxSettlePasses v

/-- What the clocked statements make of the levels before the edge. -/
def edge (f : Fragment) (v : Levels) : Levels :=
  Stmt.execAll v f.sync v

/-- After a pass a driven net has the value of its last active assignment, or 0 without one; every
other net keeps its entry. -/
theorem get?_pass (f : Fragment) (v : Levels) (s : SignalId) :
    (f.pass v).get? s =
      (Assignment.lastActive? v.read (Stmt.assignmentsAll f.comb) s).or
        (if s ∈ f.combTargets then some false else v.get? s) := by
  simp [pass, Stmt.get?_execAll, Levels.get?_lower]

/-- After an edge a net has the value of its last active assignment, or what it had. -/
theorem get?_edge (f : Fragment) (v : Levels) (s : SignalId) :
    (f.edge v).get? s =
      (Assignment.lastActive? v.read (Stmt.assignmentsAll f.sync) s).or (v.get? s) := by
  simp [edge, Stmt.get?_execAll]

theorem settleWithin_succ (f : Fragment) (n : Nat) (v : Levels) :
    f.settleWithin (n + 1) v =
      if f.pass v = v then (v, true) else f.settleWithin n (f.pass v) :=
  rfl

end Fragment

-- ---------------------------------------------------------------------------
-- The simulator
-- ---------------------------------------------------------------------------

/-- A fragment with the present levels and the number of clock edges applied so far. -/
structure Simulator where
  fragment : Fragment
  levels : Levels
  cycle : Nat
  deriving DecidableEq

namespace Simulator

/-- The level of a net. -/
def read (sim : Simulator) (s : SignalId) : Bool :=
  sim.levels.read s

/-- Forces the level of a net. A net driven by combinational logic keeps it until the next
settling. -/
def set (sim : Simulator) (s : SignalId) (level : Bool) : Simulator :=
  { sim with levels := sim.levels.set s level }

/-- Settles the combinational logic and says whether it came to rest. -/
def settle (sim : Simulator) : Simulator × Bool :=
  let (levels, settled) := sim.fragment.settle sim.levels
  ({ sim with levels }, settled)

/-- One clock edge between two settlings. The edge is taken even if the logic does not come to
rest. -/
def tick (sim : Simulator) : Simulator :=
  let before := sim.settle.1
  let after := { before with levels := sim.fragment.edge before.levels, cycle := sim.cycle + 1 }
  after.settle.1

/-- All nets start at 0, and the logic is settled once. -/
def start (fragment : Fragment) : Simulator :=
  (Simulator.mk fragment .empty 0).settle.1

-- ---------------------------------------------------------------------------
-- Runs
-- ---------------------------------------------------------------------------

/-- What a test bench does to a simulator. -/
inductive Action where
  | set (net : SignalId) (level : Bool)
  | settle
  | tick
  deriving DecidableEq, Repr

/-- Performs one action. -/
def act (sim : Simulator) : Action → Simulator
  | .set s b => sim.set s b
  | .settle => sim.settle.1
  | .tick => sim.tick

/-- Performs actions in order. -/
def run (sim : Simulator) (actions : List Action) : Simulator :=
  actions.foldl act sim

theorem levels_start (f : Fragment) : (start f).levels = (f.settle .empty).1 :=
  rfl

theorem levels_settle (sim : Simulator) :
    sim.settle.1.levels = (sim.fragment.settle sim.levels).1 :=
  rfl

theorem settle_snd (sim : Simulator) :
    sim.settle.2 = (sim.fragment.settle sim.levels).2 :=
  rfl

theorem levels_tick (sim : Simulator) :
    sim.tick.levels =
      (sim.fragment.settle (sim.fragment.edge (sim.fragment.settle sim.levels).1)).1 :=
  rfl

@[simp] theorem fragment_settle (sim : Simulator) : sim.settle.1.fragment = sim.fragment :=
  rfl

@[simp] theorem cycle_settle (sim : Simulator) : sim.settle.1.cycle = sim.cycle :=
  rfl

@[simp] theorem fragment_tick (sim : Simulator) : sim.tick.fragment = sim.fragment :=
  rfl

@[simp] theorem cycle_tick (sim : Simulator) : sim.tick.cycle = sim.cycle + 1 :=
  rfl

@[simp] theorem fragment_act (sim : Simulator) (action : Action) :
    (sim.act action).fragment = sim.fragment := by
  cases action <;> rfl

@[simp] theorem fragment_run (sim : Simulator) (actions : List Action) :
    (sim.run actions).fragment = sim.fragment := by
  induction actions generalizing sim with
  | nil => rfl
  | cons action rest ih => exact (ih (sim.act action)).trans (sim.fragment_act action)

theorem fragment_run_start (f : Fragment) (actions : List Action) :
    ((start f).run actions).fragment = f :=
  fragment_run (start f) actions

/-- A run goes on from where an earlier one ended. -/
theorem run_append (sim : Simulator) (before after : List Action) :
    sim.run (before ++ after) = (sim.run before).run after :=
  List.foldl_append

theorem run_concat (sim : Simulator) (actions : List Action) (action : Action) :
    sim.run (actions ++ [action]) = (sim.run actions).act action :=
  sim.run_append actions [action]

/-- The clock counts the ticks. -/
theorem cycle_run (sim : Simulator) (actions : List Action) :
    (sim.run actions).cycle = sim.cycle + actions.count .tick := by
  induction actions generalizing sim with
  | nil => rfl
  | cons action rest ih =>
    have hrun : (sim.run (action :: rest)).cycle = ((sim.act action).run rest).cycle := rfl
    rw [hrun, ih]
    cases action with
    | set s b => rfl
    | settle => rfl
    | tick =>
      rw [act, cycle_tick, List.count_cons_self]
      omega

theorem cycle_foldl_set (f : Nat → SignalId) (g : Nat → Bool) (range : List Nat)
    (sim : Simulator) :
    (range.foldl (fun sim i => sim.set (f i) (g i)) sim).cycle = sim.cycle := by
  induction range generalizing sim with
  | nil => rfl
  | cons i rest ih => exact ih (sim.set (f i) (g i))

theorem read_set (sim : Simulator) (s t : SignalId) (b : Bool) :
    (sim.set s b).read t = if s = t then b else sim.read t :=
  sim.levels.read_set s t b

/-- Setting nets leaves the levels of the others alone. -/
theorem read_foldl_set {f : Nat → SignalId} {g : Nat → Bool} {x : SignalId} {range : List Nat}
    (hx : ∀ i ∈ range, f i ≠ x) (sim : Simulator) :
    (range.foldl (fun sim i => sim.set (f i) (g i)) sim).read x = sim.read x := by
  induction range generalizing sim with
  | nil => rfl
  | cons i rest ih =>
    rw [List.foldl_cons, ih fun j hj => hx j (List.mem_cons_of_mem i hj), read_set,
      if_neg (hx i List.mem_cons_self)]

end Simulator

end IrqSynth
