-- SUMMARY: Solutions of combinational logic and rankings of its nets, without running it.
import IrqSynth.Simulation.Simulator

/-!
# Solutions

What combinational logic asks of the levels, said without running it: every driven net has the value
of its last active assignment on those same levels, or 0. Logic without feedback is logic whose
driven nets can be ranked.

Main statement: `solves_of_pass_eq` (a pass that changes nothing has found a solution).
-/
namespace IrqSynth

namespace Fragment

/-- The levels satisfy the combinational logic. -/
def Solves (f : Fragment) (v : Levels) : Prop :=
  ∀ s ∈ f.combTargets,
    v.read s = (Assignment.lastActive? v.read (Stmt.assignmentsAll f.comb) s).getD false

/-- A driven net that an assignment reads, in its value or in an enclosing condition, ranks below
the net it assigns. -/
def RankedBy (f : Fragment) (rank : SignalId → Nat) : Prop :=
  ∀ a ∈ Stmt.assignmentsAll f.comb, ∀ s ∈ a.reads, s ∈ f.combTargets → rank s < rank a.target

theorem solves_of_pass_eq {f : Fragment} {v : Levels} (h : f.pass v = v) : f.Solves v := by
  intro s hs
  have fixed := f.get?_pass v s
  rw [h, if_pos hs] at fixed
  rw [Levels.read, fixed]
  cases Assignment.lastActive? v.read (Stmt.assignmentsAll f.comb) s <;> rfl

/-- Settling that comes to rest ends in a solution. -/
theorem solves_settleWithin {f : Fragment} {n : Nat} {v : Levels}
    (h : (f.settleWithin n v).2 = true) : f.Solves (f.settleWithin n v).1 := by
  induction n generalizing v with
  | zero => cases h
  | succ n ih =>
    rw [settleWithin_succ] at h ⊢
    split
    · rename_i fixed
      exact solves_of_pass_eq fixed
    · rename_i moved
      rw [if_neg moved] at h
      exact ih h

end Fragment

end IrqSynth
