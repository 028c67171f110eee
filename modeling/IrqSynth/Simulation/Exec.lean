-- SUMMARY: Execution of statement lists on levels.
import IrqSynth.Logic.Assignment

/-!
# Execution

What a statement list does to the levels. Values and conditions are read from the levels before
the pass, so no assignment is visible to a later statement of the same pass, and the last active
assignment to a net wins.

Main statements: `execAll_eq_applyAll` (running the list is performing its active assignments) and
`get?_execAll` (what that makes of a net).
-/
namespace IrqSynth

namespace Stmt

mutual
/-- Applies one statement to `next`, reading from `old` only. -/
def exec (old : Levels) : Stmt → Levels → Levels
  | assign s e, next => next.set s (e.eval old.read)
  | guard c body, next => if c.eval old.read then execAll old body next else next

/-- Applies the statements of a list in order. -/
def execAll (old : Levels) : List Stmt → Levels → Levels
  | [], next => next
  | s :: rest, next => execAll old rest (s.exec old next)
end

theorem execAll_append (old : Levels) (ss ts : List Stmt) (next : Levels) :
    execAll old (ss ++ ts) next = execAll old ts (execAll old ss next) := by
  induction ss generalizing next with
  | nil => rfl
  | cons s rest ih => simp [execAll, ih]

mutual
theorem exec_eq_applyAll (old : Levels) (s : Stmt) (next : Levels) :
    s.exec old next = Assignment.applyAll old.read s.assignments next := by
  cases s with
  | assign s e => rfl
  | guard c body =>
    rw [exec, assignments, Assignment.applyAll_under, execAll_eq_applyAll old body next]

/-- A statement list acts as its assignments do. -/
theorem execAll_eq_applyAll (old : Levels) (ss : List Stmt) (next : Levels) :
    execAll old ss next = Assignment.applyAll old.read (assignmentsAll ss) next := by
  cases ss with
  | nil => rfl
  | cons s rest =>
    rw [execAll, assignmentsAll, Assignment.applyAll_append, exec_eq_applyAll old s next,
      execAll_eq_applyAll old rest]
end

/-- After a pass a net has the value of its last active assignment, or its former entry. -/
theorem get?_execAll (old : Levels) (ss : List Stmt) (next : Levels) (s : SignalId) :
    (execAll old ss next).get? s =
      (Assignment.lastActive? old.read (assignmentsAll ss) s).or (next.get? s) := by
  rw [execAll_eq_applyAll, Assignment.get?_applyAll]

end Stmt

end IrqSynth
