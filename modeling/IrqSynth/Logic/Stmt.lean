-- SUMMARY: Assignments and guarded statement lists, with the nets they drive and read.
import IrqSynth.Logic.Expr

/-!
# Statements

A statement drives a net with an expression, or guards a list of statements by a condition.
-/
namespace IrqSynth

inductive Stmt where
  | assign (target : SignalId) (value : Expr)
  | guard (cond : Expr) (body : List Stmt)

/-- The statement that drives net `s` with `value`. -/
def Signal.drive (s : Signal) (value : Expr) : Stmt :=
  .assign s.id value

namespace Stmt

-- ---------------------------------------------------------------------------
-- Equality
-- ---------------------------------------------------------------------------

mutual
/-- Decides whether two statements are the same tree. -/
def decEq : (a b : Stmt) → Decidable (a = b)
  | assign s e, assign t f => decidable_of_iff (s = t ∧ e = f) (by simp)
  | guard c as, guard d bs =>
    have := decEqAll as bs
    decidable_of_iff (c = d ∧ as = bs) (by simp)
  | assign _ _, guard _ _ => isFalse (by simp)
  | guard _ _, assign _ _ => isFalse (by simp)

/-- Decides whether two statement lists are the same, tree by tree. -/
def decEqAll : (as bs : List Stmt) → Decidable (as = bs)
  | [], [] => isTrue rfl
  | a :: as, b :: bs =>
    have := decEq a b
    have := decEqAll as bs
    decidable_of_iff (a = b ∧ as = bs) (by simp)
  | [], _ :: _ => isFalse (by simp)
  | _ :: _, [] => isFalse (by simp)
end

instance : DecidableEq Stmt :=
  decEq

-- ---------------------------------------------------------------------------
-- Driven nets
-- ---------------------------------------------------------------------------

mutual
/-- The nets a statement may drive, at any depth of guards, in program order. -/
def targets : Stmt → List SignalId
  | assign s _ => [s]
  | guard _ body => targetsAll body

/-- The nets a statement list may drive, in program order and with repetitions. -/
def targetsAll : List Stmt → List SignalId
  | [] => []
  | s :: rest => s.targets ++ targetsAll rest
end

theorem targetsAll_eq_flatMap (ss : List Stmt) : targetsAll ss = ss.flatMap targets := by
  induction ss with
  | nil => rfl
  | cons s rest ih => simp [targetsAll, ih]

@[simp] theorem targetsAll_append (ss ts : List Stmt) :
    targetsAll (ss ++ ts) = targetsAll ss ++ targetsAll ts := by
  simp [targetsAll_eq_flatMap]

-- ---------------------------------------------------------------------------
-- Read nets
-- ---------------------------------------------------------------------------

mutual
/-- The nets a statement reads, in values and in conditions, in program order. -/
def reads : Stmt → List SignalId
  | assign _ e => e.reads
  | guard c body => c.reads ++ readsAll body

/-- The nets a statement list reads, in program order and with repetitions. -/
def readsAll : List Stmt → List SignalId
  | [] => []
  | s :: rest => s.reads ++ readsAll rest
end

theorem readsAll_eq_flatMap (ss : List Stmt) : readsAll ss = ss.flatMap reads := by
  induction ss with
  | nil => rfl
  | cons s rest ih => simp [readsAll, ih]

@[simp] theorem readsAll_append (ss ts : List Stmt) :
    readsAll (ss ++ ts) = readsAll ss ++ readsAll ts := by
  simp [readsAll_eq_flatMap]

-- ---------------------------------------------------------------------------
-- Renaming
-- ---------------------------------------------------------------------------

mutual
/-- The same statement over renamed nets. -/
def rename (f : SignalId → SignalId) : Stmt → Stmt
  | assign s e => assign (f s) (e.rename f)
  | guard c body => guard (c.rename f) (renameAll f body)

/-- The same statements over renamed nets. -/
def renameAll (f : SignalId → SignalId) : List Stmt → List Stmt
  | [] => []
  | s :: rest => s.rename f :: renameAll f rest
end

theorem renameAll_eq_map (f : SignalId → SignalId) (ss : List Stmt) :
    renameAll f ss = ss.map (rename f) := by
  induction ss with
  | nil => rfl
  | cons s rest ih => simp [renameAll, ih]

theorem renameAll_append (f : SignalId → SignalId) (ss ts : List Stmt) :
    renameAll f (ss ++ ts) = renameAll f ss ++ renameAll f ts := by
  simp [renameAll_eq_map]

theorem renameAll_flatMap {α : Type} (f : SignalId → SignalId) (g : α → List Stmt) (l : List α) :
    renameAll f (l.flatMap g) = l.flatMap fun a => renameAll f (g a) := by
  simp [renameAll_eq_map, List.map_flatMap]

theorem renameAll_flatten (f : SignalId → SignalId) (parts : List (List Stmt)) :
    renameAll f parts.flatten = (parts.map (renameAll f)).flatten := by
  induction parts with
  | nil => rfl
  | cons part rest ih => simp [renameAll_append, ih]

-- ---------------------------------------------------------------------------
-- Listing
-- ---------------------------------------------------------------------------

mutual
/-- One line of text. A guard without statements keeps its braces, one blank apart. -/
def render : Stmt → String
  | assign s e => "s" ++ toString s ++ " = " ++ e.render
  | guard c [] => "if " ++ c.render ++ " \x7b \x7d"
  | guard c (s :: rest) =>
    "if " ++ c.render ++ " \x7b " ++ "; ".intercalate (s.render :: renderAll rest) ++ " \x7d"

/-- The lines of a statement list. -/
def renderAll : List Stmt → List String
  | [] => []
  | s :: rest => s.render :: renderAll rest
end

end Stmt

end IrqSynth
