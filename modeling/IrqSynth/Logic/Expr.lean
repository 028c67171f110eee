-- SUMMARY: Boolean expressions over nets: evaluation, nets read, and disjunctions of lists.
import IrqSynth.Signal

/-!
# Expressions

Boolean expressions over nets. An expression is kept exactly as it is built: nothing is simplified,
and two expressions are equal when their trees are.

Main statements: `eval_disjunction` (the reduction of a list is high when a member is) and
`eval_congr` (a value depends on the nets read alone).
-/
namespace IrqSynth

inductive Expr where
  | lit (value : Bool)
  | signal (id : SignalId)
  | not (arg : Expr)
  | and (left right : Expr)
  | or (left right : Expr)
  deriving DecidableEq, Repr

namespace Expr

/-- The value of an expression when net `s` has the level `ρ s`. -/
def eval (ρ : SignalId → Bool) : Expr → Bool
  | lit b => b
  | signal s => ρ s
  | not e => !e.eval ρ
  | and a b => a.eval ρ && b.eval ρ
  | or a b => a.eval ρ || b.eval ρ

/-- The disjunction of a list, grouped to the left. The empty disjunction is constant 0. -/
def disjunction : List Expr → Expr
  | [] => lit false
  | e :: es => es.foldl or e

/-- The nets an expression reads, from left to right and with repetitions. -/
def reads : Expr → List SignalId
  | lit _ => []
  | signal s => [s]
  | not e => e.reads
  | and a b => a.reads ++ b.reads
  | or a b => a.reads ++ b.reads

/-- The same tree over renamed nets. -/
def rename (f : SignalId → SignalId) : Expr → Expr
  | lit b => lit b
  | signal s => signal (f s)
  | not e => not (e.rename f)
  | and a b => and (a.rename f) (b.rename f)
  | or a b => or (a.rename f) (b.rename f)

/-- Fully bracketed text; a net is written `s` and its id. -/
def render : Expr → String
  | lit false => "0"
  | lit true => "1"
  | signal s => "s" ++ toString s
  | not e => "!" ++ e.render
  | and a b => "(" ++ a.render ++ " & " ++ b.render ++ ")"
  | or a b => "(" ++ a.render ++ " | " ++ b.render ++ ")"

-- ---------------------------------------------------------------------------
-- Laws of evaluation
-- ---------------------------------------------------------------------------

theorem eval_congr {ρ σ : SignalId → Bool} {e : Expr} (h : ∀ s ∈ e.reads, ρ s = σ s) :
    e.eval ρ = e.eval σ := by
  induction e with
  | lit b => rfl
  | signal s => exact h s (by simp [reads])
  | not e ih => simp only [eval, ih h]
  | and a b iha ihb =>
    simp only [eval, iha fun s hs => h s (List.mem_append_left _ hs),
      ihb fun s hs => h s (List.mem_append_right _ hs)]
  | or a b iha ihb =>
    simp only [eval, iha fun s hs => h s (List.mem_append_left _ hs),
      ihb fun s hs => h s (List.mem_append_right _ hs)]

theorem eval_foldl_or (ρ : SignalId → Bool) (es : List Expr) (e : Expr) :
    (es.foldl or e).eval ρ = (e.eval ρ || es.any fun t => t.eval ρ) := by
  induction es generalizing e with
  | nil => simp
  | cons t ts ih => simp only [List.foldl_cons, ih, eval, List.any_cons, Bool.or_assoc]

/-- The reduction of a list is high exactly when one of its members is. -/
@[simp] theorem eval_disjunction (ρ : SignalId → Bool) (es : List Expr) :
    (disjunction es).eval ρ = es.any fun t => t.eval ρ := by
  cases es with
  | nil => rfl
  | cons e es => simp [disjunction, eval_foldl_or]

theorem rename_foldl_or (f : SignalId → SignalId) (es : List Expr) (e : Expr) :
    (es.foldl or e).rename f = (es.map (rename f)).foldl or (e.rename f) := by
  induction es generalizing e with
  | nil => rfl
  | cons t ts ih => exact ih (or e t)

theorem rename_disjunction (f : SignalId → SignalId) (es : List Expr) :
    (disjunction es).rename f = disjunction (es.map (rename f)) := by
  cases es with
  | nil => rfl
  | cons e es => exact rename_foldl_or f es e

theorem mem_reads_and_signal {s a b : SignalId} :
    s ∈ (and (signal a) (signal b)).reads ↔ s = a ∨ s = b := by
  simp [reads]

theorem mem_reads_foldl_or {s : SignalId} (es : List Expr) (e : Expr) :
    s ∈ (es.foldl or e).reads ↔ s ∈ e.reads ∨ ∃ t ∈ es, s ∈ t.reads := by
  induction es generalizing e with
  | nil => simp
  | cons t ts ih => simp [ih, reads, or_assoc]

/-- The reduction of a list reads what its members read. -/
theorem mem_reads_disjunction {s : SignalId} {es : List Expr} :
    s ∈ (disjunction es).reads ↔ ∃ t ∈ es, s ∈ t.reads := by
  cases es with
  | nil => simp [disjunction, reads]
  | cons e es => simp [disjunction, mem_reads_foldl_or]

end Expr

end IrqSynth
