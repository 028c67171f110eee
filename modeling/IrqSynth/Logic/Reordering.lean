-- SUMMARY: Reorderings of statement lists that keep the assignments to every net in order.
import IrqSynth.Logic.Assignment

/-!
# Reordering

Statements that drive no net in common may change places, in a list or inside a guard. Every net then
keeps its assignments, in the same order, and so the one that decides.

Main statements: `Reordered.of_perm` (lists of statements for different nets),
`Reordered.assignmentsTo_eq` and `Reordered.lastActive?_eq`.
-/
namespace IrqSynth

/-- For one net only the assignments to that net matter. -/
theorem Assignment.lastActive?_filter (ρ : SignalId → Bool) (as : List Assignment) (s : SignalId) :
    lastActive? ρ (as.filter fun a => a.target = s) s = lastActive? ρ as s := by
  have hfilter : (as.filter fun a => a.target = s).filter (fun a => a.target = s && a.active ρ) =
      as.filter fun a => a.target = s && a.active ρ := by
    rw [List.filter_filter]
    refine List.filter_congr fun a _ => ?_
    rw [Bool.and_right_comm, Bool.and_self]
  rw [lastActive?, hfilter, lastActive?]

namespace Stmt

/-- Two lists that differ in the order of statements without a common driven net. -/
inductive Reordered : List Stmt → List Stmt → Prop where
  | refl (ss : List Stmt) : Reordered ss ss
  | swap (a b : Stmt) (rest : List Stmt) (apart : ∀ s ∈ a.targets, s ∉ b.targets) :
    Reordered (a :: b :: rest) (b :: a :: rest)
  | cons (a : Stmt) {ss ts : List Stmt} (tail : Reordered ss ts) : Reordered (a :: ss) (a :: ts)
  | guard (c : Expr) (rest : List Stmt) {ss ts : List Stmt} (body : Reordered ss ts) :
    Reordered (guard c ss :: rest) (guard c ts :: rest)
  | trans {ss ts us : List Stmt} (first : Reordered ss ts) (second : Reordered ts us) :
    Reordered ss us

/-- The assignments to one net, in program order. -/
def assignmentsTo (s : SignalId) (ss : List Stmt) : List Assignment :=
  (assignmentsAll ss).filter fun a => a.target = s

variable {ss ts : List Stmt} {s : SignalId}

theorem assignmentsTo_cons (s : SignalId) (a : Stmt) (ss : List Stmt) :
    assignmentsTo s (a :: ss) =
      (a.assignments.filter fun b => b.target = s) ++ assignmentsTo s ss := by
  rw [assignmentsTo, assignmentsAll, List.filter_append, assignmentsTo]

theorem filter_assignments_guard (s : SignalId) (c : Expr) (ss : List Stmt) :
    ((guard c ss).assignments.filter fun a => a.target = s) =
      (assignmentsTo s ss).map (.under c) := by
  rw [assignments, List.filter_map, assignmentsTo]
  rfl

theorem filter_assignments_eq_nil {a : Stmt} (hs : s ∉ a.targets) :
    (a.assignments.filter fun b => b.target = s) = [] := by
  rw [List.filter_eq_nil_iff]
  intro b hb
  rw [targets_eq_map, List.mem_map] at hs
  simpa using fun htarget => hs ⟨b, hb, htarget⟩

theorem mem_targetsAll_iff : s ∈ targetsAll ss ↔ assignmentsTo s ss ≠ [] := by
  rw [targetsAll_eq_map, List.mem_map, assignmentsTo, ne_eq, List.filter_eq_nil_iff]
  simp

namespace Reordered

/-- Statements of which no two drive a common net may come in any order. -/
theorem of_perm (h : ss.Perm ts) (apart : ss.Pairwise fun a b => ∀ s ∈ a.targets, s ∉ b.targets) :
    Reordered ss ts := by
  induction h with
  | nil => exact .refl []
  | cons a _ ih => exact .cons a (ih apart.of_cons)
  | swap a b rest => exact .swap b a rest (List.rel_of_pairwise_cons apart List.mem_cons_self)
  | trans first second ihFirst ihSecond =>
    have hmiddle := (first.pairwise_iff fun h s hs ht => h s ht hs).1 apart
    exact .trans (ihFirst apart) (ihSecond hmiddle)

/-- Every net keeps its assignments, in the same order. -/
theorem assignmentsTo_eq (h : Reordered ss ts) (s : SignalId) :
    assignmentsTo s ss = assignmentsTo s ts := by
  induction h with
  | refl ss => rfl
  | swap a b rest apart =>
    simp only [assignmentsTo_cons]
    by_cases hs : s ∈ a.targets
    · rw [filter_assignments_eq_nil (apart s hs), List.nil_append, List.nil_append]
    · rw [filter_assignments_eq_nil hs, List.nil_append, List.nil_append]
  | cons a tail ih => rw [assignmentsTo_cons, assignmentsTo_cons, ih]
  | guard c rest body ih =>
    simp only [assignmentsTo_cons, filter_assignments_guard, ih]
  | trans first second ihFirst ihSecond => exact ihFirst.trans ihSecond

theorem mem_targetsAll (h : Reordered ss ts) : s ∈ targetsAll ss ↔ s ∈ targetsAll ts := by
  rw [mem_targetsAll_iff, mem_targetsAll_iff, h.assignmentsTo_eq s]

/-- The same assignment to a net is the last active one. -/
theorem lastActive?_eq (h : Reordered ss ts) (ρ : SignalId → Bool) (s : SignalId) :
    Assignment.lastActive? ρ (assignmentsAll ss) s =
      Assignment.lastActive? ρ (assignmentsAll ts) s := by
  have hsame : (assignmentsAll ss).filter (fun a => a.target = s) =
      (assignmentsAll ts).filter fun a => a.target = s := h.assignmentsTo_eq s
  rw [← Assignment.lastActive?_filter, hsame, Assignment.lastActive?_filter]

end Reordered

end Stmt

end IrqSynth
