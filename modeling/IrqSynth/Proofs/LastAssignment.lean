-- SUMMARY: A pass over a statement list is decided by the last active assignment to each net.
import IrqSynth.Proofs.UniqueSolution

/-!
# The last active assignment

A pass over a statement list is told in full by its last active assignments: a net takes the value that
the last of them has on the levels before the pass, however deep its guards nest, and a net without one
keeps its entry. What a pass writes, no other part of the pass reads.

Main statements: `get?_execAll_of_active` and `get?_execAll_of_inactive` (every net),
`get?_execAll_eq_or` (a pass lays the same entries over any levels) and
`last_active_assignment_decides`.
-/
namespace IrqSynth

namespace Stmt

variable {old next : Levels} {ss ts : List Stmt} {s : SignalId}

/-! ## One pass -/

theorem get?_execAll_of_active {before after : List Assignment} {a : Assignment}
    (hsplit : assignmentsAll ss = before ++ a :: after) (hactive : a.active old.read)
    (hlast : ∀ b ∈ after, b.target = a.target → b.active old.read = false) :
    (execAll old ss next).get? a.target = some (a.value.eval old.read) := by
  rw [get?_execAll, hsplit, Assignment.lastActive?_of_append_cons hactive hlast, Option.some_or]

theorem get?_execAll_of_inactive
    (h : ∀ a ∈ assignmentsAll ss, a.target = s → a.active old.read = false) :
    (execAll old ss next).get? s = next.get? s := by
  rw [get?_execAll, Assignment.lastActive?_eq_none_iff.2 h, Option.none_or]

/-- A pass changes nets that it has an assignment for. -/
theorem get?_execAll_of_not_mem (hs : s ∉ targetsAll ss) :
    (execAll old ss next).get? s = next.get? s := by
  rw [get?_execAll, lastActive?_of_not_mem hs, Option.none_or]

/-- The entries of a pass do not depend on the levels that it writes to. -/
theorem get?_execAll_eq_or (old : Levels) (ss : List Stmt) (next : Levels) (s : SignalId) :
    (execAll old ss next).get? s = ((execAll old ss .empty).get? s).or (next.get? s) := by
  rw [get?_execAll, get?_execAll old ss .empty, Levels.get?_empty, Option.or_none]

/-! ## Several passes -/

theorem execAll_execAll (old : Levels) (ss : List Stmt) (next : Levels) :
    execAll old ss (execAll old ss next) = execAll old ss next := by
  apply Levels.ext_get?
  intro s
  rw [get?_execAll_eq_or, get?_execAll_eq_or old ss next, ← Option.or_assoc, Option.or_self]

theorem execAll_eq_of_reordered (h : Reordered ss ts) (old next : Levels) :
    execAll old ts next = execAll old ss next := by
  apply Levels.ext_get?
  intro s
  rw [get?_execAll, get?_execAll, h.lastActive?_eq]

/-- What a later part of a list writes is what it writes alone. -/
theorem get?_execAll_append (old : Levels) (ss ts : List Stmt) (next : Levels) (s : SignalId) :
    (execAll old (ss ++ ts) next).get? s =
      ((execAll old ts .empty).get? s).or ((execAll old ss next).get? s) := by
  rw [execAll_append, get?_execAll_eq_or]

end Stmt

open Stmt

/-! ## Main result -/

/-- A pass over statements of any nesting, from any levels and onto any levels. The last assignment to
a net of which all enclosing conditions hold on the old levels gives the net its value on the old
levels; a net without one keeps its entry, present or absent. So only the nets that the list may drive
change, statements for different nets may be reordered, a second pass changes nothing, and no part of
the list sees what an earlier part has assigned. -/
theorem last_active_assignment_decides (ss : List Stmt) (old next : Levels) :
    let after := execAll old ss next
    (∀ earlier a later, assignmentsAll ss = earlier ++ a :: later → a.active old.read →
        (∀ b ∈ later, b.target = a.target → b.active old.read = false) →
        after.get? a.target = some (a.value.eval old.read)) ∧
      (∀ s, (∀ a ∈ assignmentsAll ss, a.target = s → a.active old.read = false) →
        after.get? s = next.get? s) ∧
      (∀ s ∉ targetsAll ss, after.get? s = next.get? s) ∧
      (∀ ts, Reordered ss ts → execAll old ts next = after) ∧
      (∀ ts, ss.Perm ts → (ss.Pairwise fun a b => ∀ s ∈ a.targets, s ∉ b.targets) →
        execAll old ts next = after) ∧
      execAll old ss after = after ∧ execAll old (ss ++ ss) next = after ∧
      ∀ ts s, (execAll old (ss ++ ts) next).get? s =
        ((execAll old ts .empty).get? s).or (after.get? s) := by
  intro after
  refine ⟨?_, ?_, ?_, ?_, ?_, execAll_execAll old ss next, ?_, ?_⟩
  · intro earlier a later hsplit hactive hlast
    exact get?_execAll_of_active hsplit hactive hlast
  · intro s hinactive
    exact get?_execAll_of_inactive hinactive
  · intro s hs
    exact get?_execAll_of_not_mem hs
  · intro ts horder
    exact execAll_eq_of_reordered horder old next
  · intro ts hperm hapart
    exact execAll_eq_of_reordered (.of_perm hperm hapart) old next
  · rw [execAll_append]
    exact execAll_execAll old ss next
  · intro ts s
    exact get?_execAll_append old ss ts next s

/-- Two assignments to net 3 are active, and an assignment to net 2 comes after conditions that read
it. Net 3 takes the value of the second, net 5 one computed from the old level of net 4, and net 9
keeps having no entry. -/
theorem gated_chain_pass :
    let old := ((Levels.empty.set 0 true).set 1 true).set 2 true
    let after := execAll old gatedChain.comb .empty
    after.get? 3 = some false ∧ after.get? 5 = some true ∧ after.get? 9 = none ∧
      execAll old gatedChainReordered.comb .empty = after ∧
      execAll old gatedChain.comb after = after := by
  intro old after
  obtain ⟨hactive, -, hkept, horder, -, htwice, -, -⟩ :=
    last_active_assignment_decides gatedChain.comb old .empty
  have hreordered : Reordered gatedChain.comb gatedChainReordered.comb :=
    .trans (.swap _ _ _ (by decide)) (.guard _ _ (.cons _ (.swap _ _ _ (by decide))))
  refine ⟨?_, ?_, ?_, horder _ hreordered, htwice⟩
  · exact hactive [⟨[], 4, .and (.signal 2) (.signal 3)⟩, ⟨[.signal 2], 3, .signal 0⟩]
      ⟨[.signal 2, .signal 1], 3, .lit false⟩ _ rfl (by decide +kernel) (by decide +kernel)
  · exact hactive [_, _, _] ⟨[.signal 2], 5, .not (.signal 4)⟩ _ rfl (by decide +kernel)
      (by decide +kernel)
  · exact hkept 9 (by decide)

end IrqSynth
