-- SUMMARY: Ranked logic has one solution, which settling finds in any order of its statements.
import IrqSynth.Logic.Reordering
import IrqSynth.Proofs.Settling

/-!
# Unique solutions

Ranked logic has one solution for every choice of levels on the nets that it does not drive, and
settling finds it. What was forced on the driven nets before leaves no trace, nor does the order in
which statements for different nets are listed.

Main statements: `RankedBy.read_eq_of_solves` (there is one solution), `RankedWithin.read_settle_eq`
(settling forgets driven nets), `settle_eq_of_reordered` and `ranked_logic_settles_to_unique_solution`.
-/
namespace IrqSynth

open Stmt (Reordered)

namespace Fragment

variable {f g : Fragment} {v w : Levels} {rank : SignalId → Nat} {s : SignalId} {depth : Nat}

/-! ## One solution -/

/-- Solutions of ranked logic that agree on the nets it does not drive agree on every net. -/
theorem RankedBy.read_eq_of_solves (hrank : f.RankedBy rank) (hv : f.Solves v) (hw : f.Solves w)
    (hkept : ∀ t ∉ f.combTargets, v.read t = w.read t) (s : SignalId) : v.read s = w.read s := by
  -- on the rank: what an assignment to a net reads is not driven or ranks below the net
  induction hk : rank s using Nat.strongRecOn generalizing s with
  | ind k ih =>
    by_cases hs : s ∈ f.combTargets
    · have hlast : Assignment.lastActive? v.read (Stmt.assignmentsAll f.comb) s =
          Assignment.lastActive? w.read (Stmt.assignmentsAll f.comb) s := by
        apply Assignment.lastActive?_congr
        rintro a ha rfl t ht
        by_cases htd : t ∈ f.combTargets
        · exact ih (rank t) (hk ▸ hrank a ha t ht htd) t rfl
        · exact hkept t htd
      rw [hv s hs, hw s hs, hlast]
    · exact hkept s hs

theorem read_settle_of_not_mem (v : Levels) (hs : s ∉ f.combTargets) :
    (f.settle v).1.read s = v.read s := by
  rw [Levels.read, Levels.read, get?_settle_of_not_mem hs]

namespace RankedWithin

/-- Settling ends in the solution that keeps the nets which are not driven. -/
theorem read_eq_settle_of_solves (h : f.RankedWithin rank depth) (hdepth : depth < maxSettlePasses)
    (hw : f.Solves w) (hkept : ∀ t ∉ f.combTargets, w.read t = v.read t) (s : SignalId) :
    w.read s = (f.settle v).1.read s := by
  refine h.reads.read_eq_of_solves hw (h.settle_spec hdepth v).2.1 ?_ s
  intro t ht
  rw [hkept t ht, read_settle_of_not_mem v ht]

/-- Levels that differ on driven nets only settle alike. -/
theorem read_settle_eq (h : f.RankedWithin rank depth) (hdepth : depth < maxSettlePasses)
    (hkept : ∀ t ∉ f.combTargets, w.read t = v.read t) (s : SignalId) :
    (f.settle w).1.read s = (f.settle v).1.read s := by
  refine h.read_eq_settle_of_solves hdepth (h.settle_spec hdepth w).2.1 ?_ s
  intro t ht
  rw [read_settle_of_not_mem w ht, hkept t ht]

end RankedWithin

/-! ## Order of statements -/

theorem pass_eq_of_reordered (h : Reordered f.comb g.comb) (v : Levels) : g.pass v = f.pass v := by
  apply Levels.ext_get?
  intro s
  have htargets : s ∈ g.combTargets ↔ s ∈ f.combTargets := by
    rw [mem_combTargets, mem_combTargets, h.mem_targetsAll]
  rw [get?_pass, get?_pass, h.lastActive?_eq]
  simp only [htargets]

theorem settleWithin_congr (h : ∀ v, g.pass v = f.pass v) (n : Nat) (v : Levels) :
    g.settleWithin n v = f.settleWithin n v := by
  induction n generalizing v with
  | zero => rfl
  | succ n ih => rw [settleWithin_succ, settleWithin_succ, h, ih]

/-- Any logic, ranked or not, settles alike in every order of its statements. -/
theorem settle_eq_of_reordered (h : Reordered f.comb g.comb) (v : Levels) :
    g.settle v = f.settle v :=
  settleWithin_congr (pass_eq_of_reordered h) maxSettlePasses v

end Fragment

/-! ## Main result -/

/-- Logic whose driven nets can be ranked from 1 to at most 63 settles from any levels. Every driven
net then has the value of its last active assignment on the levels reached, and every other net the
level it had. No other levels are such a solution: what the driven nets were before and the order of
statements that drive different nets make no difference. -/
theorem ranked_logic_settles_to_unique_solution {sim : Simulator} {rank : SignalId → Nat}
    {depth : Nat} (hrank : sim.fragment.RankedWithin rank depth) (hdepth : depth ≤ 63) :
    let f := sim.fragment
    let after := sim.settle.1
    sim.settle.2 = true ∧
      f.Solves after.levels ∧
      (∀ s ∉ f.combTargets, after.levels.get? s = sim.levels.get? s) ∧
      (∀ w : Levels, f.Solves w → (∀ s ∉ f.combTargets, w.read s = sim.read s) →
        ∀ s, w.read s = after.read s) ∧
      ∀ other : Simulator, Reordered f.comb other.fragment.comb →
        (∀ s ∉ f.combTargets, other.read s = sim.read s) →
        other.settle.2 = true ∧ ∀ s, other.settle.1.read s = after.read s := by
  intro f after
  have hpasses : depth < maxSettlePasses := Nat.lt_succ_of_le hdepth
  obtain ⟨hrest, hsolves, hkept⟩ := hrank.settle_spec hpasses sim.levels
  refine ⟨hrest, hsolves, hkept, ?_, ?_⟩
  · intro w hw hagree
    exact hrank.read_eq_settle_of_solves hpasses hw hagree
  · intro other horder hagree
    have hsame : other.fragment.settle other.levels = f.settle other.levels :=
      Fragment.settle_eq_of_reordered horder other.levels
    refine ⟨?_, ?_⟩
    · rw [Simulator.settle_snd, hsame]
      exact (hrank.settle_spec hpasses other.levels).1
    · intro s
      have hread : other.settle.1.read s = (f.settle other.levels).1.read s := by
        rw [Simulator.read, Simulator.levels_settle, hsame]
      rw [hread]
      exact hrank.read_settle_eq hpasses hagree s

/-- Nets 2 to 5 over the inputs 0 and 1, listed against the direction of the signals. Net 3 is assigned
twice. -/
def gatedChain : Fragment :=
  ⟨[.assign 4 (.and (.signal 2) (.signal 3)),
    .guard (.signal 2)
      [.assign 3 (.signal 0), .guard (.signal 1) [.assign 3 (.lit false)],
        .assign 5 (.not (.signal 4))],
    .assign 2 (.or (.signal 0) (.signal 1))], []⟩

/-- The same statements in another order. The two assignments to net 3 keep theirs. -/
def gatedChainReordered : Fragment :=
  ⟨[.guard (.signal 2)
      [.assign 3 (.signal 0), .assign 5 (.not (.signal 4)),
        .guard (.signal 1) [.assign 3 (.lit false)]],
    .assign 4 (.and (.signal 2) (.signal 3)),
    .assign 2 (.or (.signal 0) (.signal 1))], []⟩

/-- With both inputs high net 3 is low, as its second assignment is active; this holds in either
order, and if nets 3 and 4 were forced high before. -/
theorem gated_chain_settles :
    let sim : Simulator := ⟨gatedChain, (Levels.empty.set 0 true).set 1 true, 0⟩
    let other : Simulator := ⟨gatedChainReordered, (sim.levels.set 3 true).set 4 true, 7⟩
    gatedChain.RankedWithin (· - 1) 4 ∧ Reordered gatedChain.comb gatedChainReordered.comb ∧
      other.settle.2 = true ∧ (∀ s, other.settle.1.read s = sim.settle.1.read s) ∧
      other.settle.1.read 3 = false ∧ other.settle.1.read 5 = true := by
  intro sim other
  have htargets : ∀ s ∈ gatedChain.combTargets, s ∈ [4, 3, 3, 5, 2] := by
    intro s hs
    exact Fragment.mem_combTargets.1 hs
  have hrank : sim.fragment.RankedWithin (· - 1) 4 := by
    refine ⟨?_, ?_, ?_⟩
    · have hreads : ∀ a ∈ Stmt.assignmentsAll gatedChain.comb, ∀ s ∈ a.reads,
          s ∈ [4, 3, 3, 5, 2] → s - 1 < a.target - 1 := by decide
      exact fun a ha s hs hdriven => hreads a ha s hs (htargets s hdriven)
    · exact fun s hs => (by decide : ∀ t ∈ [4, 3, 3, 5, 2], 1 ≤ t - 1) s (htargets s hs)
    · exact fun s hs => (by decide : ∀ t ∈ [4, 3, 3, 5, 2], t - 1 ≤ 4) s (htargets s hs)
  have horder : Reordered gatedChain.comb gatedChainReordered.comb := by
    refine .trans (.swap _ _ _ (by decide)) (.guard _ _ (.cons _ (.swap _ _ _ (by decide))))
  have hagree : ∀ s ∉ gatedChain.combTargets, other.read s = sim.read s := by
    intro s hs
    have hne (t : SignalId) (ht : t ∈ gatedChain.combTargets) : t ≠ s := by
      rintro rfl
      exact hs ht
    have h3 := hne 3 (Fragment.mem_combTargets.2 (by decide))
    have h4 := hne 4 (Fragment.mem_combTargets.2 (by decide))
    rw [Simulator.read, Levels.read_set, if_neg h4, Levels.read_set, if_neg h3, Simulator.read]
  obtain ⟨-, -, -, -, hother⟩ :=
    ranked_logic_settles_to_unique_solution hrank (by decide)
  obtain ⟨hrest, hread⟩ := hother other horder hagree
  refine ⟨hrank, horder, hrest, hread, ?_, ?_⟩
  · rw [hread]
    decide +kernel
  · rw [hread]
    decide +kernel

/-- The bound on the ranks is sharp: four ranks need a fifth pass, which changes nothing. -/
example :
    let f : Fragment := ⟨(List.range 4).map fun k => .assign (k + 1) (.signal k), []⟩
    let v := Levels.empty.set 0 true
    (f.settleWithin 4 v).2 = false ∧ (f.settleWithin 5 v).2 = true := by
  decide +kernel

end IrqSynth
