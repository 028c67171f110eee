-- SUMMARY: Settling as iteration of passes, and its end for logic whose nets can be ranked.
import IrqSynth.Simulation.Solution
import Mathlib.Logic.Function.Iterate

/-!
# Settling of ranked logic

Combinational logic whose driven nets can be ranked from 1 to `n` comes to rest after `n` passes,
whatever the levels it starts from: pass `k` makes the nets of rank `k` final.

Main statements: `settleWithin_fst` and `settleWithin_snd` (settling as iteration), `restsAt_succ`
(a net comes to rest after what it depends on), `RankedWithin.settleWithin_eq` (ranked logic
settles, in as many passes as it has ranks) and `Simulator.solves_run` (runs end at rest).
-/
namespace IrqSynth

namespace Fragment

variable {f : Fragment} {v w : Levels} {rank : SignalId → Nat} {s : SignalId} {k n m : Nat}

/-! ## Nets that combinational logic leaves alone -/

theorem get?_pass_of_not_mem (hs : s ∉ f.combTargets) : (f.pass v).get? s = v.get? s := by
  rw [get?_pass, Stmt.lastActive?_of_not_mem (mt mem_combTargets.2 hs), if_neg hs, Option.none_or]

theorem get?_settleWithin_of_not_mem (hs : s ∉ f.combTargets) :
    (f.settleWithin n v).1.get? s = v.get? s := by
  induction n generalizing v with
  | zero => rfl
  | succ n ih =>
    rw [settleWithin_succ]
    split
    · rfl
    · rw [ih, get?_pass_of_not_mem hs]

theorem get?_settle_of_not_mem (hs : s ∉ f.combTargets) : (f.settle v).1.get? s = v.get? s :=
  get?_settleWithin_of_not_mem hs

theorem get?_edge_of_not_mem (hs : s ∉ f.syncTargets) : (f.edge v).get? s = v.get? s := by
  rw [get?_edge, Stmt.lastActive?_of_not_mem (mt mem_syncTargets.2 hs), Option.none_or]

/-! ## Settling as iteration -/

theorem settleWithin_eq_of_fixed (hfixed : f.pass (f.pass^[k] v) = f.pass^[k] v) (hk : k < n) :
    f.settleWithin n v = (f.pass^[k] v, true) := by
  induction n generalizing k v with
  | zero => omega
  | succ n ih =>
    rw [settleWithin_succ]
    split
    · rename_i hv
      rw [Function.iterate_fixed hv]
    · rename_i hv
      cases k with
      | zero => exact absurd hfixed hv
      | succ k =>
        rw [Function.iterate_succ_apply] at hfixed ⊢
        exact ih hfixed (by omega)

/-- Settling makes all its passes: those after the first that changes nothing are not missed. -/
theorem settleWithin_fst (f : Fragment) (n : Nat) (v : Levels) :
    (f.settleWithin n v).1 = f.pass^[n] v := by
  induction n generalizing v with
  | zero => rfl
  | succ n ih =>
    rw [settleWithin_succ]
    split
    · rename_i hv
      rw [Function.iterate_fixed hv]
    · rw [ih, Function.iterate_succ_apply]

/-- Logic is reported to rest exactly when the last of the passes changes nothing. -/
theorem settleWithin_snd (f : Fragment) (n : Nat) (v : Levels) :
    (f.settleWithin (n + 1) v).2 = true ↔ f.pass (f.pass^[n] v) = f.pass^[n] v := by
  induction n generalizing v with
  | zero =>
    rw [settleWithin_succ]
    split
    · rename_i hv
      simpa using hv
    · rename_i hv
      simpa [settleWithin] using hv
  | succ n ih =>
    rw [settleWithin_succ]
    split
    · rename_i hv
      rw [Function.iterate_fixed hv, hv]
      simp
    · rw [ih, Function.iterate_succ_apply]

theorem settle_snd (f : Fragment) (v : Levels) : (f.settle v).2 = true ↔
    f.pass (f.pass^[maxSettlePasses - 1] v) = f.pass^[maxSettlePasses - 1] v :=
  settleWithin_snd f (maxSettlePasses - 1) v

/-! ## Nets at rest -/

/-- After `n` passes net `s` has its final level, whatever the levels were. -/
def RestsAt (f : Fragment) (n : Nat) (s : SignalId) : Prop :=
  ∀ v, (f.pass (f.pass^[n] v)).get? s = (f.pass^[n] v).get? s

theorem restsAt_of_not_mem (hs : s ∉ f.combTargets) : f.RestsAt n s :=
  fun _ => get?_pass_of_not_mem hs

theorem RestsAt.mono (h : f.RestsAt n s) (hnm : n ≤ m) : f.RestsAt m s := by
  obtain ⟨k, rfl⟩ := Nat.exists_eq_add_of_le hnm
  intro v
  rw [Function.iterate_add_apply]
  exact h _

/-- A net comes to rest one pass after the nets that its assignments depend on. -/
theorem restsAt_succ (h : ∀ a ∈ Stmt.assignmentsAll f.comb, a.target = s →
    ∀ t ∈ a.reads, f.RestsAt n t) : f.RestsAt (n + 1) s := by
  intro v
  by_cases hs : s ∈ f.combTargets
  · have hlast : Assignment.lastActive? (f.pass (f.pass^[n] v)).read
          (Stmt.assignmentsAll f.comb) s =
        Assignment.lastActive? (f.pass^[n] v).read (Stmt.assignmentsAll f.comb) s := by
      apply Assignment.lastActive?_congr
      intro a ha htarget t ht
      rw [Levels.read, Levels.read, h a ha htarget t ht v]
    rw [Function.iterate_succ_apply', get?_pass, if_pos hs, hlast, get?_pass, if_pos hs]
  · exact get?_pass_of_not_mem hs

theorem pass_iterate_of_restsAt (h : ∀ s, f.RestsAt n s) (v : Levels) :
    f.pass (f.pass^[n] v) = f.pass^[n] v :=
  Levels.ext_get? fun s => h s v

/-- Logic whose nets all come to rest settles to a solution. -/
theorem settle_of_restsAt (h : ∀ s, f.RestsAt n s) (hn : n < maxSettlePasses) (v : Levels) :
    (f.settle v).2 = true ∧ f.Solves (f.settle v).1 := by
  have hrest : (f.settle v).2 = true := by
    rw [settle, settleWithin_eq_of_fixed (pass_iterate_of_restsAt h v) hn]
  exact ⟨hrest, solves_settleWithin hrest⟩

/-! ## Ranked logic -/

/-- Every driven net has a rank from 1 to `n`, above the ranks of the driven nets it depends on. -/
structure RankedWithin (f : Fragment) (rank : SignalId → Nat) (n : Nat) : Prop where
  reads : f.RankedBy rank
  pos : ∀ s ∈ f.combTargets, 1 ≤ rank s
  le : ∀ s ∈ f.combTargets, rank s ≤ n

/-- Two records agree on the nets that are not driven and on those of rank at most `k`. -/
def AgreeUpTo (f : Fragment) (rank : SignalId → Nat) (k : Nat) (v w : Levels) : Prop :=
  ∀ s, s ∉ f.combTargets ∨ rank s ≤ k → v.get? s = w.get? s

theorem AgreeUpTo.pass (hrank : f.RankedBy rank) (h : f.AgreeUpTo rank k v w) :
    f.AgreeUpTo rank (k + 1) (f.pass v) (f.pass w) := by
  intro s hs
  by_cases hd : s ∈ f.combTargets
  · have hle : rank s ≤ k + 1 := hs.resolve_left (not_not_intro hd)
    have hlast : Assignment.lastActive? v.read (Stmt.assignmentsAll f.comb) s =
        Assignment.lastActive? w.read (Stmt.assignmentsAll f.comb) s := by
      apply Assignment.lastActive?_congr
      rintro a ha rfl t ht
      have hget : v.get? t = w.get? t := by
        apply h
        by_cases htd : t ∈ f.combTargets
        · have hlt := hrank a ha t ht htd
          exact .inr (by omega)
        · exact .inl htd
      rw [Levels.read, Levels.read, hget]
    rw [get?_pass, get?_pass, if_pos hd, if_pos hd, hlast]
  · rw [get?_pass_of_not_mem hd, get?_pass_of_not_mem hd]
    exact h s (.inl hd)

namespace RankedWithin

theorem agreeUpTo_iterate (h : f.RankedWithin rank n) (v : Levels) (k : Nat) :
    f.AgreeUpTo rank k (f.pass (f.pass^[k] v)) (f.pass^[k] v) := by
  induction k with
  | zero =>
    intro s hs
    by_cases hd : s ∈ f.combTargets
    · have hpos := h.pos s hd
      have hle := hs.resolve_left (not_not_intro hd)
      omega
    · exact get?_pass_of_not_mem hd
  | succ k ih =>
    rw [Function.iterate_succ_apply']
    exact ih.pass h.reads

/-- After as many passes as there are ranks nothing changes any more. -/
theorem pass_iterate (h : f.RankedWithin rank n) (v : Levels) :
    f.pass (f.pass^[n] v) = f.pass^[n] v := by
  apply Levels.ext_get?
  intro s
  apply h.agreeUpTo_iterate v n s
  by_cases hd : s ∈ f.combTargets
  · exact .inr (h.le s hd)
  · exact .inl hd

theorem restsAt (h : f.RankedWithin rank n) (s : SignalId) : f.RestsAt n s :=
  fun v => congrArg (Levels.get? · s) (h.pass_iterate v)

theorem settleWithin_eq (h : f.RankedWithin rank n) (hm : n < m) (v : Levels) :
    f.settleWithin m v = (f.pass^[n] v, true) :=
  settleWithin_eq_of_fixed (h.pass_iterate v) hm

/-- Ranked logic settles to a solution, and leaves alone what it does not drive. -/
theorem settle_spec (h : f.RankedWithin rank n) (hn : n < maxSettlePasses) (v : Levels) :
    (f.settle v).2 = true ∧ f.Solves (f.settle v).1 ∧
      ∀ s ∉ f.combTargets, (f.settle v).1.get? s = v.get? s := by
  have hrest : (f.settle v).2 = true := by rw [settle, h.settleWithin_eq hn]
  exact ⟨hrest, solves_settleWithin hrest, fun s hs => get?_settle_of_not_mem hs⟩

end RankedWithin

end Fragment

/-! ## Runs -/

namespace Simulator

variable {f : Fragment} {n : Nat} {actions : List Action}

/-- Logic whose nets all come to rest settles at every point of every run. -/
theorem settles_run (h : ∀ s, f.RestsAt n s) (hn : n < maxSettlePasses) (actions : List Action) :
    ((start f).run actions).settle.2 = true := by
  rw [settle_snd, fragment_run_start]
  exact (Fragment.settle_of_restsAt h hn _).1

/-- In a run that does not end with a forced level the logic is at rest. -/
theorem solves_run (h : ∀ s, f.RestsAt n s) (hn : n < maxSettlePasses)
    (hrest : ∀ x b, actions.getLast? ≠ some (.set x b)) :
    f.Solves ((start f).run actions).levels := by
  have hsettle (v : Levels) : f.Solves (f.settle v).1 := (Fragment.settle_of_restsAt h hn v).2
  rcases List.eq_nil_or_concat actions with rfl | ⟨before, last, rfl⟩
  · exact hsettle .empty
  · rw [List.concat_eq_append] at hrest ⊢
    rw [run_concat]
    cases last with
    | set x b => exact absurd List.getLast?_concat (hrest x b)
    | settle =>
      rw [act, levels_settle, fragment_run_start]
      exact hsettle _
    | tick =>
      rw [act, levels_tick, fragment_run_start]
      exact hsettle _

end Simulator

end IrqSynth
