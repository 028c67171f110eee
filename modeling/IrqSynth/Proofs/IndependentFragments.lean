-- SUMMARY: Fragments that drive nothing the other mentions behave together as they do alone.
import IrqSynth.Proofs.GovernedNets

/-!
# Independent fragments

Two fragments of which neither mentions what the other drives may be simulated together: each
behaves as it does alone, even if the other never comes to rest.

Main statement: `independent_fragments_compose`.
-/
namespace IrqSynth

namespace Fragment

/-- Neither fragment mentions a net that the other drives. -/
structure Independent (f g : Fragment) : Prop where
  left : ∀ s, f.Drives s → ¬g.Mentions s
  right : ∀ s, g.Drives s → ¬f.Mentions s

/-- A list of parts in which just `f` and `g` occur, in any order and number. -/
def Joins (parts : List Fragment) (f g : Fragment) : Prop :=
  ∀ p, p ∈ parts ↔ p = f ∨ p = g

variable {f g : Fragment} {parts : List Fragment} {s : SignalId} {v vf vg : Levels}

theorem Independent.symm (hi : f.Independent g) : g.Independent f :=
  ⟨hi.right, hi.left⟩

theorem Joins.symm (hj : Joins parts f g) : Joins parts g f :=
  fun p => (hj p).trans or_comm

theorem Joins.mem_leftTo (hj : Joins parts f g) (hs : ¬g.Drives s) : s ∈ leftTo parts f := by
  intro p hp
  rcases (hj p).1 hp with rfl | rfl
  · exact .inl rfl
  · exact .inr hs

theorem Independent.governs (hi : f.Independent g) (hj : Joins parts f g) :
    f.Governs (concat parts) (leftTo parts f) := by
  apply governs_concat ((hj f).2 (.inl rfl))
  intro p hp
  rcases (hj p).1 hp with rfl | rfl
  · exact .inl rfl
  · exact .inr hi.right

theorem Independent.mem_leftTo_of_combTargets (hi : f.Independent g) (hj : Joins parts f g)
    (hs : s ∈ f.combTargets) : s ∈ leftTo parts f :=
  hj.mem_leftTo fun hdrives => hi.right s hdrives (.inl (.inl hs))

theorem Independent.mem_leftTo (hi : f.Independent g) (hj : Joins parts f g) (s : SignalId) :
    s ∈ leftTo parts f ∨ s ∈ leftTo parts g := by
  by_cases hs : g.Drives s
  · exact .inr (hj.symm.mem_leftTo fun hdrives => hi.right s hs (.inl hdrives))
  · exact .inl (hj.mem_leftTo hs)

/-- The joined logic is at rest exactly when both parts are. -/
theorem Independent.pass_eq_iff (hi : f.Independent g) (hj : Joins parts f g)
    (hf : AgreeOn (leftTo parts f) v vf) (hg : AgreeOn (leftTo parts g) v vg) :
    (concat parts).pass v = v ↔ f.pass vf = vf ∧ g.pass vg = vg := by
  rw [(hi.governs hj).pass_eq_iff hf fun s => hi.mem_leftTo_of_combTargets hj,
    (hi.symm.governs hj.symm).pass_eq_iff hg fun s => hi.symm.mem_leftTo_of_combTargets hj.symm]
  constructor
  · intro hfixed
    rw [hfixed]
    exact ⟨.refl _ _, .refl _ _⟩
  · rintro ⟨hleft, hright⟩
    apply Levels.ext_get?
    intro s
    exact (hi.mem_leftTo hj s).elim (hleft s) (hright s)

/-- The joined logic comes to rest exactly when both parts do. If one does not, all passes are made,
and those in excess leave the other as it is. -/
theorem Independent.settle_snd (hi : f.Independent g) (hj : Joins parts f g)
    (hf : AgreeOn (leftTo parts f) v vf) (hg : AgreeOn (leftTo parts g) v vg) :
    ((concat parts).settle v).2 = ((f.settle vf).2 && (g.settle vg).2) := by
  rw [Bool.eq_iff_iff, Bool.and_eq_true, Fragment.settle_snd, Fragment.settle_snd,
    Fragment.settle_snd]
  exact hi.pass_eq_iff hj ((hi.governs hj).iterate hf _) ((hi.symm.governs hj.symm).iterate hg _)

end Fragment

open Fragment

/-- Two fragments that mention nothing of what the other drives, whether they come to rest or not,
behave in either order of joining as they do alone: after every run, each net that one of them does
not drive has the level it has with the other alone, and the joined logic settles when both do. -/
theorem independent_fragments_compose {f g : Fragment} (hi : f.Independent g)
    (actions : List Simulator.Action) :
    let left := (Simulator.start f).run actions
    let right := (Simulator.start g).run actions
    ∀ h ∈ [f ++ g, g ++ f],
      let joined := (Simulator.start h).run actions
      (∀ s, ¬g.Drives s → joined.read s = left.read s) ∧
        (∀ s, ¬f.Drives s → joined.read s = right.read s) ∧
        joined.cycle = left.cycle ∧ joined.cycle = right.cycle ∧
        joined.settle.2 = (left.settle.2 && right.settle.2) := by
  intro left right h hh joined
  obtain ⟨parts, hj, rfl⟩ : ∃ parts, Joins parts f g ∧ h = concat parts := by
    have horders : h = f ++ g ∨ h = g ++ f := by simpa using hh
    rcases horders with rfl | rfl
    · exact ⟨[f, g], fun p => by simp, (concat_pair f g).symm⟩
    · exact ⟨[g, f], fun p => by simp [or_comm], (concat_pair g f).symm⟩
  have hleft := (hi.governs hj).run actions
  have hright := (hi.symm.governs hj.symm).run actions
  have hfragment (e : Fragment) : ((Simulator.start e).run actions).fragment = e :=
    Simulator.fragment_run _ _
  refine ⟨fun s hs => hleft.read (hj.mem_leftTo hs),
    fun s hs => hright.read (hj.symm.mem_leftTo hs), ?_, ?_, ?_⟩
  · rw [Simulator.cycle_run, Simulator.cycle_run]
    rfl
  · rw [Simulator.cycle_run, Simulator.cycle_run]
    rfl
  · have hsettle := hi.settle_snd hj hleft hright
    simp only [Simulator.settle, joined, left, right, hfragment]
    exact hsettle

/-- Net 0 is its own complement and never comes to rest. -/
def oscillator : Fragment :=
  ⟨[.assign 0 (.not (.signal 0))], []⟩

/-- Net 2 follows net 1, and net 3 samples it at clock edges. -/
def sampler : Fragment :=
  ⟨[.assign 2 (.signal 1)], [.assign 3 (.signal 2)]⟩

/-- Beside logic that never comes to rest a level is sampled as usual. -/
theorem sampler_beside_oscillator :
    let joined := (Simulator.start (sampler ++ oscillator)).run [.set 1 true, .tick]
    oscillator.Independent sampler ∧ joined.read 3 = true ∧ joined.cycle = 1 ∧
      joined.settle.2 = false := by
  intro joined
  have hi : oscillator.Independent sampler := by
    constructor
    · intro s hs
      obtain rfl : s = 0 := by simpa [Drives, oscillator, Stmt.targetsAll, Stmt.targets] using hs
      simp [Mentions, Drives, sampler, Stmt.targetsAll, Stmt.targets, Stmt.readsAll, Stmt.reads,
        Expr.reads]
    · intro s hs
      obtain rfl | rfl : s = 2 ∨ s = 3 := by
        simpa [Drives, sampler, Stmt.targetsAll, Stmt.targets] using hs
      all_goals simp [Mentions, Drives, oscillator, Stmt.targetsAll, Stmt.targets, Stmt.readsAll,
        Stmt.reads, Expr.reads]
  obtain ⟨-, hsampler, -, hcycle, hsettle⟩ := independent_fragments_compose hi
    [.set 1 true, .tick] (sampler ++ oscillator) (by simp)
  refine ⟨hi, ?_, ?_, ?_⟩
  · rw [hsampler 3 (by simp [Drives, oscillator, Stmt.targetsAll, Stmt.targets])]
    decide +kernel
  · rw [hcycle]
    decide +kernel
  · rw [hsettle]
    decide +kernel

end IrqSynth
