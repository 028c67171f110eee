-- SUMMARY: A fragment inside a larger one behaves alike on the nets that are left to it.
import IrqSynth.Proofs.Settling
import Mathlib.Data.Set.Basic

/-!
# Logic inside larger logic

Part of the nets of a large fragment may be left to one of the fragments it is made of. On those
nets the two behave alike, whatever happens to the other nets.

Main statements: `governs_concat` (one part of several), `Governs.settle` (agreement survives
settling, however many passes either side takes) and `Governs.run`.
-/
namespace IrqSynth

open Assignment
open Stmt (assignmentsAll assignmentsAll_flatMap targetsAll_eq_map)

/-! ## Agreement on a set of nets -/

/-- Two records have the same entries for the nets of a set. -/
def AgreeOn (S : Set SignalId) (v w : Levels) : Prop :=
  ∀ s ∈ S, v.get? s = w.get? s

namespace AgreeOn

variable {S : Set SignalId} {v w : Levels} {s : SignalId}

theorem refl (S : Set SignalId) (v : Levels) : AgreeOn S v v :=
  fun _ _ => rfl

theorem read (h : AgreeOn S v w) (hs : s ∈ S) : v.read s = w.read s := by
  rw [Levels.read, Levels.read, h s hs]

theorem set (h : AgreeOn S v w) (s : SignalId) (b : Bool) : AgreeOn S (v.set s b) (w.set s b) := by
  intro t ht
  rw [Levels.get?_set, Levels.get?_set, h t ht]

end AgreeOn

/-! ## Governed nets -/

namespace Fragment

variable {f g h : Fragment} {S : Set SignalId} {v w : Levels} {s : SignalId} {n : Nat}

/-- Fragment `h` does with the nets of `S` what `f` does, and this depends on the nets of `S`
alone. -/
structure Governs (f h : Fragment) (S : Set SignalId) : Prop where
  comb : ∀ ρ, ∀ s ∈ S,
    lastActive? ρ (assignmentsAll h.comb) s = lastActive? ρ (assignmentsAll f.comb) s
  sync : ∀ ρ, ∀ s ∈ S,
    lastActive? ρ (assignmentsAll h.sync) s = lastActive? ρ (assignmentsAll f.sync) s
  targets : ∀ s ∈ S, s ∈ h.combTargets ↔ s ∈ f.combTargets
  comb_closed : ∀ a ∈ assignmentsAll f.comb, a.target ∈ S → ∀ t ∈ a.reads, t ∈ S
  sync_closed : ∀ a ∈ assignmentsAll f.sync, a.target ∈ S → ∀ t ∈ a.reads, t ∈ S

namespace Governs

variable (hg : f.Governs h S)
include hg

theorem pass (hvw : AgreeOn S v w) : AgreeOn S (h.pass v) (f.pass w) := by
  intro s hs
  have hlast : lastActive? v.read (assignmentsAll f.comb) s =
      lastActive? w.read (assignmentsAll f.comb) s := by
    apply lastActive?_congr
    rintro a ha rfl t ht
    exact hvw.read (hg.comb_closed a ha hs t ht)
  rw [get?_pass, get?_pass, hg.comb _ s hs, hlast, hvw s hs]
  simp only [hg.targets s hs]

theorem iterate (hvw : AgreeOn S v w) (n : Nat) : AgreeOn S (h.pass^[n] v) (f.pass^[n] w) := by
  induction n with
  | zero => exact hvw
  | succ n ih =>
    rw [Function.iterate_succ_apply', Function.iterate_succ_apply']
    exact hg.pass ih

theorem settle (hvw : AgreeOn S v w) : AgreeOn S (h.settle v).1 (f.settle w).1 := by
  rw [Fragment.settle, Fragment.settle, settleWithin_fst, settleWithin_fst]
  exact hg.iterate hvw maxSettlePasses

/-- The governing fragment is at rest exactly when the larger one is on the governed nets. -/
theorem pass_eq_iff (hvw : AgreeOn S v w) (hdriven : ∀ s ∈ f.combTargets, s ∈ S) :
    f.pass w = w ↔ AgreeOn S (h.pass v) v := by
  have hpass := hg.pass hvw
  constructor
  · intro hfixed s hs
    rw [hpass s hs, hfixed, hvw s hs]
  · intro hfixed
    apply Levels.ext_get?
    intro s
    by_cases hs : s ∈ S
    · rw [← hpass s hs, hfixed s hs, hvw s hs]
    · exact get?_pass_of_not_mem fun hmem => hs (hdriven s hmem)

theorem edge (hvw : AgreeOn S v w) : AgreeOn S (h.edge v) (f.edge w) := by
  intro s hs
  have hlast : lastActive? v.read (assignmentsAll f.sync) s =
      lastActive? w.read (assignmentsAll f.sync) s := by
    apply lastActive?_congr
    rintro a ha rfl t ht
    exact hvw.read (hg.sync_closed a ha hs t ht)
  rw [get?_edge, get?_edge, hg.sync _ s hs, hlast, hvw s hs]

/-- Levels that satisfy the larger logic satisfy the governing one. -/
theorem solves (hv : h.Solves v) (hdriven : ∀ s ∈ f.combTargets, s ∈ S) : f.Solves v := by
  intro s hs
  have hmem := hdriven s hs
  rw [hv s ((hg.targets s hmem).2 hs), hg.comb _ s hmem]

theorem restsAt (hs : s ∈ S) (hrest : f.RestsAt n s) : h.RestsAt n s := by
  intro v
  have hn := hg.iterate (.refl S v) n
  rw [hg.pass hn s hs, hn s hs]
  exact hrest v

end Governs

end Fragment

/-! ## Runs -/

namespace Simulator

variable {f h : Fragment} {S : Set SignalId} {sim sim' : Simulator}

/-- The logic of `sim'` governs nets of the logic of `sim`, and the two agree on them. -/
structure InStep (S : Set SignalId) (sim sim' : Simulator) : Prop where
  governs : sim'.fragment.Governs sim.fragment S
  agree : AgreeOn S sim.levels sim'.levels

namespace InStep

theorem settle (hs : InStep S sim sim') : InStep S sim.settle.1 sim'.settle.1 :=
  ⟨hs.governs, hs.governs.settle hs.agree⟩

theorem tick (hs : InStep S sim sim') : InStep S sim.tick sim'.tick :=
  ⟨hs.governs, hs.governs.settle (hs.governs.edge hs.settle.agree)⟩

theorem act (hs : InStep S sim sim') (action : Action) :
    InStep S (sim.act action) (sim'.act action) := by
  cases action with
  | set s b => exact ⟨hs.governs, hs.agree.set s b⟩
  | settle => exact hs.settle
  | tick => exact hs.tick

theorem run (hs : InStep S sim sim') (actions : List Action) :
    InStep S (sim.run actions) (sim'.run actions) := by
  induction actions generalizing sim sim' with
  | nil => exact hs
  | cons action rest ih => exact ih (hs.act action)

end InStep

end Simulator

/-- Governed nets have the same levels in both simulations, after any run. -/
theorem Fragment.Governs.run {f h : Fragment} {S : Set SignalId} (hg : f.Governs h S)
    (actions : List Simulator.Action) :
    AgreeOn S ((Simulator.start h).run actions).levels ((Simulator.start f).run actions).levels :=
  (Simulator.InStep.run ⟨hg, hg.settle (.refl S .empty)⟩ actions).agree

/-! ## Parts of a fragment -/

namespace Fragment

variable {parts : List Fragment} {f g : Fragment} {s : SignalId} {a : Assignment}

theorem drives_iff : f.Drives s ↔
    (∃ a ∈ assignmentsAll f.comb, a.target = s) ∨ ∃ a ∈ assignmentsAll f.sync, a.target = s := by
  rw [Drives, mem_combTargets, mem_syncTargets, targetsAll_eq_map, targetsAll_eq_map,
    List.mem_map, List.mem_map]

theorem mentions_of_comb (ha : a ∈ assignmentsAll f.comb) (hs : s ∈ a.reads) : f.Mentions s :=
  .inr (.inl (Stmt.mem_readsAll_of_mem_assignments ha hs))

theorem mentions_of_sync (ha : a ∈ assignmentsAll f.sync) (hs : s ∈ a.reads) : f.Mentions s :=
  .inr (.inr (Stmt.mem_readsAll_of_mem_assignments ha hs))

theorem mem_combTargets_concat :
    s ∈ (concat parts).combTargets ↔ ∃ g ∈ parts, s ∈ g.combTargets := by
  simp only [mem_combTargets, comb_concat, Stmt.targetsAll_eq_flatMap, List.flatMap_assoc,
    List.mem_flatMap]

theorem mem_syncTargets_concat :
    s ∈ (concat parts).syncTargets ↔ ∃ g ∈ parts, s ∈ g.syncTargets := by
  simp only [mem_syncTargets, sync_concat, Stmt.targetsAll_eq_flatMap, List.flatMap_assoc,
    List.mem_flatMap]

theorem drives_concat : (concat parts).Drives s ↔ ∃ g ∈ parts, g.Drives s := by
  simp only [Drives, mem_combTargets_concat, mem_syncTargets_concat, and_or_left, exists_or]

/-- The nets that no part but `f` drives. -/
def leftTo (parts : List Fragment) (f : Fragment) : Set SignalId :=
  {s | ∀ g ∈ parts, g = f ∨ ¬g.Drives s}

/-- A part of a fragment governs the nets left to it, if no other part drives what it mentions. A
part may occur more than once. -/
theorem governs_concat (hf : f ∈ parts)
    (hapart : ∀ g ∈ parts, g = f ∨ ∀ s, g.Drives s → ¬f.Mentions s) :
    f.Governs (concat parts) (leftTo parts f) where
  comb := by
    intro ρ s hs
    rw [comb_concat, assignmentsAll_flatMap]
    refine lastActive?_flatMap hf fun g hg => (hs g hg).imp_right fun hdrives a ha htarget => ?_
    exact hdrives (drives_iff.2 (.inl ⟨a, ha, htarget⟩))
  sync := by
    intro ρ s hs
    rw [sync_concat, assignmentsAll_flatMap]
    refine lastActive?_flatMap hf fun g hg => (hs g hg).imp_right fun hdrives a ha htarget => ?_
    exact hdrives (drives_iff.2 (.inr ⟨a, ha, htarget⟩))
  targets := by
    intro s hs
    rw [mem_combTargets_concat]
    constructor
    · rintro ⟨g, hg, hmem⟩
      rcases hs g hg with rfl | hdrives
      · exact hmem
      · exact absurd (.inl hmem) hdrives
    · exact fun hmem => ⟨f, hf, hmem⟩
  comb_closed := fun a ha _ t ht g hg =>
    (hapart g hg).imp_right fun hg hdrives => hg t hdrives (mentions_of_comb ha ht)
  sync_closed := fun a ha _ t ht g hg =>
    (hapart g hg).imp_right fun hg hdrives => hg t hdrives (mentions_of_sync ha ht)

end Fragment

end IrqSynth
