-- SUMMARY: Copies of parts of a controller joined to its logic change nothing.
import IrqSynth.Proofs.GovernedNets
import IrqSynth.Proofs.SourceAlone
import IrqSynth.Proofs.UniqueSolution

/-!
# Repeated parts

The logic of a finalized controller contains that of its sources and its enable register. Joining
copies of these, of the registers or of the whole to it changes nothing, wherever the copies stand:
each says of the nets it drives what the whole says of them.

Main statements: `governs_concat_of_repeats` (copies are absorbed), `Placement.repeats_source` and
`Placement.repeats_register` (what a layout contains) and `repeated_parts_change_nothing`.
-/
namespace IrqSynth

open Assignment
open Stmt (assignmentsAll assignmentsAll_flatMap targetsAll_eq_map)

/-! ## Copies of a part -/

namespace Fragment

variable {f g h : Fragment} {parts : List Fragment}

/-- Fragment `g` does with the nets that it drives what `f` does with them. -/
structure Repeats (g f : Fragment) : Prop where
  comb : ∀ a ∈ assignmentsAll g.comb, ∀ ρ, lastActive? ρ (assignmentsAll g.comb) a.target =
    lastActive? ρ (assignmentsAll f.comb) a.target
  sync : ∀ a ∈ assignmentsAll g.sync, ∀ ρ, lastActive? ρ (assignmentsAll g.sync) a.target =
    lastActive? ρ (assignmentsAll f.sync) a.target
  targets : ∀ s ∈ g.combTargets, s ∈ f.combTargets

theorem Repeats.refl (f : Fragment) : f.Repeats f :=
  ⟨fun _ _ _ => rfl, fun _ _ _ => rfl, fun _ hs => hs⟩

theorem Repeats.empty (f : Fragment) : Fragment.empty.Repeats f :=
  ⟨fun _ ha => absurd ha List.not_mem_nil, fun _ ha => absurd ha List.not_mem_nil,
    fun _ hs => absurd (mem_combTargets.1 hs) List.not_mem_nil⟩

/-- Groups of assignments that say of their own nets what `bs` says, with `bs` among them, say of every
net what `bs` says. -/
theorem lastActive?_flatMap_of_repeats {ρ : SignalId → Bool} {as : Fragment → List Assignment}
    (hf : f ∈ parts)
    (h : ∀ g ∈ parts, ∀ a ∈ as g, lastActive? ρ (as g) a.target = lastActive? ρ (as f) a.target)
    (s : SignalId) : lastActive? ρ (parts.flatMap as) s = lastActive? ρ (as f) s := by
  refine lastActive?_flatMap_of_agree ⟨f, hf, rfl⟩ fun g hg => ?_
  by_cases hs : ∃ a ∈ as g, a.target = s
  · obtain ⟨a, ha, rfl⟩ := hs
    exact .inl (h g hg a ha)
  · exact .inr (lastActive?_eq_none fun a ha htarget => hs ⟨a, ha, htarget⟩)

/-- Beside the whole, parts that repeat some of it are absorbed, in any order and number. -/
theorem governs_concat_of_repeats (hf : f ∈ parts) (h : ∀ g ∈ parts, g.Repeats f) :
    f.Governs (concat parts) Set.univ where
  comb := by
    intro ρ s _
    rw [comb_concat, assignmentsAll_flatMap]
    exact lastActive?_flatMap_of_repeats hf (fun g hg a ha => (h g hg).comb a ha ρ) s
  sync := by
    intro ρ s _
    rw [sync_concat, assignmentsAll_flatMap]
    exact lastActive?_flatMap_of_repeats hf (fun g hg a ha => (h g hg).sync a ha ρ) s
  targets := by
    intro s _
    rw [mem_combTargets_concat]
    exact ⟨fun ⟨g, hg, hs⟩ => (h g hg).targets s hs, fun hs => ⟨f, hf, hs⟩⟩
  comb_closed := fun _ _ _ t _ => Set.mem_univ t
  sync_closed := fun _ _ _ t _ => Set.mem_univ t

/-- Logic that governs all nets settles with the same answer. -/
theorem Governs.settle_eq (hg : f.Governs h Set.univ) (v : Levels) : h.settle v = f.settle v :=
  settleWithin_congr
    (fun v => Levels.ext_get? fun s => hg.pass (.refl _ v) s (Set.mem_univ s)) maxSettlePasses v

end Fragment

/-- A simulation of governing logic cannot be told from one of the larger logic. -/
theorem Fragment.Governs.levels_run {f h : Fragment} (hg : f.Governs h Set.univ)
    (actions : List Simulator.Action) :
    ((Simulator.start h).run actions).levels = ((Simulator.start f).run actions).levels :=
  Levels.ext_get? fun s => hg.run actions s (Set.mem_univ s)

/-! ## Parts of a layout -/

namespace Placement

variable {p : Placement} {s : Source} {i : Nat}

theorem mem_comb_of_source (hs : s ∈ p.sources) {a : Assignment}
    (ha : a ∈ assignmentsAll s.logic.comb) : a ∈ assignmentsAll p.layout.logic.comb := by
  rw [comb_layout, Stmt.assignmentsAll_append, assignmentsAll_flatMap]
  exact List.mem_append_left _ (List.mem_flatMap.2 ⟨s, hs, ha⟩)

theorem repeats_source (hs : p.sources[i]? = some s) : s.logic.Repeats p.layout.logic := by
  have hsub := fun a ha => mem_comb_of_source (a := a) (List.mem_of_getElem? hs) ha
  refine ⟨?_, ?_, ?_⟩
  · intro a ha ρ
    exact lastActive?_of_subset hsub (fun b hb c hc => eq_of_mem_comb hb hc) ha
  · intro a ha ρ
    rcases Source.target_sync ha with ⟨-, hq⟩ | hq
    · exact (lastActive?_sync_port ρ hs hq).symm
    · exact (lastActive?_sync_port ρ hs hq).symm
  · intro x hx
    rw [Fragment.mem_combTargets, targetsAll_eq_map] at hx ⊢
    exact List.map_subset _ hsub hx

theorem repeats_register (p : Placement) (role : Role) :
    (p.layout.register role).logic.Repeats p.layout.logic := by
  by_cases hkind : (p.layout.register role).kind = .storage
  · obtain rfl : role = .enable := by
      rw [kind_register] at hkind
      cases role <;> cases hkind
      rfl
    rw [Register.logic_of_storage hkind]
    refine ⟨fun a ha => absurd ha List.not_mem_nil, ?_, ?_⟩
    · intro a ha ρ
      obtain ⟨i, hi, rfl⟩ := Register.mem_capture.1 ha
      rw [Register.lastActive?_capture ρ hi]
      rw [width_register] at hi
      exact (lastActive?_sync_enable ρ hi).symm
    · intro x hx
      exact absurd (Fragment.mem_combTargets.1 hx) List.not_mem_nil
  · rw [Register.logic_of_kind_ne hkind]
    exact Fragment.Repeats.empty _

end Placement

/-! ## Main result -/

/-- What the logic of a finalized controller includes: itself, that of its sources, asked of any handle,
and that of its registers. -/
inductive Design.Includes (d : Design) (c : Controller) (l : Layout) : Fragment → Prop where
  | whole : Includes d c l l.logic
  | source (s : Source) (i : Nat) (hs : s ∈ d.sources) (hbit : c.bitOf s = .ok (some i)) :
    Includes d c l s.logic
  | register (role : Role) : Includes d c l (l.register role).logic

theorem Design.WellFormed.repeats {d : Design} {m : Nat} {c : Controller} {l : Layout} {f : Fragment}
    (h : d.WellFormed) (hc : d.controllers[m]? = some c) (hl : c.layout = some l)
    (hf : d.Includes c l f) : f.Repeats l.logic := by
  obtain ⟨p, hsources, -, rfl⟩ := h.exists_placement hc hl
  cases hf with
  | whole => exact .refl _
  | source s i hs hbit =>
    obtain ⟨t, ht, hid⟩ := Controller.exists_source_of_bitOf hbit
    have htmem := (h.houses m c hc).sources t (List.mem_of_getElem? ht)
    -- another handle has another description, which no logic depends on
    obtain ⟨description, rfl⟩ := h.allocated.eq_handle hs htmem hid.symm
    have hlogic : { t with description }.logic = t.logic := rfl
    rw [← hsources] at ht
    rw [hlogic]
    exact Placement.repeats_source ht
  | register role => exact p.repeats_register role

/-- Logic put together from that of a finalized controller, at least once, and any number of parts that
it includes, in any order, behaves as that of the controller: under the same actions on any nets, all
levels are the same, every settling gives the same answer, and the clock counts the same. -/
theorem repeated_parts_change_nothing {commands : List Command} {m : Nat} {c : Controller} {l : Layout}
    {parts : List Fragment} (hc : (Design.empty.run commands).2.controllers[m]? = some c)
    (hl : c.layout = some l) (hwhole : l.logic ∈ parts)
    (hparts : ∀ f ∈ parts, (Design.empty.run commands).2.Includes c l f)
    (actions : List Simulator.Action) :
    let merged := (Simulator.start (parts.foldl (· ++ ·) .empty)).run actions
    let alone := (Simulator.start l.logic).run actions
    merged.levels = alone.levels ∧ (∀ x, merged.read x = alone.read x) ∧
      merged.settle.2 = alone.settle.2 ∧ merged.cycle = alone.cycle := by
  intro merged alone
  have hgoverns : l.logic.Governs (parts.foldl (· ++ ·) .empty) Set.univ := by
    rw [Fragment.foldl_append]
    exact Fragment.governs_concat_of_repeats hwhole
      fun f hf => (Design.wellFormed_run commands).repeats hc hl (hparts f hf)
  have hlevels : merged.levels = alone.levels := hgoverns.levels_run actions
  refine ⟨hlevels, ?_, ?_, ?_⟩
  · intro x
    rw [Simulator.read, Simulator.read, hlevels]
  · rw [Simulator.settle_snd, Simulator.settle_snd, hlevels, Simulator.fragment_run_start,
      Simulator.fragment_run_start, hgoverns.settle_eq]
  · rw [Simulator.cycle_run, Simulator.cycle_run]
    rfl

/-- Copies stand before and after the logic of the sample, which is there twice. At the second edge the
source at bit 1 fires while its event is acknowledged; the event stays pending, although statements that
clear it follow statements that set it. -/
theorem sample_with_copies :
    let s : Source := ⟨1, .process, none, none, 5⟩
    let l := Design.sampleLayout
    let parts := [s.logic, l.enable.logic, l.logic, s.logic, l.pending.logic, l.logic, s.logic]
    let actions : List Simulator.Action :=
      [.set 5 true, .tick, .set 5 false, .set 25 true, .set 27 true, .tick]
    let merged := (Simulator.start (parts.foldl (· ++ ·) .empty)).run actions
    merged.read s.pending.id = true ∧ merged.settle.2 = true ∧ merged.cycle = 2 := by
  intro s l parts actions merged
  have hs : s ∈ (Design.empty.run Design.sample).2.sources := by decide +kernel
  have hbit : Design.sampleController.bitOf s = .ok (some 1) := by
    have hrank : Design.sampleController.roster.rank? s.id = some 1 := by decide +kernel
    rw [Controller.bitOf, Design.sample_layout, hrank]
  have hparts : ∀ f ∈ parts,
      (Design.empty.run Design.sample).2.Includes Design.sampleController l f := by
    intro f hf
    simp only [parts, List.mem_cons, List.not_mem_nil, or_false] at hf
    rcases hf with rfl | rfl | rfl | rfl | rfl | rfl | rfl
    · exact .source s 1 hs hbit
    · exact .register .enable
    · exact .whole
    · exact .source s 1 hs hbit
    · exact .register .pending
    · exact .whole
    · exact .source s 1 hs hbit
  obtain ⟨-, hread, hsettle, hcycle⟩ := repeated_parts_change_nothing Design.sample_controller
    Design.sample_layout (by simp [parts, l]) hparts actions
  have halone : let alone := (Simulator.start l.logic).run actions
      alone.read s.pending.id = true ∧ alone.settle.2 = true ∧ alone.cycle = 2 := by decide +kernel
  exact ⟨(hread _).trans halone.1, hsettle.trans halone.2.1, hcycle.trans halone.2.2⟩

end IrqSynth
