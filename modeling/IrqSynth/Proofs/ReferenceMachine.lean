-- SUMMARY: Simulated hardware of a finalized controller against its reference machine, on all nets.
import IrqSynth.Proofs.Construction
import IrqSynth.Proofs.Refinement

/-!
# Finalized controllers and the reference machine

The hardware of every finalized controller behaves as its array of event cells.

Main statement: `simulated_nets_eq_cells`.
-/
namespace IrqSynth

/-- Whatever is forced on its inputs, a finalized controller shows its event cells on all its nets
whenever its simulation is at rest. Bits follow the order of creation. -/
theorem simulated_nets_eq_cells {commands : List Command} {m : Nat} {c : Controller} {l : Layout}
    {actions : List Simulator.Action}
    (hc : (Design.empty.run commands).2.controllers[m]? = some c) (hl : c.layout = some l)
    (hinputs : ∀ x b, .set x b ∈ actions →
      ∃ n : Net, n.isInput ∧ l.net? c.roster.sources c.irq n = some x)
    (hrest : ∀ x b, actions.getLast? ≠ some (.set x b)) :
    (∀ (i : Nat) (s : Source), c.roster.sources[i]? = some s →
      i = (c.roster.sources.filter fun t => t.id < s.id).length) ∧
    ∀ n x, l.net? c.roster.sources c.irq n = some x →
      ((Simulator.start l.logic).run actions).read x =
        (CellArray.initial.run l c.roster.sources actions).level l c.roster.sources n := by
  refine ⟨fun i s hs => c.roster.bit_eq_length_filter hs, ?_⟩
  obtain ⟨p, hsources, hirq, rfl⟩ := (Design.wellFormed_run commands).exists_placement hc hl
  rw [← hsources, ← hirq] at hinputs ⊢
  have hdrives : ∀ action ∈ actions, p.Drives action := by
    intro action haction
    cases action with
    | set x b => exact hinputs x b haction
    | settle => trivial
    | tick => trivial
  exact Placement.shows_run hdrives hrest

/-- In the sample a trigger that falls between two edges is pending at bit 1 and, once that bit is
enabled, raises the interrupt. -/
theorem sample_nets_eq_cells :
    let actions : List Simulator.Action :=
      [.set 5 true, .set 32 true, .set 34 true, .tick, .set 5 false, .set 34 false, .tick]
    (∀ x b, .set x b ∈ actions → ∃ n : Net, n.isInput ∧
      Design.sampleLayout.net? Design.sampleController.roster.sources Design.sampleController.irq n =
        some x) ∧
      (∀ x b, actions.getLast? ≠ some (.set x b)) ∧
      ((Simulator.start Design.sampleLayout.logic).run actions).read 22 = true ∧
      ((Simulator.start Design.sampleLayout.logic).run actions).read 0 = true := by
  intro actions
  have hinputs : ∀ x b, .set x b ∈ actions → ∃ n : Net, n.isInput ∧
      Design.sampleLayout.net? Design.sampleController.roster.sources Design.sampleController.irq n =
        some x := by
    intro x b hset
    have hx : x = 5 ∨ x = 32 ∨ x = 34 := by
      simp only [actions, List.mem_cons, Simulator.Action.set.injEq, List.not_mem_nil] at hset
      grind
    rcases hx with rfl | rfl | rfl
    · exact ⟨.port 1 .trigger, rfl, by decide +kernel⟩
    · exact ⟨.line .enable (.written 1), rfl, by decide +kernel⟩
    · exact ⟨.line .enable .strobe, rfl, by decide +kernel⟩
  have hrest : ∀ x b, actions.getLast? ≠ some (.set x b) := by
    intro x b hset
    cases hset
  have hnets := (simulated_nets_eq_cells Design.sample_controller Design.sample_layout hinputs
    hrest).2
  refine ⟨hinputs, hrest, ?_, ?_⟩
  · rw [hnets (.line .pending (.bit 1)) 22 (by decide +kernel)]
    decide +kernel
  · rw [hnets .irq 0 (by decide +kernel)]
    decide +kernel

end IrqSynth
