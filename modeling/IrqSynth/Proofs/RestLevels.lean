-- SUMMARY: The levels that a controller settles to, in closed form and from any levels.
import IrqSynth.Proofs.Construction
import IrqSynth.Proofs.DrivenNets
import IrqSynth.Proofs.UniqueSolution

/-!
# Levels at rest

The levels that the logic of a finalized controller settles to from any levels whatever, be it that
driven nets were forced or that nets have no entry. They depend on the inputs and the latches alone.

Main statements: `Placement.tracks_arrayOf` (any levels belong to an array of event cells) and
`settles_to_rest_levels`.
-/
namespace IrqSynth

/-- The levels of a controller at rest, given the levels before settling: those of driven nets follow
from inputs and latches. -/
structure Layout.RestLevels (l : Layout) (sources : List Source) (irq : Signal)
    (before after : Levels) : Prop where
  status : ∀ (i : Nat) (s : Source), sources[i]? = some s →
    after.read s.status.id = if s.kind = .pulse then false else before.read s.trigger.id
  pending : ∀ (i : Nat) (s : Source), sources[i]? = some s →
    after.read s.pending.id =
      if s.kind = .level then before.read s.trigger.id else before.read s.pending.id
  clear : ∀ (i : Nat) (s : Source), sources[i]? = some s →
    after.read s.clear.id =
      (before.read l.pending.strobe.id && before.read (l.pending.written i).id)
  statusBit : ∀ (i : Nat) (s : Source), sources[i]? = some s →
    after.read (l.status.bit i).id = after.read s.status.id
  pendingBit : ∀ (i : Nat) (s : Source), sources[i]? = some s →
    after.read (l.pending.bit i).id = after.read s.pending.id
  irq : after.read irq.id = (List.range sources.length).any fun i =>
    after.read (l.pending.bit i).id && before.read (l.enable.bit i).id

namespace Placement

variable {p : Placement} {v : Levels} {i : Nat} {s : Source} {n : Net} {x : SignalId}

/-! ## The array of given levels -/

/-- The event cells of a controller with these levels on its nets. -/
def arrayOf (p : Placement) (v : Levels) : CellArray where
  inputs := v.read
  cells := fun i =>
    match p.sources[i]? with
    | some s => ⟨v.read s.pending.id, v.read s.oldTrigger.id, v.read (p.layout.enable.bit i).id⟩
    | none => .initial

theorem cells_arrayOf (v : Levels) (hs : p.sources[i]? = some s) :
    (p.arrayOf v).cells i =
      ⟨v.read s.pending.id, v.read s.oldTrigger.id, v.read (p.layout.enable.bit i).id⟩ := by
  simp [arrayOf, hs]

theorem tracks_arrayOf (p : Placement) (v : Levels) : p.Tracks v (p.arrayOf v) := by
  intro n x hn hd
  rcases kept_cases hn hd with hinput | ⟨i, s, hs, hk, rfl, rfl⟩ | ⟨i, s, hs, -, rfl, rfl⟩ |
    ⟨i, s, hs, rfl, rfl⟩
  · rw [level_input hn hinput, arrayOf]
  · rw [level_port hs, CellArray.port, pending_of_kind_ne _ _ hk, cells_arrayOf v hs]
  · rw [level_port hs, CellArray.port, cells_arrayOf v hs]
  · rw [level_bit hs, CellArray.bit, cells_arrayOf v hs]

/-- Settled from any levels, the nets show the cells read off these levels. -/
theorem shows_settled (p : Placement) (v : Levels) : p.Shows (p.settled v) (p.arrayOf v) :=
  (p.tracks_arrayOf v).settle

/-! ## Driven nets -/

/-- The interrupt line, the bits of two registers, and two or three ports of each source are driven
combinationally. -/
theorem driven_cases (hx : x ∈ p.layout.logic.combTargets) :
    x = p.irq.id ∨ ∃ i s, p.sources[i]? = some s ∧
      (x = s.status.id ∨ x = s.clear.id ∨ s.kind = .level ∧ x = s.pending.id ∨
        x = (p.layout.status.bit i).id ∨ x = (p.layout.pending.bit i).id) := by
  rw [mem_combTargets, Layout.combNets, List.mem_cons, List.map_append, List.mem_append,
    List.mem_append, List.mem_flatMap] at hx
  rcases hx with hirq | (hstatus | hpending) | ⟨s, hs, hport⟩
  · exact .inl hirq
  · obtain ⟨i, s, hs, hbit⟩ := (p.mem_bits .status).1 hstatus
    exact .inr ⟨i, s, hs, .inr (.inr (.inr (.inl hbit)))⟩
  · obtain ⟨i, s, hs, hbit⟩ := (p.mem_bits .pending).1 hpending
    exact .inr ⟨i, s, hs, .inr (.inr (.inr (.inr hbit)))⟩
  · obtain ⟨i, hi⟩ := List.mem_iff_getElem?.1 hs
    refine .inr ⟨i, s, hi, ?_⟩
    unfold Source.combNets at hport
    cases hk : s.kind <;> simp [hk] at hport ⊢ <;> grind

theorem restLevels_settled (p : Placement) (v : Levels) :
    p.layout.RestLevels p.sources p.irq v (p.settled v) where
  status := by
    intro i s hs
    rw [(p.shows_settled v).read_port hs (q := .status) rfl, CellArray.port]
    cases s.kind <;> rfl
  pending := by
    intro i s hs
    rw [(p.shows_settled v).read_port hs (q := .pending) rfl, CellArray.port, cells_arrayOf v hs]
    cases s.kind <;> rfl
  clear := by
    intro i s hs
    rw [(p.shows_settled v).read_port hs (q := .clear) rfl]
    rfl
  statusBit := by
    intro i s hs
    have h := p.shows_settled v
    exact (h.read_bit hs .status).trans (h.read_port hs (q := .status) rfl).symm
  pendingBit := by
    intro i s hs
    have h := p.shows_settled v
    exact (h.read_bit hs .pending).trans (h.read_port hs (q := .pending) rfl).symm
  irq := by
    have hirq : (p.settled v).read p.irq.id = (List.range p.sources.length).any fun i =>
        (p.settled v).read (p.layout.pending.bit i).id &&
          (p.settled v).read (p.layout.enable.bit i).id := read_irq (p.settle_spec v).2.1
    have hkept : ∀ i ∈ List.range p.sources.length,
        (p.settled v).read (p.layout.enable.bit i).id = v.read (p.layout.enable.bit i).id :=
      fun i hi => read_settled_of_kept (net?_bit .enable (List.mem_range.1 hi)) rfl
    rw [hirq, Bool.eq_iff_iff, List.any_eq_true, List.any_eq_true]
    exact exists_congr fun i => and_congr_right fun hi => by rw [hkept i hi]

end Placement

/-! ## Main result -/

/-- The logic of a finalized controller settles from any levels, within four passes for any number of
sources. Every net that it drives then has its level at rest, and every other net the level it had;
levels that differ on driven nets only settle alike. -/
theorem settles_to_rest_levels {commands : List Command} {m : Nat} {c : Controller} {l : Layout}
    {sim : Simulator} (hc : (Design.empty.run commands).2.controllers[m]? = some c)
    (hl : c.layout = some l) (hsim : sim.fragment = l.logic) :
    let sources := c.roster.sources
    let after := sim.settle.1
    sim.settle.2 = true ∧
      l.logic.settleWithin 4 sim.levels = (after.levels, true) ∧
      l.RestLevels sources c.irq sim.levels after.levels ∧
      (∀ x ∈ l.logic.combTargets, x = c.irq.id ∨ ∃ i s, sources[i]? = some s ∧
        (x = s.status.id ∨ x = s.clear.id ∨ s.kind = .level ∧ x = s.pending.id ∨
          x = (l.status.bit i).id ∨ x = (l.pending.bit i).id)) ∧
      (∀ x ∉ l.logic.combTargets, after.levels.get? x = sim.levels.get? x) ∧
      ∀ other : Simulator, other.fragment = l.logic →
        (∀ x ∉ l.logic.combTargets, other.read x = sim.read x) →
        ∀ x, other.settle.1.read x = after.read x := by
  intro sources after
  obtain ⟨p, hsources, hirq, rfl⟩ := (Design.wellFormed_run commands).exists_placement hc hl
  obtain ⟨hrest, -, hkept⟩ := p.settle_spec sim.levels
  rw [← Placement.settled] at hkept
  simp only [after, sources, Simulator.read, Placement.levels_settle hsim, ← hsources, ← hirq]
  refine ⟨?_, ?_, p.restLevels_settled sim.levels, fun x => Placement.driven_cases, hkept, ?_⟩
  · rw [Simulator.settle_snd, hsim]
    exact hrest
  · have hfour := p.rankedWithin.settleWithin_eq (m := 4) (by decide) sim.levels
    have hmax := p.rankedWithin.settleWithin_eq (m := maxSettlePasses) (by decide) sim.levels
    rw [hfour, Placement.settled, Fragment.settle, hmax]
  · intro other hother hagree x
    rw [Placement.levels_settle hother]
    exact p.rankedWithin.read_settle_eq (by decide) hagree x

/-- In the sample, with the level source high and only the process source enabled, an interrupt line
that was forced high falls, and so do a status line, a clear line and the pending bit of the enabled
source. -/
theorem sample_forgets_forced_nets :
    let sim : Simulator := ⟨Design.sampleLayout.logic, (Levels.empty.set 10 true).set 29 true, 3⟩
    let forced := [0, 2, 8, 22].foldl (fun sim x => sim.set x true) sim
    sim.fragment = Design.sampleLayout.logic ∧ forced.settle.2 = true ∧
      (∀ x, forced.settle.1.read x = sim.settle.1.read x) ∧
      [0, 2, 8, 22, 23].map forced.settle.1.read = [false, false, false, false, true] := by
  intro sim forced
  have hdriven : ∀ x ∈ [0, 2, 8, 22], x ∈ Design.sampleLayout.logic.combTargets := by
    intro x hx
    exact Fragment.mem_combTargets.2
      ((by decide +kernel : ∀ y ∈ [0, 2, 8, 22],
        y ∈ Stmt.targetsAll Design.sampleLayout.logic.comb) x hx)
  have hagree : ∀ x ∉ Design.sampleLayout.logic.combTargets, forced.read x = sim.read x := by
    intro x hx
    have hne : ∀ y ∈ [0, 2, 8, 22], y ≠ x := by
      rintro y hy rfl
      exact hx (hdriven y hy)
    simp only [List.forall_mem_cons] at hne
    obtain ⟨h0, h2, h8, h22, -⟩ := hne
    simp only [forced, List.foldl_cons, List.foldl_nil, Simulator.read_set, if_neg h0, if_neg h2,
      if_neg h8, if_neg h22]
  have hsim : sim.fragment = Design.sampleLayout.logic := rfl
  have hforced : forced.fragment = Design.sampleLayout.logic := rfl
  have hrest := settles_to_rest_levels Design.sample_controller Design.sample_layout hforced
  have hsame := settles_to_rest_levels Design.sample_controller Design.sample_layout hsim
  refine ⟨hsim, hrest.1, hsame.2.2.2.2.2 forced hforced hagree, ?_⟩
  decide +kernel

end IrqSynth
