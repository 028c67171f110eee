-- SUMMARY: Which nets the logic of a finalized controller drives, each of them once.
import IrqSynth.Proofs.NetOwners
import IrqSynth.Proofs.GovernedNets
import IrqSynth.Proofs.Refinement
import Mathlib.Data.List.Nodup

/-!
# Driven nets

Which nets the logic of a finalized controller drives, and that it drives none of them twice: a
second driver would not be noticed, as the last active assignment just wins.

Main statement: `drive_discipline`.
-/
namespace IrqSynth

open Assignment
open Stmt (assignmentsAll targetsAll targetsAll_eq_map readsAll)

/-! ## One source -/

namespace Source

/-- The ports of a source that a controller drives combinationally. -/
def combNets (s : Source) : List SignalId :=
  match s.kind with
  | .pulse => [s.status.id, s.clear.id]
  | .process => [s.status.id, s.clear.id]
  | .level => [s.status.id, s.clear.id, s.pending.id]

/-- The ports of a source that change at clock edges. -/
def syncNets (s : Source) : List SignalId :=
  match s.kind with
  | .pulse => [s.pending.id]
  | .process => [s.pending.id, s.oldTrigger.id]
  | .level => []

variable {s : Source} {x : SignalId}

theorem mem_combNets : x ∈ s.combNets ↔ x ∈ targetsAll s.logic.comb ∨ x = s.clear.id := by
  rw [targetsAll_eq_map, List.mem_map]
  simp only [mem_comb]
  unfold combNets
  cases s.kind <;> simp [eq_comm]
  all_goals grind

theorem mem_syncNets : x ∈ s.syncNets ↔ x ∈ targetsAll s.logic.sync := by
  unfold syncNets logic
  cases s.kind <;>
    simp [targetsAll, Stmt.targets, acknowledge, latch, Signal.drive]
  grind

theorem combNets_subset (hx : x ∈ s.combNets) : s.base ≤ x ∧ x < s.base + s.signalCount := by
  unfold combNets at hx
  unfold signalCount
  cases hk : s.kind <;> simp [hk, status, clear, pending] at hx ⊢ <;> lia

theorem syncNets_subset (hx : x ∈ s.syncNets) : s.base ≤ x ∧ x < s.base + s.signalCount := by
  unfold syncNets at hx
  unfold signalCount
  cases hk : s.kind <;> simp [hk, pending, oldTrigger] at hx ⊢ <;> lia

theorem nodup_combNets (s : Source) : s.combNets.Nodup := by
  unfold combNets
  cases s.kind <;> simp [status, clear, pending]

theorem nodup_syncNets (s : Source) : s.syncNets.Nodup := by
  unfold syncNets
  cases s.kind <;> simp [pending, oldTrigger]

/-- The logic of a source reads its own ports. -/
theorem exists_port_of_reads (hx : x ∈ readsAll s.logic.comb ∨ x ∈ readsAll s.logic.sync) :
    ∃ q, s.net? q = some x := by
  have hport : x = s.trigger.id ∨ x = s.clear.id ∨ s.kind = .process ∧ x = s.oldTrigger.id := by
    unfold logic at hx
    cases hk : s.kind <;>
      simp [hk, readsAll, Stmt.reads, acknowledge, latch, fires, Signal.drive, Expr.reads] at hx ⊢ <;>
      grind
  rcases hport with rfl | rfl | ⟨hk, rfl⟩
  · exact ⟨.trigger, rfl⟩
  · exact ⟨.clear, rfl⟩
  · exact ⟨.oldTrigger, net?_oldTrigger hk⟩

end Source

/-! ## One register -/

theorem Register.mem_bits {r : Register} {x : SignalId} :
    x ∈ r.bits.map Signal.id ↔ ∃ i < r.width, x = (r.bit i).id := by
  simp [bits, eq_comm]

theorem Register.nodup_bits (r : Register) : (r.bits.map Signal.id).Nodup := by
  rw [bits, List.map_map]
  exact List.nodup_range.map fun i j hij => Nat.add_left_cancel hij

theorem Register.targets_capture (r : Register) :
    targetsAll r.capture = r.bits.map Signal.id := by
  simp only [capture, bits, Stmt.targetsAll_eq_flatMap, List.flatMap_map, List.map_map]
  exact List.flatMap_pure_eq_map _ _

/-! ## A layout -/

/-- The nets that a controller with this layout drives combinationally. -/
def Layout.combNets (l : Layout) (sources : List Source) (irq : Signal) : List SignalId :=
  irq.id :: ((l.status.bits ++ l.pending.bits).map Signal.id ++ sources.flatMap Source.combNets)

/-- The nets that a controller with this layout drives at clock edges. -/
def Layout.syncNets (l : Layout) (sources : List Source) : List SignalId :=
  l.enable.bits.map Signal.id ++ sources.flatMap Source.syncNets

namespace Placement

variable {p : Placement} {x : SignalId} {i : Nat} {s : Source} {n : Net}

theorem mem_bits (role : Role) : x ∈ (p.layout.register role).bits.map Signal.id ↔
    ∃ i s, p.sources[i]? = some s ∧ x = ((p.layout.register role).bit i).id := by
  rw [Register.mem_bits, width_register]
  constructor
  · rintro ⟨i, hi, rfl⟩
    exact ⟨i, _, List.getElem?_eq_getElem hi, rfl⟩
  · rintro ⟨i, s, hs, rfl⟩
    exact ⟨i, lt_length hs, rfl⟩

theorem mem_targets_sources {f : Source → List Stmt} :
    x ∈ targetsAll (p.sources.flatMap f) ↔ ∃ s ∈ p.sources, x ∈ targetsAll (f s) := by
  simp [Stmt.targetsAll_eq_flatMap, List.flatMap_assoc]

theorem mem_targets_wires {status pending : Register} :
    x ∈ targetsAll (p.sources.mapIdx (Layout.wire status pending)).flatten ↔
      ∃ i s, p.sources[i]? = some s ∧
        (x = (status.bit i).id ∨ x = (pending.bit i).id ∨ x = s.clear.id) := by
  rw [targetsAll_eq_map, List.mem_map]
  simp only [mem_wires]
  constructor
  · rintro ⟨a, ⟨i, s, hs, rfl | rfl | rfl⟩, rfl⟩
    · exact ⟨i, s, hs, .inl rfl⟩
    · exact ⟨i, s, hs, .inr (.inl rfl)⟩
    · exact ⟨i, s, hs, .inr (.inr rfl)⟩
  · rintro ⟨i, s, hs, rfl | rfl | rfl⟩
    · exact ⟨_, ⟨i, s, hs, .inl rfl⟩, rfl⟩
    · exact ⟨_, ⟨i, s, hs, .inr (.inl rfl)⟩, rfl⟩
    · exact ⟨_, ⟨i, s, hs, .inr (.inr rfl)⟩, rfl⟩

theorem mem_combTargets :
    x ∈ p.layout.logic.combTargets ↔ x ∈ p.layout.combNets p.sources p.irq := by
  have hirq : x ∈ targetsAll [p.irq.drive
      (Layout.asserted p.layout.pending p.layout.enable p.sources.length)] ↔ x = p.irq.id :=
    List.mem_singleton
  have hstatus := p.mem_bits (x := x) .status
  have hpending := p.mem_bits (x := x) .pending
  rw [Fragment.mem_combTargets, comb_layout, Stmt.targetsAll_append, Stmt.targetsAll_append,
    List.mem_append, List.mem_append, mem_targets_sources, mem_targets_wires, hirq,
    Layout.combNets, List.mem_cons, List.mem_append, List.map_append, List.mem_append,
    List.mem_flatMap]
  simp only [Source.mem_combNets]
  constructor
  · rintro (⟨s, hs, hx⟩ | ⟨i, s, hs, hx | hx | hx⟩ | hx)
    · exact .inr (.inr ⟨s, hs, .inl hx⟩)
    · exact .inr (.inl (.inl (hstatus.2 ⟨i, s, hs, hx⟩)))
    · exact .inr (.inl (.inr (hpending.2 ⟨i, s, hs, hx⟩)))
    · exact .inr (.inr ⟨s, List.mem_of_getElem? hs, .inr hx⟩)
    · exact .inl hx
  · rintro (hx | (hx | hx) | ⟨s, hs, hx | hx⟩)
    · exact .inr (.inr hx)
    · obtain ⟨i, s, hs, hx⟩ := hstatus.1 hx
      exact .inr (.inl ⟨i, s, hs, .inl hx⟩)
    · obtain ⟨i, s, hs, hx⟩ := hpending.1 hx
      exact .inr (.inl ⟨i, s, hs, .inr (.inl hx)⟩)
    · exact .inl ⟨s, hs, hx⟩
    · obtain ⟨i, hi⟩ := List.mem_iff_getElem?.1 hs
      exact .inr (.inl ⟨i, s, hi, .inr (.inr hx)⟩)

theorem mem_syncTargets :
    x ∈ p.layout.logic.syncTargets ↔ x ∈ p.layout.syncNets p.sources := by
  have hguard (c : Expr) (body : List Stmt) : targetsAll [.guard c body] = targetsAll body :=
    List.append_nil _
  rw [Fragment.mem_syncTargets, sync_layout, Stmt.targetsAll_append, List.mem_append,
    mem_targets_sources, hguard, Register.targets_capture, Layout.syncNets, List.mem_append,
    List.mem_flatMap, or_comm]
  simp only [Source.mem_syncNets]

/-! ## No net twice -/

/-- The nets of sources come before those of registers, and none is the interrupt line. -/
theorem port_apart (hs : s ∈ p.sources) (hx : s.base ≤ x ∧ x < s.base + s.signalCount) :
    x < p.base ∧ x ≠ p.irq.id := by
  have hbelow := p.below s hs
  have hapart := p.irq_apart s hs
  lia

theorem nodup_ports {f : Source → List SignalId} (hnodup : ∀ s, (f s).Nodup)
    (hrange : ∀ s x, x ∈ f s → s.base ≤ x ∧ x < s.base + s.signalCount) :
    (p.sources.flatMap f).Nodup := by
  rw [List.nodup_flatMap]
  refine ⟨fun s _ => hnodup s, p.ordered.imp fun {s t} hst => ?_⟩
  intro x hs ht
  have hxs := hrange s x hs
  have hxt := hrange t x ht
  lia

theorem bit_range (role : Role) (hx : x ∈ (p.layout.register role).bits.map Signal.id) :
    p.base + role.index * (2 * p.sources.length + 1) ≤ x ∧
      x < p.base + role.index * (2 * p.sources.length + 1) + p.sources.length := by
  obtain ⟨i, hi, rfl⟩ := Register.mem_bits.1 hx
  rw [width_register] at hi
  rw [Register.bit, base_register]
  lia

theorem nodup_combNets (p : Placement) : (p.layout.combNets p.sources p.irq).Nodup := by
  have hirq := p.irq_below
  have hports : ∀ x ∈ p.sources.flatMap Source.combNets, x < p.base ∧ x ≠ p.irq.id := by
    intro x hx
    obtain ⟨s, hs, hx⟩ := List.mem_flatMap.1 hx
    exact port_apart hs (Source.combNets_subset hx)
  rw [Layout.combNets, List.nodup_cons, List.nodup_append, List.map_append, List.nodup_append]
  refine ⟨?_, ⟨Register.nodup_bits _, Register.nodup_bits _, ?_⟩,
    nodup_ports Source.nodup_combNets fun s x => Source.combNets_subset, ?_⟩
  · intro hmem
    rcases List.mem_append.1 hmem with hmem | hmem
    · rcases List.mem_append.1 hmem with hmem | hmem
      · have hrange := bit_range .status hmem
        lia
      · have hrange := bit_range .pending hmem
        lia
    · exact (hports _ hmem).2 rfl
  · rintro x hx _ hy rfl
    have hstatus := bit_range .status hx
    have hpending := bit_range .pending hy
    simp only [Role.index] at hstatus hpending
    lia
  · rintro x hx _ hy rfl
    have hlt := (hports x hy).1
    rcases List.mem_append.1 hx with hx | hx
    · have hrange := bit_range .status hx
      lia
    · have hrange := bit_range .pending hx
      lia

theorem nodup_syncNets (p : Placement) : (p.layout.syncNets p.sources).Nodup := by
  rw [Layout.syncNets, List.nodup_append]
  refine ⟨Register.nodup_bits _, nodup_ports Source.nodup_syncNets fun s x =>
    Source.syncNets_subset, ?_⟩
  rintro x hx _ hy rfl
  obtain ⟨s, hs, hy⟩ := List.mem_flatMap.1 hy
  have hlt := (port_apart hs (Source.syncNets_subset hy)).1
  have hrange := bit_range .enable hx
  lia

/-- What changes at clock edges is not driven combinationally. -/
theorem not_mem_combTargets_of_sync (hx : x ∈ p.layout.logic.syncTargets) :
    x ∉ p.layout.logic.combTargets := by
  rw [Fragment.mem_syncTargets, targetsAll_eq_map, List.mem_map] at hx
  obtain ⟨a, ha, rfl⟩ := hx
  rcases net?_of_mem_sync ha with ⟨i, s, hs, hk, hn⟩ | ⟨i, hn⟩ | ⟨i, hn⟩
  · exact not_mem_combTargets hn (by simp [combDriver?, hs, hk])
  · exact not_mem_combTargets hn rfl
  · exact not_mem_combTargets hn rfl

/-- No net is driven twice. -/
theorem nodup_driven (p : Placement) :
    (p.layout.combNets p.sources p.irq ++ p.layout.syncNets p.sources).Nodup := by
  rw [List.nodup_append]
  refine ⟨p.nodup_combNets, p.nodup_syncNets, ?_⟩
  rintro x hx _ hy rfl
  exact not_mem_combTargets_of_sync (mem_syncTargets.2 hy) (mem_combTargets.2 hx)

theorem not_drives_of_isInput (hn : p.net? n = some x) (hi : n.isInput) :
    ¬p.layout.logic.Drives x := by
  rintro (hx | hx)
  · exact not_mem_combTargets hn (combDriver?_of_isInput hi) hx
  · exact not_mem_syncTargets_of_isInput hi hn hx

/-! ## Mentioned nets -/

theorem exists_net_of_drives (hx : p.layout.logic.Drives x) : ∃ n, p.net? n = some x := by
  rcases Fragment.drives_iff.1 hx with ⟨a, ha, rfl⟩ | ⟨a, ha, rfl⟩
  · obtain ⟨n, hn⟩ := mem_comb.1 ha
    exact ⟨n, net?_of_combDriver? hn⟩
  · rcases net?_of_mem_sync ha with ⟨i, s, -, -, hn⟩ | ⟨i, hn⟩ | ⟨i, hn⟩
    · exact ⟨_, hn⟩
    · exact ⟨_, hn⟩
    · exact ⟨_, hn⟩

theorem exists_net_of_port (hs : s ∈ p.sources) {q : Port} (hq : s.net? q = some x) :
    ∃ n, p.net? n = some x := by
  obtain ⟨i, hi⟩ := List.mem_iff_getElem?.1 hs
  exact ⟨.port i q, (net?_port hi q).trans hq⟩

theorem exists_net_of_strobe (role : Role) :
    ∃ n, p.net? n = some (p.layout.register role).strobe.id :=
  ⟨.line role .strobe, rfl⟩

theorem exists_net_of_reads_sources {f : Source → List Stmt}
    (hf : ∀ s ∈ p.sources, x ∈ readsAll (f s) → ∃ q, s.net? q = some x)
    (hx : x ∈ readsAll (p.sources.flatMap f)) : ∃ n, p.net? n = some x := by
  rw [Stmt.readsAll_eq_flatMap, List.flatMap_assoc, List.mem_flatMap] at hx
  obtain ⟨s, hs, hx⟩ := hx
  obtain ⟨q, hq⟩ := hf s hs (by rwa [Stmt.readsAll_eq_flatMap])
  exact exists_net_of_port hs hq

theorem exists_net_of_reads_wires (hx : x ∈ readsAll
    (p.sources.mapIdx (Layout.wire p.layout.status p.layout.pending)).flatten) :
    ∃ n, p.net? n = some x := by
  rw [Stmt.readsAll_eq_flatMap, List.mem_flatMap] at hx
  obtain ⟨st, hst, hx⟩ := hx
  obtain ⟨block, hblock, hst⟩ := List.mem_flatten.1 hst
  obtain ⟨i, hi, rfl⟩ := List.mem_mapIdx.1 hblock
  have hs := List.getElem?_eq_getElem hi
  simp only [Layout.wire, List.mem_cons, List.not_mem_nil, or_false] at hst
  rcases hst with rfl | rfl | rfl
  · obtain rfl := List.mem_singleton.1 hx
    exact ⟨.port i .status, net?_port hs _⟩
  · obtain rfl := List.mem_singleton.1 hx
    exact ⟨.port i .pending, net?_port hs _⟩
  · have hline : x = p.layout.pending.strobe.id ∨ x = (p.layout.pending.written i).id := by
      simpa [Stmt.reads, readsAll, Signal.drive, Expr.reads] using hx
    rcases hline with rfl | rfl
    · exact exists_net_of_strobe .pending
    · exact ⟨_, net?_written .pending hi⟩

theorem exists_net_of_reads_irq (hx : x ∈ readsAll
    [p.irq.drive (Layout.asserted p.layout.pending p.layout.enable p.sources.length)]) :
    ∃ n, p.net? n = some x := by
  rw [readsAll, readsAll, List.append_nil, Signal.drive, Stmt.reads, Layout.asserted,
    Expr.mem_reads_disjunction] at hx
  obtain ⟨e, he, hx⟩ := hx
  obtain ⟨i, hi, rfl⟩ := List.mem_map.1 he
  rw [List.mem_range] at hi
  rcases Expr.mem_reads_and_signal.1 hx with rfl | rfl
  · exact ⟨_, net?_bit .pending hi⟩
  · exact ⟨_, net?_bit .enable hi⟩

/-- A register of width 0 has a guard around nothing, so its strobe is mentioned all the same. -/
theorem exists_net_of_reads_capture (hx : x ∈ readsAll
    [.guard (.signal p.layout.enable.strobe.id) p.layout.enable.capture]) :
    ∃ n, p.net? n = some x := by
  rw [readsAll, readsAll, List.append_nil, Stmt.reads, List.mem_append, Stmt.readsAll_eq_flatMap,
    List.mem_flatMap] at hx
  rcases hx with hx | ⟨st, hst, hx⟩
  · obtain rfl := List.mem_singleton.1 hx
    exact exists_net_of_strobe .enable
  · obtain ⟨i, hi, rfl⟩ := List.mem_map.1 hst
    obtain rfl := List.mem_singleton.1 hx
    have hwidth : i < (p.layout.register .enable).width := List.mem_range.1 hi
    rw [width_register] at hwidth
    exact ⟨_, net?_written .enable hwidth⟩

/-- The logic of a layout mentions its own nets alone. -/
theorem exists_net_of_mentions (hx : p.layout.logic.Mentions x) : ∃ n, p.net? n = some x := by
  rcases hx with hx | hx | hx
  · exact exists_net_of_drives hx
  · rw [comb_layout, Stmt.readsAll_append, Stmt.readsAll_append, List.mem_append,
      List.mem_append] at hx
    rcases hx with hx | hx | hx
    · exact exists_net_of_reads_sources (fun s _ h => Source.exists_port_of_reads (.inl h)) hx
    · exact exists_net_of_reads_wires hx
    · exact exists_net_of_reads_irq hx
  · rw [sync_layout, Stmt.readsAll_append, List.mem_append] at hx
    rcases hx with hx | hx
    · exact exists_net_of_reads_sources (fun s _ h => Source.exists_port_of_reads (.inr h)) hx
    · exact exists_net_of_reads_capture hx

end Placement

/-! ## Controllers of a design -/

namespace Design

variable {d : Design} {m m' : Nat} {c c' : Controller} {l l' : Layout} {x : SignalId}

theorem WellFormed.equips_of_mentions (h : d.WellFormed) (hc : d.controllers[m]? = some c)
    (hl : c.layout = some l) (hx : l.logic.Mentions x) : d.Equips m x := by
  obtain ⟨p, hsources, hirq, rfl⟩ := h.exists_placement hc hl
  obtain ⟨n, hn⟩ := Placement.exists_net_of_mentions hx
  rw [Placement.net?, hsources, hirq] at hn
  exact h.equips hc hl hn

end Design

/-- What the logic of a finalized controller drives combinationally and at clock edges; that no net
is driven twice; that triggers, write lines and strobes are left to the outside; and that nothing
driven by one controller is mentioned in the logic of another. -/
theorem drive_discipline {commands : List Command} {m : Nat} {c : Controller} {l : Layout}
    (hc : (Design.empty.run commands).2.controllers[m]? = some c) (hl : c.layout = some l) :
    l.logic.combTargets = .ofList (l.combNets c.roster.sources c.irq) ∧
      l.logic.syncTargets = .ofList (l.syncNets c.roster.sources) ∧
      (l.combNets c.roster.sources c.irq ++ l.syncNets c.roster.sources).Nodup ∧
      (∀ s ∈ c.roster.sources, ¬l.logic.Drives s.trigger.id) ∧
      (∀ role, ¬l.logic.Drives (l.register role).strobe.id ∧
        ∀ w ∈ (l.register role).writtenBits, ¬l.logic.Drives w.id) ∧
      ∀ m' c' l', m' ≠ m → (Design.empty.run commands).2.controllers[m']? = some c' →
        c'.layout = some l' → ∀ x, l.logic.Drives x → ¬l'.logic.Mentions x := by
  have hwell := Design.wellFormed_run commands
  have hcross : ∀ m' c' l', m' ≠ m → (Design.empty.run commands).2.controllers[m']? = some c' →
      c'.layout = some l' → ∀ x, l.logic.Drives x → ¬l'.logic.Mentions x := by
    intro m' c' l' hne hc' hl' x hx hx'
    have hm := hwell.equips_of_mentions hc hl (.inl hx)
    have hm' := hwell.equips_of_mentions hc' hl' hx'
    exact hne ((Design.partitioned_run commands).equips_unique (Design.exclusive_run commands)
      hm' hm)
  obtain ⟨p, hsources, hirq, rfl⟩ := hwell.exists_placement hc hl
  rw [← hsources, ← hirq]
  refine ⟨?_, ?_, p.nodup_driven, ?_, ?_, hcross⟩
  · apply Std.ExtTreeSet.ext_mem
    intro x
    rw [Placement.mem_combTargets, Std.ExtTreeSet.mem_ofList, List.contains_iff_mem]
  · apply Std.ExtTreeSet.ext_mem
    intro x
    rw [Placement.mem_syncTargets, Std.ExtTreeSet.mem_ofList, List.contains_iff_mem]
  · intro s hs
    obtain ⟨i, hi⟩ := List.mem_iff_getElem?.1 hs
    exact Placement.not_drives_of_isInput (n := .port i .trigger) (Placement.net?_port hi _) rfl
  · intro role
    refine ⟨Placement.not_drives_of_isInput (n := .line role .strobe) rfl rfl, ?_⟩
    intro w hw
    obtain ⟨i, hi, rfl⟩ := List.mem_map.1 hw
    rw [List.mem_range, Placement.width_register] at hi
    exact Placement.not_drives_of_isInput (Placement.net?_written role hi) rfl

/-- The sample and a second controller with one source. -/
def Design.twoControllers : List Command :=
  Design.sample ++ [.controller, .source .process none none, .attach 1 3, .finalize 1]

/-- The driven nets of the first of two controllers, none of which the second one mentions. -/
theorem two_controllers_apart :
    let d := (Design.empty.run Design.twoControllers).2
    ∃ c l c' l', d.controllers[0]? = some c ∧ c.layout = some l ∧
      d.controllers[1]? = some c' ∧ c'.layout = some l' ∧
      l.logic.combTargets = .ofList [0, 14, 15, 16, 21, 22, 23, 2, 4, 6, 8, 11, 13, 12] ∧
      l.logic.syncTargets = .ofList [28, 29, 30, 3, 7, 9] ∧
      ∀ x, l.logic.Drives x → ¬l'.logic.Mentions x := by
  intro d
  let c := d.controllers[0]?.get (by decide +kernel)
  let c' := d.controllers[1]?.get (by decide +kernel)
  have hc : d.controllers[0]? = some c := (Option.some_get _).symm
  have hc' : d.controllers[1]? = some c' := (Option.some_get _).symm
  let l := c.layout.get (by decide +kernel)
  let l' := c'.layout.get (by decide +kernel)
  have hl : c.layout = some l := (Option.some_get _).symm
  have hl' : c'.layout = some l' := (Option.some_get _).symm
  obtain ⟨hcomb, hsync, -, -, -, hcross⟩ := drive_discipline hc hl
  refine ⟨c, l, c', l', hc, hl, hc', hl', ?_, ?_, hcross 1 c' l' (by decide) hc' hl'⟩
  · rw [hcomb]
    decide +kernel
  · rw [hsync]
    decide +kernel

end IrqSynth
