-- SUMMARY: The assignments that the logic of a layout has for each of its nets.
import IrqSynth.EventCell
import IrqSynth.Proofs.Net

/-!
# Wiring of a layout

Which assignments the logic of a layout has for each of its nets. A net is driven combinationally by
at most one assignment; at clock edges a pending port is driven by its own source alone, an enable
bit by the write strobe alone.

Main statements: `mem_comb` with `lastActive?_comb`, `lastActive?_sync_port` and
`lastActive?_sync_enable`.
-/
namespace IrqSynth

open Assignment Stmt

/-! ## One source -/

namespace Source

/-- What drives the status port. -/
def statusValue (s : Source) : Expr :=
  match s.kind with
  | .pulse => .lit false
  | .process => .signal s.trigger.id
  | .level => .signal s.trigger.id

theorem eval_statusValue (ρ : SignalId → Bool) (s : Source) :
    s.statusValue.eval ρ = EventCell.status s.kind (ρ s.trigger.id) := by
  unfold statusValue
  cases s.kind <;> rfl

theorem eval_fires (ρ : SignalId → Bool) (s : Source) :
    s.fires.eval ρ = EventCell.fires s.kind (ρ s.trigger.id) (ρ s.oldTrigger.id) := by
  unfold fires
  cases s.kind <;> rfl

theorem mem_comb {s : Source} {a : Assignment} :
    a ∈ assignmentsAll s.logic.comb ↔
      a = ⟨[], s.status.id, s.statusValue⟩ ∨
        s.kind = .level ∧ a = ⟨[], s.pending.id, .signal s.trigger.id⟩ := by
  unfold logic statusValue
  cases s.kind <;> simp [assignmentsAll]

/-- What the clocked logic of a source makes of its pending port. -/
theorem lastActive?_sync_pending (ρ : SignalId → Bool) {s : Source} (hk : s.kind ≠ .level) :
    lastActive? ρ (assignmentsAll s.logic.sync) s.pending.id =
      if s.fires.eval ρ then some true else if ρ s.clear.id then some false else none := by
  unfold logic
  cases hkind : s.kind with
  | level => exact absurd hkind hk
  | pulse =>
    simp only [assignmentsAll, latch, acknowledge, assignments_guard_drive, List.append_nil,
      List.cons_append, List.nil_append, lastActive?_cons, active, List.all_cons, List.all_nil,
      Bool.and_true, Expr.eval, true_and]
    cases s.fires.eval ρ <;> cases ρ s.clear.id <;> rfl
  | process =>
    have hold : s.oldTrigger.id ≠ s.pending.id := by simp [oldTrigger, pending]
    simp only [assignmentsAll, latch, acknowledge, assignments_guard_drive, assignments_drive,
      List.append_nil, List.cons_append, List.nil_append, lastActive?_cons, active, List.all_cons,
      List.all_nil, Bool.and_true, Expr.eval, true_and, hold, false_and, if_false, Option.or_none]
    cases s.fires.eval ρ <;> cases ρ s.clear.id <;> rfl

/-- The copy of the trigger follows it at every edge. -/
theorem lastActive?_sync_oldTrigger (ρ : SignalId → Bool) {s : Source} (hk : s.kind = .process) :
    lastActive? ρ (assignmentsAll s.logic.sync) s.oldTrigger.id = some (ρ s.trigger.id) := by
  have hold : s.pending.id ≠ s.oldTrigger.id := by simp [oldTrigger, pending]
  simp only [logic, hk, assignmentsAll, latch, acknowledge, assignments_guard_drive,
    assignments_drive, List.append_nil, List.cons_append, List.nil_append, lastActive?_cons, active,
    List.all_nil, Expr.eval, true_and, hold, false_and, if_false, Option.or_none, if_true]
  rfl

/-- The clocked logic of a source drives its pending port and its copy of the trigger. -/
theorem target_sync {s : Source} {a : Assignment} (ha : a ∈ assignmentsAll s.logic.sync) :
    (s.kind ≠ .level ∧ s.net? .pending = some a.target) ∨ s.net? .oldTrigger = some a.target := by
  unfold logic at ha
  cases hk : s.kind with
  | level => simp [hk, assignmentsAll] at ha
  | pulse =>
    simp only [hk, assignmentsAll, latch, acknowledge, assignments_guard_drive, List.append_nil,
      List.cons_append, List.nil_append, List.mem_cons, List.not_mem_nil, or_false] at ha
    rcases ha with rfl | rfl <;> exact .inl ⟨by simp, rfl⟩
  | process =>
    simp only [hk, assignmentsAll, latch, acknowledge, assignments_guard_drive, assignments_drive,
      List.append_nil, List.cons_append, List.nil_append, List.mem_cons, List.not_mem_nil,
      or_false] at ha
    rcases ha with rfl | rfl | rfl
    · exact .inl ⟨by simp, rfl⟩
    · exact .inr (by simp [net?, hk])
    · exact .inl ⟨by simp, rfl⟩

end Source

/-! ## One register -/

namespace Register

variable {r : Register} {a : Assignment} {i : Nat}

theorem logic_of_kind_ne (hk : r.kind ≠ .storage) : r.logic = .empty := by
  unfold logic
  cases hkind : r.kind with
  | storage => exact absurd hkind hk
  | status => rfl
  | writeOneToClear => rfl

theorem logic_of_storage (hk : r.kind = .storage) :
    r.logic = ⟨[], [.guard (.signal r.strobe.id) r.capture]⟩ := by
  rw [logic, hk]

/-- Storage takes over one write line for each bit, all under the strobe. -/
theorem mem_capture :
    a ∈ assignmentsAll [.guard (.signal r.strobe.id) r.capture] ↔
      ∃ i < r.width,
        a = ⟨[.signal r.strobe.id], (r.bit i).id, .signal (r.written i).id⟩ := by
  rw [assignmentsAll, assignmentsAll, List.append_nil, assignments, List.mem_map]
  simp only [mem_assignmentsAll, capture, List.mem_map, List.mem_range]
  constructor
  · rintro ⟨b, ⟨st, ⟨i, hi, rfl⟩, hb⟩, rfl⟩
    obtain rfl := List.mem_singleton.1 hb
    exact ⟨i, hi, rfl⟩
  · rintro ⟨i, hi, rfl⟩
    exact ⟨_, ⟨_, ⟨i, hi, rfl⟩, List.mem_singleton.2 rfl⟩, rfl⟩

/-- A bit of storage takes over its write line under the strobe. -/
theorem lastActive?_capture (ρ : SignalId → Bool) (hi : i < r.width) :
    lastActive? ρ (assignmentsAll [.guard (.signal r.strobe.id) r.capture]) (r.bit i).id =
      if ρ r.strobe.id then some (ρ (r.written i).id) else none := by
  have hunique := lastActive?_of_unique (ρ := ρ) (mem_capture.2 ⟨i, hi, rfl⟩) (by
    intro b hb htarget
    obtain ⟨j, -, rfl⟩ := mem_capture.1 hb
    have hij : j = i := by
      simp only [bit] at htarget
      lia
    rw [hij])
  rw [hunique]
  simp [active, Expr.eval]

end Register

/-! ## Combinational logic of a layout -/

namespace Placement

variable (p : Placement)

/-- The assignment that drives a net combinationally, if there is one. -/
def combDriver? : Net → Option Assignment
  | .irq => some ⟨[], p.irq.id, Layout.asserted p.layout.pending p.layout.enable p.sources.length⟩
  | .port i .status => p.sources[i]?.map fun s => ⟨[], s.status.id, s.statusValue⟩
  | .port i .pending =>
    p.sources[i]?.bind fun s =>
      if s.kind = .level then some ⟨[], s.pending.id, .signal s.trigger.id⟩ else none
  | .port i .clear =>
    p.sources[i]?.map fun s =>
      ⟨[.and (.signal p.layout.pending.strobe.id) (.signal (p.layout.pending.written i).id)],
        s.clear.id, .lit true⟩
  | .line .status (.bit i) =>
    p.sources[i]?.map fun s => ⟨[], (p.layout.status.bit i).id, .signal s.status.id⟩
  | .line .pending (.bit i) =>
    p.sources[i]?.map fun s => ⟨[], (p.layout.pending.bit i).id, .signal s.pending.id⟩
  | _ => none

variable {p} {a : Assignment} {n : Net} {x : SignalId} {i : Nat} {s : Source}

theorem mem_wires {status pending : Register} {sources : List Source} :
    a ∈ assignmentsAll (sources.mapIdx (Layout.wire status pending)).flatten ↔
      ∃ i s, sources[i]? = some s ∧
        (a = ⟨[], (status.bit i).id, .signal s.status.id⟩ ∨
          a = ⟨[], (pending.bit i).id, .signal s.pending.id⟩ ∨
          a = ⟨[.and (.signal pending.strobe.id) (.signal (pending.written i).id)],
            s.clear.id, .lit true⟩) := by
  have hwire (i : Nat) (s : Source) : a ∈ assignmentsAll (Layout.wire status pending i s) ↔
      (a = ⟨[], (status.bit i).id, .signal s.status.id⟩ ∨
        a = ⟨[], (pending.bit i).id, .signal s.pending.id⟩ ∨
        a = ⟨[.and (.signal pending.strobe.id) (.signal (pending.written i).id)],
          s.clear.id, .lit true⟩) := by
    simp [Layout.wire, assignmentsAll]
  constructor
  · intro ha
    obtain ⟨st, hst, ha⟩ := mem_assignmentsAll.1 ha
    obtain ⟨block, hblock, hst⟩ := List.mem_flatten.1 hst
    obtain ⟨i, hi, rfl⟩ := List.mem_mapIdx.1 hblock
    exact ⟨i, sources[i], List.getElem?_eq_getElem hi,
      (hwire i _).1 (mem_assignmentsAll.2 ⟨st, hst, ha⟩)⟩
  · rintro ⟨i, s, hs, ha⟩
    obtain ⟨hi, rfl⟩ := List.getElem?_eq_some_iff.1 hs
    obtain ⟨st, hst, ha⟩ := mem_assignmentsAll.1 ((hwire i _).2 ha)
    exact mem_assignmentsAll.2
      ⟨st, List.mem_flatten.2 ⟨_, List.mem_mapIdx.2 ⟨i, hi, rfl⟩, hst⟩, ha⟩

theorem comb_layout : p.layout.logic.comb =
    (p.sources.flatMap fun s => s.logic.comb) ++
      ((p.sources.mapIdx (Layout.wire p.layout.status p.layout.pending)).flatten ++
        [p.irq.drive (Layout.asserted p.layout.pending p.layout.enable p.sources.length)]) := by
  simp [layout, Layout.synthesize, Register.logic, Role.kind, Fragment.concat, List.flatMap_map]

/-- The combinational assignments of a layout are the drivers of its nets. -/
theorem mem_comb :
    a ∈ assignmentsAll p.layout.logic.comb ↔ ∃ n, p.combDriver? n = some a := by
  have hsources : a ∈ assignmentsAll (p.sources.flatMap fun s => s.logic.comb) ↔
      ∃ s ∈ p.sources, a ∈ assignmentsAll s.logic.comb := by
    simp only [mem_assignmentsAll, List.mem_flatMap]
    grind
  rw [comb_layout, assignmentsAll_append, assignmentsAll_append, List.mem_append, List.mem_append,
    hsources, mem_wires]
  constructor
  · rintro (⟨s, hs, ha⟩ | ⟨i, s, hs, rfl | rfl | rfl⟩ | ha)
    · obtain ⟨i, hi⟩ := List.mem_iff_getElem?.1 hs
      rcases Source.mem_comb.1 ha with rfl | ⟨hk, rfl⟩
      · exact ⟨.port i .status, by simp [combDriver?, hi]⟩
      · exact ⟨.port i .pending, by simp [combDriver?, hi, hk]⟩
    · exact ⟨.line .status (.bit i), by simp [combDriver?, hs]⟩
    · exact ⟨.line .pending (.bit i), by simp [combDriver?, hs]⟩
    · exact ⟨.port i .clear, by simp [combDriver?, hs]⟩
    · obtain rfl := List.mem_singleton.1 ha
      exact ⟨.irq, rfl⟩
  · rintro ⟨n, hn⟩
    unfold combDriver? at hn
    split at hn
    · exact .inr (.inr (List.mem_singleton.2 (Option.some.inj hn).symm))
    · obtain ⟨s, hs, rfl⟩ := Option.map_eq_some_iff.1 hn
      exact .inl ⟨s, List.mem_of_getElem? hs, Source.mem_comb.2 (.inl rfl)⟩
    · obtain ⟨s, hs, hif⟩ := Option.bind_eq_some_iff.1 hn
      obtain ⟨hk, ha⟩ := Option.ite_none_right_eq_some.1 hif
      obtain rfl := Option.some.inj ha
      exact .inl ⟨s, List.mem_of_getElem? hs, Source.mem_comb.2 (.inr ⟨hk, rfl⟩)⟩
    · obtain ⟨s, hs, rfl⟩ := Option.map_eq_some_iff.1 hn
      exact .inr (.inl ⟨_, s, hs, .inr (.inr rfl)⟩)
    · obtain ⟨s, hs, rfl⟩ := Option.map_eq_some_iff.1 hn
      exact .inr (.inl ⟨_, s, hs, .inl rfl⟩)
    · obtain ⟨s, hs, rfl⟩ := Option.map_eq_some_iff.1 hn
      exact .inr (.inl ⟨_, s, hs, .inr (.inl rfl)⟩)
    · cases hn

theorem net?_bit (role : Role) (hi : i < p.sources.length) :
    p.net? (.line role (.bit i)) = some ((p.layout.register role).bit i).id := by
  simp [net?, Layout.net?, Register.net?, Register.bit?, hi]

theorem net?_written (role : Role) (hi : i < p.sources.length) :
    p.net? (.line role (.written i)) = some ((p.layout.register role).written i).id := by
  simp [net?, Layout.net?, Register.net?, Register.written?, hi]

theorem lt_length (hs : p.sources[i]? = some s) : i < p.sources.length :=
  (List.getElem?_eq_some_iff.1 hs).1

/-- The driver of a net is an assignment to that net. -/
theorem net?_of_combDriver? (ha : p.combDriver? n = some a) : p.net? n = some a.target := by
  unfold combDriver? at ha
  split at ha
  · obtain rfl := Option.some.inj ha
    rfl
  · obtain ⟨s, hs, rfl⟩ := Option.map_eq_some_iff.1 ha
    exact net?_port hs .status
  · obtain ⟨s, hs, hif⟩ := Option.bind_eq_some_iff.1 ha
    obtain ⟨hk, ha⟩ := Option.ite_none_right_eq_some.1 hif
    obtain rfl := Option.some.inj ha
    exact net?_port hs .pending
  · obtain ⟨s, hs, rfl⟩ := Option.map_eq_some_iff.1 ha
    exact net?_port hs .clear
  · obtain ⟨s, hs, rfl⟩ := Option.map_eq_some_iff.1 ha
    exact net?_bit .status (lt_length hs)
  · obtain ⟨s, hs, rfl⟩ := Option.map_eq_some_iff.1 ha
    exact net?_bit .pending (lt_length hs)
  · cases ha

/-- No net has two combinational drivers. -/
theorem eq_of_mem_comb {b : Assignment} (ha : a ∈ assignmentsAll p.layout.logic.comb)
    (hb : b ∈ assignmentsAll p.layout.logic.comb) (htarget : a.target = b.target) : a = b := by
  obtain ⟨n, hn⟩ := mem_comb.1 ha
  obtain ⟨m, hm⟩ := mem_comb.1 hb
  obtain rfl := net?_injective (net?_of_combDriver? hn) (htarget ▸ net?_of_combDriver? hm)
  exact Option.some.inj (hn.symm.trans hm)

/-- What the combinational logic makes of a net is what its one driver makes of it. -/
theorem lastActive?_comb (ρ : SignalId → Bool) (ha : p.combDriver? n = some a)
    (hn : p.net? n = some x) :
    lastActive? ρ (assignmentsAll p.layout.logic.comb) x =
      if a.active ρ then some (a.value.eval ρ) else none := by
  obtain rfl : a.target = x := Option.some.inj ((net?_of_combDriver? ha).symm.trans hn)
  have hmem := mem_comb.2 ⟨n, ha⟩
  exact lastActive?_of_unique hmem fun b hb htarget => eq_of_mem_comb hb hmem htarget

theorem mem_combTargets_iff (hn : p.net? n = some x) :
    x ∈ p.layout.logic.combTargets ↔ (p.combDriver? n).isSome := by
  rw [Fragment.mem_combTargets, targetsAll_eq_map, List.mem_map]
  constructor
  · rintro ⟨a, ha, rfl⟩
    obtain ⟨m, hm⟩ := mem_comb.1 ha
    rw [net?_injective hn (net?_of_combDriver? hm), hm]
    rfl
  · intro hsome
    obtain ⟨a, ha⟩ := Option.isSome_iff_exists.1 hsome
    refine ⟨a, mem_comb.2 ⟨n, ha⟩, ?_⟩
    exact Option.some.inj ((net?_of_combDriver? ha).symm.trans hn)

/-! ## Clocked logic of a layout -/

theorem sync_layout : p.layout.logic.sync =
    (p.sources.flatMap fun s => s.logic.sync) ++
      [.guard (.signal p.layout.enable.strobe.id) p.layout.enable.capture] := by
  have henable : p.layout.enable.logic =
      ⟨[], [.guard (.signal p.layout.enable.strobe.id) p.layout.enable.capture]⟩ :=
    Register.logic_of_storage (p.kind_register .enable)
  have hlogic : p.layout.logic = Fragment.concat (p.sources.map Source.logic) ++
      p.layout.enable.logic ++
      ⟨(p.sources.mapIdx (Layout.wire p.layout.status p.layout.pending)).flatten ++
        [p.irq.drive (Layout.asserted p.layout.pending p.layout.enable p.sources.length)], []⟩ :=
    rfl
  rw [hlogic, henable]
  simp [Fragment.concat, List.flatMap_map]

theorem net?_of_mem_capture (ha : a ∈ assignmentsAll
    [.guard (.signal p.layout.enable.strobe.id) p.layout.enable.capture]) :
    ∃ i, p.net? (.line .enable (.bit i)) = some a.target := by
  obtain ⟨i, hi, rfl⟩ := Register.mem_capture.1 ha
  have hlen : i < p.sources.length := by
    rw [← p.width_register .enable]
    exact hi
  exact ⟨i, net?_bit .enable hlen⟩

/-- A port is clocked by its own source alone. -/
theorem lastActive?_sync_port (ρ : SignalId → Bool) (hs : p.sources[i]? = some s) {q : Port}
    (hq : s.net? q = some x) :
    lastActive? ρ (assignmentsAll p.layout.logic.sync) x =
      lastActive? ρ (assignmentsAll s.logic.sync) x := by
  have hx : p.net? (.port i q) = some x := (net?_port hs q).trans hq
  have hcapture : lastActive? ρ (assignmentsAll
      [.guard (.signal p.layout.enable.strobe.id) p.layout.enable.capture]) x = none := by
    apply lastActive?_eq_none
    rintro a ha rfl
    obtain ⟨j, hj⟩ := net?_of_mem_capture ha
    cases net?_injective hx hj
  rw [sync_layout, assignmentsAll_append, lastActive?_append, hcapture, Option.none_or,
    assignmentsAll_flatMap]
  refine lastActive?_flatMap (List.mem_of_getElem? hs) ?_
  intro t ht
  by_cases hts : t = s
  · exact .inl hts
  · right
    rintro a ha rfl
    obtain ⟨j, hj⟩ := List.mem_iff_getElem?.1 ht
    have hport : ∃ r, p.net? (.port j r) = some a.target := by
      rcases Source.target_sync ha with ⟨-, h⟩ | h
      · exact ⟨_, (net?_port hj _).trans h⟩
      · exact ⟨_, (net?_port hj _).trans h⟩
    obtain ⟨r, hr⟩ := hport
    cases net?_injective hx hr
    exact hts (Option.some.inj (hj.symm.trans hs))

/-- An enable bit takes over its write line under the strobe. -/
theorem lastActive?_sync_enable (ρ : SignalId → Bool) (hi : i < p.sources.length) :
    lastActive? ρ (assignmentsAll p.layout.logic.sync) (p.layout.enable.bit i).id =
      if ρ p.layout.enable.strobe.id then some (ρ (p.layout.enable.written i).id) else none := by
  have hbit : p.net? (.line .enable (.bit i)) = some (p.layout.enable.bit i).id :=
    net?_bit .enable hi
  have hsources : lastActive? ρ (assignmentsAll (p.sources.flatMap fun s => s.logic.sync))
      (p.layout.enable.bit i).id = none := by
    apply lastActive?_eq_none
    intro a ha htarget
    rw [assignmentsAll_flatMap] at ha
    obtain ⟨t, ht, ha⟩ := List.mem_flatMap.1 ha
    obtain ⟨j, hj⟩ := List.mem_iff_getElem?.1 ht
    rw [← htarget] at hbit
    rcases Source.target_sync ha with ⟨-, h⟩ | h
    · cases net?_injective hbit ((net?_port hj _).trans h)
    · cases net?_injective hbit ((net?_port hj _).trans h)
  have hwidth : i < p.layout.enable.width := by
    rw [← p.width_register .enable] at hi
    exact hi
  rw [sync_layout, assignmentsAll_append, lastActive?_append, hsources, Option.or_none,
    Register.lastActive?_capture ρ hwidth]

/-- Clocked logic drives pending ports, copies of triggers and enable bits. -/
theorem net?_of_mem_sync (ha : a ∈ assignmentsAll p.layout.logic.sync) :
    (∃ i s, p.sources[i]? = some s ∧ s.kind ≠ .level ∧ p.net? (.port i .pending) = some a.target) ∨
      (∃ i, p.net? (.port i .oldTrigger) = some a.target) ∨
      ∃ i, p.net? (.line .enable (.bit i)) = some a.target := by
  rw [sync_layout, assignmentsAll_append, List.mem_append, assignmentsAll_flatMap] at ha
  rcases ha with ha | ha
  · obtain ⟨s, hs, ha⟩ := List.mem_flatMap.1 ha
    obtain ⟨i, hi⟩ := List.mem_iff_getElem?.1 hs
    rcases Source.target_sync ha with ⟨hk, h⟩ | h
    · exact .inl ⟨i, s, hi, hk, (net?_port hi _).trans h⟩
    · exact .inr (.inl ⟨i, (net?_port hi _).trans h⟩)
  · exact .inr (.inr (net?_of_mem_capture ha))

end Placement

end IrqSynth
