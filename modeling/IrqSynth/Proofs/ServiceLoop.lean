-- SUMMARY: Acknowledging the next event until there is none ends, after one turn per event.
import IrqSynth.Proofs.MemoryMap
import IrqSynth.Proofs.WriteEdge

/-!
# The service loop

Firmware serves a controller by acknowledging the next event until there is none. Each turn of the
loop is a bus write with its clock edge. As long as no source is about to fire, a turn takes away one
asserted event and touches no other, so the loop ends after one turn for each of them.

Main statements: `ServiceLoop.unique`, `Resting.writeWord` and `Resting.level_pending_acknowledge`
(one turn), `Resting.exists_serviceLoop` (the whole loop) and `service_loop_drains`.
-/
namespace IrqSynth

namespace Bank

variable {b final final' : Bank} {i : Nat}

/-! ## The loop -/

/-- The events that are pending and enabled, in ascending order. -/
def asserted (b : Bank) : List Nat :=
  (b.events .pending).filter fun i => i ∈ b.events .enable

theorem mem_asserted : i ∈ b.asserted ↔ i ∈ b.events .pending ∧ i ∈ b.events .enable := by
  simp [asserted]

theorem pairwise_asserted (b : Bank) : b.asserted.Pairwise (· < ·) :=
  (List.pairwise_lt_range.filter _).filter _

theorem next?_eq_head? (b : Bank) : b.next? = b.asserted.head? := by
  simp [next?, asserted, List.head?_filter]

/-- The run of the service loop from a bank to its end, with the event that each turn acknowledges and
the answer to that. -/
inductive ServiceLoop : Bank → List (Nat × Except ErrorCode Unit) → Bank → Prop where
  | done {b : Bank} (hnext : b.next? = none) : ServiceLoop b [] b
  | turn {b after final : Bank} {i : Nat} {answer : Except ErrorCode Unit}
      {rest : List (Nat × Except ErrorCode Unit)} (hnext : b.next? = some i)
      (hacknowledge : (InPlace.acknowledge i).on b = (answer, after))
      (hrest : ServiceLoop after rest final) : ServiceLoop b ((i, answer) :: rest) final

/-- The loop has no choice. -/
theorem ServiceLoop.unique {turns turns' : List (Nat × Except ErrorCode Unit)}
    (h : ServiceLoop b turns final) (h' : ServiceLoop b turns' final') :
    turns' = turns ∧ final' = final := by
  induction h generalizing turns' with
  | done hnext =>
    cases h' with
    | done => exact ⟨rfl, rfl⟩
    | turn hnext' => cases hnext.symm.trans hnext'
  | turn hnext hacknowledge hrest ih =>
    cases h' with
    | done hnext' => cases hnext.symm.trans hnext'
    | turn hnext' hacknowledge' hrest' =>
      obtain rfl := Option.some.inj (hnext.symm.trans hnext')
      obtain ⟨rfl, rfl⟩ := Prod.mk.inj (hacknowledge.symm.trans hacknowledge')
      obtain ⟨rfl, rfl⟩ := ih hrest'
      exact ⟨rfl, rfl⟩

/-- No source is about to fire, given what happened to the bank, and no level source with an enabled
event has a high trigger. -/
structure Quiet (b : Bank) (sources : List Source) (past : Journal) : Prop where
  pulse : ∀ s ∈ sources, s.kind = .pulse → b.sim.read s.trigger.id = false
  process : ∀ s ∈ sources, s.kind = .process →
    ¬(b.sim.read s.trigger.id = false ∧ past.sampled s = true)
  level : ∀ (i : Nat) (s : Source), sources[i]? = some s → s.kind = .level →
    i ∈ b.events .enable → b.sim.read s.trigger.id = false

end Bank

namespace Placement

variable {p : Placement} {b : Bank} {a : CellArray} {i k w : Nat} {s : Source} {value : BusValue}
  {visits : List Nat}

/-! ## One turn -/

/-- A settled bank between two accesses, none of whose cells fires at the next clock edge. -/
structure Resting (p : Placement) (b : Bank) (a : CellArray) : Prop where
  hosts : p.Hosts b
  solved : p.layout.logic.Solves b.sim.levels
  serves : p.Serves b a
  shows : p.Shows b.sim.levels a
  still : ∀ (i : Nat) (s : Source), p.sources[i]? = some s →
    EventCell.fires s.kind (a.inputs s.trigger.id) (a.cells i).old = false
  low : ∀ (i : Nat) (s : Source), p.sources[i]? = some s → s.kind = .level →
    (a.cells i).enable = true → a.inputs s.trigger.id = false

theorem Resting.level_bit (h : p.Resting b a) (hs : p.sources[i]? = some s) (role : Role) :
    b.level role i = a.bit p.layout i s role := by
  rw [Bank.level, h.serves.layout]
  exact h.shows.read_bit hs role

/-- With the triggers as they are, a source that does not fire at one clock edge does not fire at the
next. -/
theorem fires_clock (hs : p.sources[i]? = some s)
    (hstill : EventCell.fires s.kind (a.inputs s.trigger.id) (a.cells i).old = false) :
    EventCell.fires s.kind (a.inputs s.trigger.id) ((a.clock p.layout p.sources).cells i).old =
      false := by
  rw [cells_clock hs]
  cases hk : s.kind with
  | pulse =>
    rw [hk] at hstill
    exact hstill
  | process =>
    rw [EventCell.old_clock_process, EventCell.fires]
    exact Bool.not_and_self _
  | level => rfl

/-- A write to the pending register leaves the bank at rest. -/
theorem Resting.writeWord (h : p.Resting b a) (w : Nat) (value : BusValue) :
    p.Resting (b.writeWord .pending w value)
      (p.clocked .pending (b.lineLevel .pending w value) a) := by
  refine
    { hosts := h.hosts.writeWord .pending w value
      solved := h.hosts.solves_writeWord .pending w value
      serves := h.serves.writeWord .pending w value
      shows := h.serves.follows.shows_writeWord h.serves.layout .pending w value
      still := ?_
      low := ?_ }
  · intro i s hs
    rw [trigger_clocked hs, old_clocked hs]
    exact fires_clock hs (h.still i s hs)
  · intro i s hs hk henable
    rw [enable_clocked h.serves.idle hs] at henable
    rw [trigger_clocked hs]
    exact h.low i s hs hk henable

theorem Resting.level_enable_writeWord (h : p.Resting b a) (hs : p.sources[k]? = some s) :
    (b.writeWord .pending w value).level .enable k = b.level .enable k := by
  rw [(h.writeWord w value).level_bit hs, h.level_bit hs, CellArray.bit, CellArray.bit,
    enable_clocked h.serves.idle hs]
  rfl

/-- A clock edge at which no source fires leaves the pending bits alone. -/
theorem Resting.port_pending_clock (h : p.Resting b a) (hs : p.sources[k]? = some s) :
    (a.clock p.layout p.sources).port p.layout k s .pending = a.port p.layout k s .pending := by
  rw [CellArray.port, CellArray.port]
  by_cases hk : s.kind = .level
  · rw [hk]
    rfl
  · rw [pending_of_kind_ne _ _ hk, pending_of_kind_ne _ _ hk, cells_clock hs, EventCell.latch_clock,
      clear_of_idle (h.serves.idle .pending)]
    have hstill : EventCell.fires s.kind (a.inputsOf p.layout k s).trigger (a.cells k).old = false :=
      h.still k s hs
    rw [hstill]
    simp

theorem Resting.level_pending_writeWord (h : p.Resting b a) (hs : p.sources[k]? = some s) :
    (b.writeWord .pending w value).level .pending k =
      if s.kind ≠ .level ∧ k / BusWord.bits = w ∧ value.getLsbD (k % BusWord.bits) then false
      else b.level .pending k := by
  rw [(h.writeWord w value).level_bit hs, h.level_bit hs, CellArray.bit, CellArray.bit,
    port_pending_writeWord h.serves.layout h.serves.idle hs, h.still k s hs,
    h.port_pending_clock hs]
  simp only [true_and]

theorem Resting.exists_source (h : p.Resting b a) (role : Role)
    (hi : i < (b.layout.register role).width) : ∃ s, p.sources[i]? = some s :=
  ⟨_, List.getElem?_eq_getElem (Nat.lt_of_lt_of_eq hi (h.serves.width role))⟩

/-- Level sources are low while their event is enabled, so none of them asserts its event. -/
theorem Resting.kind_ne_of_asserted (h : p.Resting b a) (hi : i ∈ b.asserted)
    (hs : p.sources[i]? = some s) : s.kind ≠ .level := by
  intro hk
  obtain ⟨hpending, henable⟩ := Bank.mem_asserted.1 hi
  have hbit := (h.level_bit hs .enable).symm.trans (Bank.mem_events.1 henable).2
  have hport := (h.level_bit hs .pending).symm.trans (Bank.mem_events.1 hpending).2
  have hhigh : a.inputs s.trigger.id = true := by
    rw [CellArray.bit, CellArray.port, hk] at hport
    exact hport
  exact Bool.false_ne_true ((h.low i s hs hk hbit).symm.trans hhigh)

/-- Acknowledging an asserted event lowers its pending bit and no other. -/
theorem Resting.level_pending_acknowledge (h : p.Resting b a) (hi : i ∈ b.asserted)
    (hs : p.sources[k]? = some s) :
    (b.writeWord .pending (i / BusWord.bits) (1#64 <<< (i % BusWord.bits))).level .pending k =
      (b.level .pending k && decide (k ≠ i)) := by
  rw [h.level_pending_writeWord hs]
  by_cases hki : k = i
  · subst hki
    have hmask : (1#64 <<< (k % BusWord.bits)).getLsbD (k % BusWord.bits) = true :=
      (Bank.getLsbD_mask rfl).trans (decide_eq_true rfl)
    rw [if_pos ⟨h.kind_ne_of_asserted hi hs, rfl, hmask⟩, decide_eq_false (not_not.2 rfl),
      Bool.and_false]
  · have hother : ¬(s.kind ≠ .level ∧ k / BusWord.bits = i / BusWord.bits ∧
        (1#64 <<< (i % BusWord.bits)).getLsbD (k % BusWord.bits) = true) := by
      rintro ⟨-, hdiv, hbit⟩
      rw [Bank.getLsbD_mask hdiv] at hbit
      exact hki (of_decide_eq_true hbit)
    rw [if_neg hother, decide_eq_true hki, Bool.and_true]

theorem Resting.events_enable_writeWord (h : p.Resting b a) (w : Nat) (value : BusValue) :
    (b.writeWord .pending w value).events .enable = b.events .enable := by
  refine List.filter_congr fun k hk => ?_
  obtain ⟨s, hs⟩ := h.exists_source .enable (List.mem_range.1 hk)
  exact h.level_enable_writeWord hs

theorem Resting.events_pending_acknowledge (h : p.Resting b a) (hi : i ∈ b.asserted) :
    (b.writeWord .pending (i / BusWord.bits) (1#64 <<< (i % BusWord.bits))).events .pending =
      (b.events .pending).filter fun k => k ≠ i := by
  rw [Bank.events, Bank.events, List.filter_filter]
  refine List.filter_congr fun k hk => ?_
  obtain ⟨s, hs⟩ := h.exists_source .pending (List.mem_range.1 hk)
  rw [h.level_pending_acknowledge hi hs, Bool.and_comm]

/-- No event is listed twice, so the others stay asserted. -/
theorem Resting.asserted_acknowledge (h : p.Resting b a) (hvisits : b.asserted = i :: visits) :
    (b.writeWord .pending (i / BusWord.bits) (1#64 <<< (i % BusWord.bits))).asserted = visits := by
  have hi : i ∈ b.asserted := by simp [hvisits]
  have hlater : ∀ k ∈ visits, i < k := by
    have hsorted := b.pairwise_asserted
    rw [hvisits] at hsorted
    exact (List.pairwise_cons.1 hsorted).1
  calc (b.writeWord .pending (i / BusWord.bits) (1#64 <<< (i % BusWord.bits))).asserted
      = ((b.events .pending).filter fun k => k ≠ i).filter fun k => k ∈ b.events .enable := by
        rw [Bank.asserted, h.events_pending_acknowledge hi, h.events_enable_writeWord]
    _ = b.asserted.filter fun k => k ≠ i := by
        simp only [Bank.asserted, List.filter_filter, Bool.and_comm]
    _ = visits.filter fun k => k ≠ i := by simp [hvisits]
    _ = visits := by
        refine List.filter_eq_self.2 fun k hk => ?_
        exact decide_eq_true (Nat.ne_of_gt (hlater k hk))

/-! ## The whole loop -/

/-- The loop takes the asserted events one after the other. -/
theorem Resting.exists_serviceLoop (h : p.Resting b a) (hvisits : b.asserted = visits) :
    ∃ final a', p.Resting final a' ∧
      Bank.ServiceLoop b (visits.map fun i => (i, .ok ())) final ∧ final.asserted = [] ∧
      final.events .enable = b.events .enable ∧
      final.events .pending = (b.events .pending).filter fun k => k ∉ visits := by
  induction visits generalizing b a with
  | nil =>
    have hnext : b.next? = none := by rw [b.next?_eq_head?, hvisits, List.head?_nil]
    exact ⟨b, a, h, .done hnext, hvisits, rfl, by simp⟩
  | cons i rest ih =>
    have hi : i ∈ b.asserted := by simp [hvisits]
    have hlt : i < b.width := by
      have hwidth := (h.serves.width .pending).trans (h.serves.width .status).symm
      exact Nat.lt_of_lt_of_eq (Bank.mem_events.1 (Bank.mem_asserted.1 hi).1).1 hwidth
    have hnext : b.next? = some i := by rw [b.next?_eq_head?, hvisits, List.head?_cons]
    have hacknowledge := InPlace.on_perform b (.acknowledge i)
    rw [Bank.perform, Bank.acknowledge_of_lt hlt] at hacknowledge
    have henable := h.events_enable_writeWord (i / BusWord.bits) (1#64 <<< (i % BusWord.bits))
    have hpending := h.events_pending_acknowledge hi
    obtain ⟨final, a', hfinal, hloop, hnone, henable', hpending'⟩ :=
      ih (h.writeWord _ _) (h.asserted_acknowledge hvisits)
    refine ⟨final, a', hfinal, .turn hnext hacknowledge hloop, hnone, henable'.trans henable, ?_⟩
    rw [hpending', hpending, List.filter_filter]
    refine List.filter_congr fun k _ => ?_
    simp [Bool.and_comm]

/-! ## From histories to rest -/

/-- A settled bank is at rest if its history and its levels say that no source is about to fire. -/
theorem Recounts.resting {past : Journal} (h : p.Recounts past a) (hserves : p.Serves b a)
    (hhosts : p.Hosts b) (hquiet : Bank.Quiet { b with sim := b.sim.settle.1 } p.sources past) :
    p.Resting { b with sim := b.sim.settle.1 } a := by
  have hsettled := hserves.settle
  have hshows := hserves.follows.shows_settle
  have htrigger (i : Nat) (s : Source) (hs : p.sources[i]? = some s) :
      b.sim.settle.1.read s.trigger.id = a.inputs s.trigger.id :=
    hshows.read_port hs (q := .trigger) rfl
  refine
    { hosts := ⟨hhosts.layout, hhosts.irqLine, hhosts.fragment⟩
      solved := solves_settle hhosts.fragment
      serves := hsettled
      shows := hshows
      still := ?_
      low := ?_ }
  · intro i s hs
    have hmem := List.mem_of_getElem? hs
    rw [← htrigger i s hs]
    cases hk : s.kind with
    | pulse => exact hquiet.pulse s hmem hk
    | process =>
      rw [h.old i s hs hk, EventCell.fires, Bool.eq_false_iff]
      intro hfires
      simp only [Bool.and_eq_true, Bool.not_eq_true'] at hfires
      exact hquiet.process s hmem hk hfires
    | level => rfl
  · intro i s hs hk henable
    rw [← htrigger i s hs]
    refine hquiet.level i s hs hk (Bank.mem_events.2 ⟨?_, ?_⟩)
    · exact Nat.lt_of_lt_of_eq (lt_length hs) (hsettled.width .enable).symm
    · exact (hsettled.level_enable hs).trans henable

end Placement

/-! ## Main result -/

/-- After any use of a bank that ends with a settling, and with no source about to fire, the service
loop comes to its end. It takes one turn for each event that was pending and enabled at first, in
ascending order, and no acknowledgement is refused. It leaves the interrupt line low, the enable
register as it was, and of the pending register just the bits of the events that are not enabled. -/
theorem service_loop_drains {commands : List Command} {m : Nat} {c : Controller} {b : Bank}
    {actions : List Bank.Action}
    (hc : (Design.empty.run commands).2.controllers[m]? = some c) (hb : Bank.create c = .ok b)
    (htriggers : ∀ x level, .drive (.set x level) ∈ actions →
      ∃ t ∈ c.roster.sources, x = t.trigger.id)
    (hquiet : (b.run (actions ++ [.drive .settle])).Quiet c.roster.sources
      (b.journal .blank actions)) :
    let start := b.run (actions ++ [.drive .settle])
    start.asserted.Pairwise (· < ·) ∧
      (∀ i, i ∈ start.asserted ↔ i ∈ start.events .pending ∧ i ∈ start.events .enable) ∧
      ∃ final, start.ServiceLoop (start.asserted.map fun i => (i, .ok ())) final ∧
        (∀ turns final', start.ServiceLoop turns final' →
          turns = start.asserted.map (fun i => (i, .ok ())) ∧ final' = final) ∧
        final.irq = false ∧ final.events .enable = start.events .enable ∧
        final.events .pending = (start.events .pending).filter fun k => k ∉ start.events .enable := by
  intro start
  obtain ⟨p, hsources, rfl⟩ := Placement.exists_create (Design.wellFormed_run commands) hc hb
  rw [← hsources] at htriggers hquiet
  obtain ⟨a, hserves, hrecounts⟩ :=
    p.recounts_initial.run (p.serves_start p.irq) (p.drivesTriggers htriggers)
  have hresting : p.Resting start a := by
    simp only [start, Bank.run, List.foldl_append] at hquiet ⊢
    exact hrecounts.resting hserves (p.hosts_start.run actions) hquiet
  obtain ⟨final, a', hfinal, hloop, hnone, henable, hpending⟩ := hresting.exists_serviceLoop rfl
  refine ⟨start.pairwise_asserted, fun i => Bank.mem_asserted, final, hloop, ?_, ?_, henable, ?_⟩
  · intro turns final' hloop'
    exact hloop.unique hloop'
  · rw [Bool.eq_false_iff, ne_eq, hfinal.hosts.irq_iff hfinal.solved, not_not,
      final.next?_eq_head?, hnone, List.head?_nil]
  · rw [hpending]
    refine List.filter_congr fun k hk => ?_
    simp [Bank.mem_asserted, hk]

/-- In the sample the events of the pulse source and of the process source are pending and enabled, that
of the level source is pending but not enabled. -/
theorem sample_service :
    let b : Bank :=
      ⟨Design.sampleLayout, Design.sampleController.irq, .start Design.sampleLayout.logic⟩
    let actions : List Bank.Action :=
      [.drive (.set 1 true), .drive (.set 5 true), .drive (.set 10 true), .write 8 3,
        .drive (.set 1 false), .drive (.set 5 false), .drive .tick]
    let start := b.run (actions ++ [.drive .settle])
    Bank.create Design.sampleController = .ok b ∧
      (∀ x level, .drive (.set x level) ∈ actions →
        ∃ t ∈ Design.sampleController.roster.sources, x = t.trigger.id) ∧
      start.Quiet Design.sampleController.roster.sources (b.journal .blank actions) ∧
      start.events .pending = [0, 1, 2] ∧ start.events .enable = [0, 1] ∧
      ∃ final, start.ServiceLoop [(0, .ok ()), (1, .ok ())] final ∧ final.irq = false ∧
        final.events .enable = [0, 1] ∧ final.events .pending = [2] := by
  intro b actions start
  have hb : Bank.create Design.sampleController = .ok b :=
    Bank.create_eq_ok.2 ⟨_, Design.sample_layout, rfl⟩
  have hsources : Design.sampleController.roster.sources =
      [⟨0, .pulse, some "rx", none, 1⟩, ⟨1, .process, none, none, 5⟩,
        ⟨2, .level, some "slot", none, 10⟩] := by decide +kernel
  have htriggers : ∀ x level, .drive (.set x level) ∈ actions →
      ∃ t ∈ Design.sampleController.roster.sources, x = t.trigger.id := by
    intro x level hset
    have hx : x = 1 ∨ x = 5 ∨ x = 10 := by
      simp only [actions, List.mem_cons, Bank.Action.drive.injEq, Simulator.Action.set.injEq,
        List.not_mem_nil] at hset
      grind
    rw [hsources]
    simpa [Source.trigger] using hx
  have hstart : (start.sim.read 1, start.events .pending, start.events .enable) =
      (false, [0, 1, 2], [0, 1]) := by decide +kernel
  simp only [Prod.mk.injEq] at hstart
  obtain ⟨hlow, hpending, henable⟩ := hstart
  have hquiet : start.Quiet Design.sampleController.roster.sources (b.journal .blank actions) := by
    have hsampled : (b.journal .blank actions).sampled ⟨1, .process, none, none, 5⟩ = false := by
      decide +kernel
    rw [hsources]
    refine ⟨?_, ?_, ?_⟩
    · intro s hs hk
      simp only [List.mem_cons, List.not_mem_nil, or_false] at hs
      rcases hs with rfl | rfl | rfl
      · exact hlow
      · cases hk
      · cases hk
    · intro s hs hk
      simp only [List.mem_cons, List.not_mem_nil, or_false] at hs
      rcases hs with rfl | rfl | rfl
      · cases hk
      · exact fun hfires => Bool.false_ne_true (hsampled.symm.trans hfires.2)
      · cases hk
    · intro i s hs hk henabled
      rw [henable] at henabled
      simp only [List.mem_cons, List.not_mem_nil, or_false] at henabled
      rcases henabled with rfl | rfl
      · obtain rfl := Option.some.inj hs
        cases hk
      · obtain rfl := Option.some.inj hs
        cases hk
  obtain ⟨-, -, final, hloop, -, hirq, henable', hpending'⟩ :=
    service_loop_drains Design.sample_controller hb htriggers hquiet
  have hasserted : start.asserted = [0, 1] := by simp [Bank.asserted, hpending, henable]
  refine ⟨hb, htriggers, hquiet, hpending, henable, final, ?_, hirq, henable'.trans henable, ?_⟩
  · exact (congrArg (fun visits => start.ServiceLoop (visits.map fun i => (i, .ok ())) final)
      hasserted).mp hloop
  · refine hpending'.trans ?_
    rw [hpending, henable]
    rfl

end IrqSynth
