-- SUMMARY: A source simulated alone behaves as it does under a controller.
import IrqSynth.Proofs.Construction
import IrqSynth.Proofs.Refinement

/-!
# Sources alone

A source simulated without a controller is one event cell whose clear line is left to the outside.
Under a controller it is the same cell: if the source alone is given the trigger and the clear line
that it has there, its ports have the same levels.

Main statements: `Source.Tracks.settle` and `Source.Shows.edge` (a source alone is an event cell),
`Mirrors.run` (it stays beside the cell of the controller) and `attached_source_behaves_as_alone`.
-/
namespace IrqSynth

open Assignment
open Stmt (assignmentsAll targetsAll_eq_map)

namespace Source

variable {s : Source} {v : Levels} {a : Assignment} {x : SignalId} {trigger clear b : Bool}
  {c : EventCell} {p q : Port}

theorem net?_injective (hp : s.net? p = some x) (hq : s.net? q = some x) : p = q := by
  obtain ⟨hpx, -⟩ := net?_eq_some.1 hp
  obtain ⟨hqx, -⟩ := net?_eq_some.1 hq
  exact Port.offset_injective (Nat.add_left_cancel (hpx.symm.trans hqx))

/-! ## Combinational logic -/

theorem mem_combTargets (hq : s.net? q = some x) :
    x ∈ s.logic.combTargets ↔ q = .status ∨ s.kind = .level ∧ q = .pending := by
  rw [Fragment.mem_combTargets, targetsAll_eq_map, List.mem_map]
  simp only [mem_comb]
  constructor
  · rintro ⟨a, rfl | ⟨hk, rfl⟩, rfl⟩
    · exact .inl (net?_injective hq rfl)
    · exact .inr ⟨hk, net?_injective hq rfl⟩
  · rintro (rfl | ⟨hk, rfl⟩)
    · exact ⟨_, .inl rfl, Option.some.inj hq⟩
    · exact ⟨_, .inr ⟨hk, rfl⟩, Option.some.inj hq⟩

theorem eq_trigger_of_reads (ha : a ∈ assignmentsAll s.logic.comb) (hx : x ∈ a.reads) :
    x = s.trigger.id := by
  rcases mem_comb.1 ha with rfl | ⟨-, rfl⟩
  · unfold reads statusValue at hx
    cases hk : s.kind <;> simp [hk, Expr.reads] at hx
    · exact hx
    · exact hx
  · exact List.mem_singleton.1 hx

/-- The combinational logic of a source is one level deep. -/
theorem rankedWithin (s : Source) : s.logic.RankedWithin (fun _ => 1) 1 where
  reads := by
    intro a ha x hx hdriven
    obtain rfl := eq_trigger_of_reads ha hx
    simp [mem_combTargets (q := .trigger) rfl] at hdriven
  pos := fun _ _ => Nat.le_refl 1
  le := fun _ _ => Nat.le_refl 1

/-- No port has two combinational drivers. -/
theorem eq_of_mem_comb {b : Assignment} (ha : a ∈ assignmentsAll s.logic.comb)
    (hb : b ∈ assignmentsAll s.logic.comb) (htarget : a.target = b.target) : a = b := by
  have hapart : s.status.id ≠ s.pending.id := by simp [status, Source.pending]
  rcases mem_comb.1 ha with rfl | ⟨-, rfl⟩
  · rcases mem_comb.1 hb with rfl | ⟨-, rfl⟩
    · rfl
    · exact absurd htarget hapart
  · rcases mem_comb.1 hb with rfl | ⟨-, rfl⟩
    · exact absurd htarget.symm hapart
    · rfl

theorem read_status (hv : s.logic.Solves v) :
    v.read s.status.id = EventCell.status s.kind (v.read s.trigger.id) := by
  have hdriver := mem_comb (s := s).2 (.inl rfl)
  have hunique := lastActive?_of_unique (ρ := v.read) hdriver fun b hb => eq_of_mem_comb hb hdriver
  rw [hv _ ((mem_combTargets (q := .status) rfl).2 (.inl rfl)), hunique, ← eval_statusValue]
  rfl

theorem read_pending_of_level (hv : s.logic.Solves v) (hk : s.kind = .level) :
    v.read s.pending.id = v.read s.trigger.id := by
  have hdriver := mem_comb (s := s).2 (.inr ⟨hk, rfl⟩)
  have hunique := lastActive?_of_unique (ρ := v.read) hdriver fun b hb => eq_of_mem_comb hb hdriver
  rw [hv _ ((mem_combTargets (q := .pending) rfl).2 (.inr ⟨hk, rfl⟩)), hunique]
  rfl

/-! ## One event cell -/

/-- The level of a port, given the levels of the two ports that come from outside. -/
def level (s : Source) (trigger clear : Bool) (c : EventCell) : Port → Bool
  | .trigger => trigger
  | .status => EventCell.status s.kind trigger
  | .pending => c.pending s.kind trigger
  | .clear => clear
  | .oldTrigger => c.old

/-- The trigger and what the source keeps from one clock edge to the next. -/
structure Tracks (s : Source) (v : Levels) (trigger : Bool) (c : EventCell) : Prop where
  trigger : v.read s.trigger.id = trigger
  latch : s.kind ≠ .level → v.read s.pending.id = c.latch
  old : s.kind = .process → v.read s.oldTrigger.id = c.old

/-- All ports have the levels that the cell gives them. -/
def Shows (s : Source) (v : Levels) (trigger clear : Bool) (c : EventCell) : Prop :=
  ∀ q x, s.net? q = some x → v.read x = s.level trigger clear c q

theorem Shows.tracks (h : s.Shows v trigger clear c) : s.Tracks v trigger c where
  trigger := h .trigger _ rfl
  latch := fun hk => (h .pending _ rfl).trans (Placement.pending_of_kind_ne c trigger hk)
  old := fun hk => h .oldTrigger _ (net?_oldTrigger hk)

/-- Once the logic has settled, every port shows its level. -/
theorem Tracks.settle (h : s.Tracks v trigger c) :
    s.Shows (s.logic.settle v).1 trigger (v.read s.clear.id) c := by
  obtain ⟨-, hsolves, hkept⟩ := s.rankedWithin.settle_spec (by decide) v
  have hread {q : Port} {x : SignalId} (hq : s.net? q = some x)
      (hdriven : ¬(q = .status ∨ s.kind = .level ∧ q = .pending)) :
      (s.logic.settle v).1.read x = v.read x := by
    rw [Levels.read, Levels.read, hkept x (mt (mem_combTargets hq).1 hdriven)]
  have htrigger : (s.logic.settle v).1.read s.trigger.id = trigger := by
    rw [hread (q := .trigger) rfl (by simp), h.trigger]
  intro q x hq
  cases q with
  | trigger =>
    obtain rfl : s.trigger.id = x := Option.some.inj hq
    exact htrigger
  | status =>
    obtain rfl : s.status.id = x := Option.some.inj hq
    rw [read_status hsolves, htrigger, level]
  | pending =>
    obtain rfl : s.pending.id = x := Option.some.inj hq
    by_cases hk : s.kind = .level
    · rw [read_pending_of_level hsolves hk, htrigger, level, hk]
      rfl
    · rw [hread hq (by simp [hk]), h.latch hk, level, Placement.pending_of_kind_ne c trigger hk]
  | clear =>
    obtain rfl : s.clear.id = x := Option.some.inj hq
    rw [hread hq (by simp), level]
  | oldTrigger =>
    obtain ⟨hk, hx⟩ := Option.ite_none_right_eq_some.1 hq
    obtain rfl : s.oldTrigger.id = x := Option.some.inj hx
    rw [hread hq (by simp), h.old hk, level]

/-! ## Clock edges -/

/-- Clocked logic drives neither the trigger nor the clear line. -/
theorem read_edge_of_input (hq : s.net? q = some x) (hin : q = .trigger ∨ q = .clear) :
    (s.logic.edge v).read x = v.read x := by
  have hkept : x ∉ s.logic.syncTargets := by
    rw [Fragment.mem_syncTargets, targetsAll_eq_map, List.mem_map]
    rintro ⟨a, ha, rfl⟩
    rcases target_sync ha with ⟨-, hp⟩ | hp
    · rcases hin with rfl | rfl <;> cases net?_injective hq hp
    · rcases hin with rfl | rfl <;> cases net?_injective hq hp
  rw [Levels.read, Levels.read, Fragment.get?_edge_of_not_mem hkept]

/-- A clock edge on settled levels clocks the cell. -/
theorem Shows.edge {i : EventCell.Inputs} (h : s.Shows v i.trigger i.clear c) :
    s.Tracks (s.logic.edge v) i.trigger (c.clock s.kind i) := by
  have htrigger : v.read s.trigger.id = i.trigger := h .trigger _ rfl
  have hclear : v.read s.clear.id = i.clear := h .clear _ rfl
  refine ⟨?_, ?_, ?_⟩
  · rw [read_edge_of_input (q := .trigger) rfl (.inl rfl), htrigger]
  · intro hk
    have hfires : s.fires.eval v.read = EventCell.fires s.kind i.trigger c.old := by
      rw [eval_fires, htrigger]
      cases hkind : s.kind with
      | pulse => rfl
      | level => rfl
      | process => rw [h.tracks.old hkind]
    rw [Levels.read, Fragment.get?_edge, lastActive?_sync_pending v.read hk, hfires, hclear,
      EventCell.latch_clock, ← h.tracks.latch hk, Levels.read]
    -- the assignment of a source that fires comes last, so it wins over the one for `clear`
    cases EventCell.fires s.kind i.trigger c.old with
    | true => rfl
    | false => cases i.clear <;> simp
  · intro hk
    rw [Levels.read, Fragment.get?_edge, lastActive?_sync_oldTrigger v.read hk, htrigger, hk,
      EventCell.old_clock_process]
    rfl

/-! ## The script of a source under a controller -/

/-- What a controller's simulation `sim` asks of the source at bit `i` alone: the source sees its own
trigger only, and before the logic settles it is told whether a 1 is written to its pending bit. -/
def follow (s : Source) (l : Layout) (i : Nat) (sim : Simulator) :
    Simulator.Action → List Simulator.Action
  | .set x b => if x = s.trigger.id then [.set x b] else []
  | .settle => [.set s.clear.id (sim.read l.pending.strobe.id &&
      sim.read (l.pending.written i).id), .settle]
  | .tick => [.set s.clear.id (sim.read l.pending.strobe.id &&
      sim.read (l.pending.written i).id), .tick]

/-- The script of the source alone during a run of the controller's simulation. -/
def followAll (s : Source) (l : Layout) (i : Nat) (sim : Simulator) :
    List Simulator.Action → List Simulator.Action
  | [] => []
  | action :: rest => s.follow l i sim action ++ s.followAll l i (sim.act action) rest

theorem followAll_append (s : Source) (l : Layout) (i : Nat) (sim : Simulator)
    (before after : List Simulator.Action) :
    s.followAll l i sim (before ++ after) =
      s.followAll l i sim before ++ s.followAll l i (sim.run before) after := by
  induction before generalizing sim with
  | nil => rfl
  | cons action rest ih =>
    rw [List.cons_append, followAll, ih, followAll, List.append_assoc]
    rfl

/-- Another handle to the source asks for the same script. -/
theorem followAll_handle (s : Source) (description : Option String) (l : Layout) (i : Nat)
    (sim : Simulator) (actions : List Simulator.Action) :
    { s with description }.followAll l i sim actions = s.followAll l i sim actions := by
  induction actions generalizing sim with
  | nil => rfl
  | cons action rest ih =>
    rw [followAll, ih, followAll]
    cases action <;> rfl

theorem Tracks.set_trigger (h : s.Tracks v trigger c) (b : Bool) :
    s.Tracks (v.set s.trigger.id b) b c := by
  refine ⟨by simp [Levels.read_set], ?_, ?_⟩
  · intro hk
    rw [Levels.read_set, if_neg (by simp [Source.trigger, pending]), h.latch hk]
  · intro hk
    rw [Levels.read_set, if_neg (by simp [Source.trigger, oldTrigger]), h.old hk]

theorem Tracks.set_clear (h : s.Tracks v trigger c) (b : Bool) :
    s.Tracks (v.set s.clear.id b) trigger c := by
  refine ⟨?_, ?_, ?_⟩
  · rw [Levels.read_set, if_neg (by simp [Source.trigger, Source.clear]), h.trigger]
  · intro hk
    rw [Levels.read_set, if_neg (by simp [Source.clear, pending]), h.latch hk]
  · intro hk
    rw [Levels.read_set, if_neg (by simp [Source.clear, oldTrigger]), h.old hk]

end Source

/-! ## Beside the controller -/

/-- A simulation of source `s` alone carries what its cell at bit `i` of the array keeps. -/
structure Mirrors (s : Source) (i : Nat) (a : CellArray) (own : Simulator) : Prop where
  fragment : own.fragment = s.logic
  tracks : s.Tracks own.levels (a.inputs s.trigger.id) (a.cells i)

namespace Mirrors

open Placement

variable {p : Placement} {s : Source} {i : Nat} {a : CellArray} {sim own : Simulator}
  {action : Simulator.Action} {actions : List Simulator.Action} {x : SignalId} {b : Bool}

/-- The clear line as the controller drives it. -/
theorem clear_line (h : p.Follows sim a) (hs : p.sources[i]? = some s) :
    (sim.read p.layout.pending.strobe.id && sim.read (p.layout.pending.written i).id) =
      (a.inputsOf p.layout i s).clear := by
  have hstrobe := h.tracks (.line .pending .strobe) _ rfl rfl
  have hwritten := h.tracks (.line .pending (.written i)) _ (net?_written .pending (lt_length hs)) rfl
  exact congrArg₂ (· && ·) hstrobe hwritten

/-- Shown levels are those of the ports in the array. -/
theorem read_eq_port (h : s.Shows own.levels (a.inputs s.trigger.id)
    (a.inputsOf p.layout i s).clear (a.cells i)) {q : Port} (hq : s.net? q = some x) :
    own.read x = a.port p.layout i s q := by
  refine (h q x hq).trans ?_
  cases q <;> rfl

theorem shows_start (s : Source) :
    s.Shows (Simulator.start s.logic).levels false false EventCell.initial := by
  have hempty : s.Tracks .empty false EventCell.initial :=
    ⟨Levels.read_empty _, fun _ => Levels.read_empty _, fun _ => Levels.read_empty _⟩
  have hshows := hempty.settle
  rwa [Levels.read_empty] at hshows

theorem set (h : Mirrors s i a own) (x : SignalId) (b : Bool) :
    Mirrors s i (a.act p.layout p.sources (.set x b))
      (own.run (s.follow p.layout i sim (.set x b))) := by
  by_cases hx : x = s.trigger.id
  · subst hx
    rw [Source.follow, if_pos rfl]
    refine ⟨h.fragment, ?_⟩
    rw [CellArray.inputs_set, if_pos rfl]
    exact h.tracks.set_trigger b
  · rw [Source.follow, if_neg hx]
    refine ⟨h.fragment, ?_⟩
    rw [CellArray.inputs_set, if_neg hx]
    exact h.tracks

theorem shows_settle (h : Mirrors s i a own) (clear : Bool) :
    s.Shows (own.set s.clear.id clear).settle.1.levels (a.inputs s.trigger.id) clear
      (a.cells i) := by
  have hshows := (h.tracks.set_clear clear).settle
  rw [Levels.read_set, if_pos rfl, ← h.fragment] at hshows
  exact hshows

theorem shows_tick (h : Mirrors s i a own) (inputs : EventCell.Inputs)
    (htrigger : a.inputs s.trigger.id = inputs.trigger) :
    s.Shows (own.set s.clear.id inputs.clear).tick.levels inputs.trigger inputs.clear
      ((a.cells i).clock s.kind inputs) := by
  have hbefore := h.shows_settle inputs.clear
  rw [htrigger] at hbefore
  have hafter := hbefore.edge.settle
  rw [Source.read_edge_of_input (q := .clear) rfl (.inr rfl), hbefore .clear _ rfl,
    ← h.fragment] at hafter
  exact hafter

/-- One action of the controller's simulation keeps the two together. -/
theorem act (h : Mirrors s i a own) (hfollows : p.Follows sim a) (hs : p.sources[i]? = some s)
    (action : Simulator.Action) :
    Mirrors s i (a.act p.layout p.sources action) (own.run (s.follow p.layout i sim action)) := by
  cases action with
  | set x b => exact h.set x b
  | settle =>
    rw [Source.follow, clear_line hfollows hs]
    exact ⟨h.fragment, (h.shows_settle _).tracks⟩
  | tick =>
    rw [Source.follow, clear_line hfollows hs]
    refine ⟨h.fragment, ?_⟩
    rw [CellArray.act, cells_clock hs]
    exact (h.shows_tick (a.inputsOf p.layout i s) rfl).tracks

theorem run (h : Mirrors s i a own) (hfollows : p.Follows sim a) (hs : p.sources[i]? = some s)
    (hdrives : ∀ action ∈ actions, p.Drives action) :
    Mirrors s i (a.run p.layout p.sources actions)
      (own.run (s.followAll p.layout i sim actions)) := by
  induction actions generalizing sim own a with
  | nil => exact h
  | cons action rest ih =>
    have hact := hfollows.act (hdrives action List.mem_cons_self)
    have hrest := ih (h.act hfollows hs action) hact
      fun b hb => hdrives b (List.mem_cons_of_mem action hb)
    rw [Source.followAll, Simulator.run_append]
    exact hrest

end Mirrors

namespace Placement

variable {p : Placement} {s : Source} {i : Nat} {actions : List Simulator.Action} {q : Port}
  {x : SignalId}

/-- After a run that ends at rest the ports of the source alone have their levels in the array. -/
theorem read_alone (hs : p.sources[i]? = some s) (hdrives : ∀ action ∈ actions, p.Drives action)
    (hrest : ∀ x b, actions.getLast? ≠ some (.set x b)) (hq : s.net? q = some x) :
    ((Simulator.start s.logic).run
        (s.followAll p.layout i (.start p.layout.logic) actions)).read x =
      (CellArray.initial.run p.layout p.sources actions).port p.layout i s q := by
  have hstart : Mirrors s i .initial (.start s.logic) :=
    ⟨rfl, (Mirrors.shows_start s).tracks⟩
  rcases List.eq_nil_or_concat actions with rfl | ⟨before, last, rfl⟩
  · exact Mirrors.read_eq_port (a := .initial) (Mirrors.shows_start s) hq
  · rw [List.concat_eq_append] at hdrives hrest ⊢
    have hbefore : ∀ action ∈ before, p.Drives action :=
      fun action h => hdrives action (List.mem_append_left _ h)
    have hfollows := p.follows_start.run hbefore
    have hmirrors := hstart.run p.follows_start hs hbefore
    rw [Source.followAll_append, Source.followAll, Source.followAll, List.append_nil,
      Simulator.run_append, CellArray.run_concat]
    cases last with
    | set x b => exact absurd List.getLast?_concat (hrest x b)
    | settle =>
      rw [Source.follow, Mirrors.clear_line hfollows hs]
      exact Mirrors.read_eq_port (hmirrors.shows_settle _) hq
    | tick =>
      rw [Source.follow, Mirrors.clear_line hfollows hs]
      have hshows := hmirrors.shows_tick
        ((CellArray.initial.run p.layout p.sources before).inputsOf p.layout i s) rfl
      rw [← cells_clock hs] at hshows
      exact Mirrors.read_eq_port
        (a := (CellArray.initial.run p.layout p.sources before).clock p.layout p.sources) hshows hq

end Placement

/-! ## Handles -/

/-- A handle that was given a bit is one to the source at that bit. -/
theorem Controller.exists_source_of_bitOf {c : Controller} {s : Source} {i : Nat}
    (h : c.bitOf s = .ok (some i)) : ∃ t, c.roster.sources[i]? = some t ∧ t.id = s.id := by
  unfold bitOf at h
  cases hl : c.layout with
  | none => simp [hl] at h
  | some l =>
    have hrank : c.roster.rank? s.id = some i := by simpa [hl] using h
    obtain ⟨hi, hid, -⟩ := List.findIdx?_eq_some_iff_getElem.1 hrank
    exact ⟨_, List.getElem?_eq_getElem hi, beq_iff_eq.1 hid⟩

/-- Handles to one source differ in the description alone. -/
theorem Design.Allocated.eq_handle {d : Design} {s t : Source} (h : d.Allocated)
    (hs : s ∈ d.sources) (ht : t ∈ d.sources) (hid : s.id = t.id) :
    ∃ description, s = { t with description } := by
  refine ⟨s.description, ?_⟩
  obtain ⟨hkind, hname, hbase⟩ := h.same s hs t ht hid
  cases s
  cases t
  cases hid
  cases hkind
  cases hname
  cases hbase
  rfl

/-- A source under a controller behaves as it does alone. Give the source alone its own trigger, and
before every settling what is then written to its pending bit; whenever the two simulations are at
rest, the ports of the source have the same levels in both, whatever the other sources and the enable
register do. -/
theorem attached_source_behaves_as_alone {commands : List Command} {m i : Nat} {c : Controller}
    {l : Layout} {s : Source} {actions : List Simulator.Action}
    (hc : (Design.empty.run commands).2.controllers[m]? = some c) (hl : c.layout = some l)
    (hs : s ∈ (Design.empty.run commands).2.sources) (hbit : c.bitOf s = .ok (some i))
    (hinputs : ∀ x b, .set x b ∈ actions →
      ∃ n : Net, n.isInput ∧ l.net? c.roster.sources c.irq n = some x)
    (hrest : ∀ x b, actions.getLast? ≠ some (.set x b)) :
    let attached := (Simulator.start l.logic).run actions
    let alone := (Simulator.start s.logic).run (s.followAll l i (.start l.logic) actions)
    ∀ port ∈ [s.trigger, s.status, s.pending, s.clear],
      alone.read port.id = attached.read port.id := by
  intro attached alone port hport
  have hwell := Design.wellFormed_run commands
  obtain ⟨p, hsources, hirq, rfl⟩ := hwell.exists_placement hc hl
  rw [← hsources, ← hirq] at hinputs
  have hdrives : ∀ action ∈ actions, p.Drives action := by
    intro action haction
    cases action with
    | set x b => exact hinputs x b haction
    | settle => trivial
    | tick => trivial
  obtain ⟨t, ht, hid⟩ := Controller.exists_source_of_bitOf hbit
  have htmem := (hwell.houses m c hc).sources t (List.mem_of_getElem? ht)
  obtain ⟨description, rfl⟩ := hwell.allocated.eq_handle hs htmem hid.symm
  rw [← hsources] at ht
  have hread {q : Port} {x : SignalId} (hq : t.net? q = some x) :
      alone.read x = attached.read x := by
    have halone := Placement.read_alone ht hdrives hrest hq
    have hattached := Placement.shows_run hdrives hrest _ x ((Placement.net?_port ht q).trans hq)
    rw [Placement.level_port ht] at hattached
    rw [← Source.followAll_handle t description] at halone
    exact halone.trans hattached.symm
  simp only [List.mem_cons, List.not_mem_nil, or_false] at hport
  rcases hport with rfl | rfl | rfl | rfl
  · exact hread (q := .trigger) rfl
  · exact hread (q := .status) rfl
  · exact hread (q := .pending) rfl
  · exact hread (q := .clear) rfl

/-- In the sample the source at bit 1 holds an event while the write that clears it is presented, and
another source fires at the same time. The source alone says the same of its ports. -/
theorem sample_source_alone :
    let s : Source := ⟨1, .process, none, none, 5⟩
    let actions : List Simulator.Action :=
      [.set 5 true, .tick, .set 5 false, .set 1 true, .set 34 true, .tick, .set 25 true,
        .set 27 true, .settle]
    Design.sampleController.bitOf s = .ok (some 1) ∧
      s.followAll Design.sampleLayout 1 (.start Design.sampleLayout.logic) actions =
        [.set 5 true, .set 8 false, .tick, .set 5 false, .set 8 false, .tick, .set 8 true,
          .settle] ∧
      ((Simulator.start Design.sampleLayout.logic).run actions).read s.pending.id = true ∧
      ((Simulator.start Design.sampleLayout.logic).run actions).read s.clear.id = true := by
  intro s actions
  have hs : s ∈ (Design.empty.run Design.sample).2.sources := by decide +kernel
  have hbit : Design.sampleController.bitOf s = .ok (some 1) := by
    have hrank : Design.sampleController.roster.rank? s.id = some 1 := by decide +kernel
    rw [Controller.bitOf, Design.sample_layout, hrank]
  have hinputs : ∀ x b, .set x b ∈ actions → ∃ n : Net, n.isInput ∧
      Design.sampleLayout.net? Design.sampleController.roster.sources Design.sampleController.irq n =
        some x := by
    intro x b hset
    have hx : x = 5 ∨ x = 1 ∨ x = 34 ∨ x = 25 ∨ x = 27 := by
      simp only [actions, List.mem_cons, Simulator.Action.set.injEq, List.not_mem_nil] at hset
      grind
    rcases hx with rfl | rfl | rfl | rfl | rfl
    · exact ⟨.port 1 .trigger, rfl, by decide +kernel⟩
    · exact ⟨.port 0 .trigger, rfl, by decide +kernel⟩
    · exact ⟨.line .enable .strobe, rfl, by decide +kernel⟩
    · exact ⟨.line .pending (.written 1), rfl, by decide +kernel⟩
    · exact ⟨.line .pending .strobe, rfl, by decide +kernel⟩
  have hrest : ∀ x b, actions.getLast? ≠ some (.set x b) := by
    intro x b hset
    cases hset
  have hscript : s.followAll Design.sampleLayout 1 (.start Design.sampleLayout.logic) actions =
      [.set 5 true, .set 8 false, .tick, .set 5 false, .set 8 false, .tick, .set 8 true,
        .settle] := by decide +kernel
  have hports := attached_source_behaves_as_alone Design.sample_controller Design.sample_layout hs
    hbit hinputs hrest
  rw [hscript] at hports
  refine ⟨hbit, hscript, ?_, ?_⟩
  · rw [← hports s.pending (by simp)]
    decide +kernel
  · rw [← hports s.clear (by simp)]
    decide +kernel

end IrqSynth
