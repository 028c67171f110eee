-- SUMMARY: A bus write is a clock edge, apart from the bits of the word written.
import IrqSynth.Proofs.EnableMask
import IrqSynth.Proofs.RestLevels
import IrqSynth.Proofs.SettleAnswer

/-!
# Writes as clock edges

A bus write compared with a clock edge from the same levels: it is that edge, apart from its effect
on the bits of the word written. Nothing is asked of the levels before but low strobes, so write lines
may carry what earlier writes left there and driven nets what was forced on them.

Main statements: `latch_clocked` (what a write does to a latch), `read_writeWord_status` (a write to
the status register is a clock edge) and `write_is_clock_edge`.
-/
namespace IrqSynth

/-- The simulation after a write of `value` to word `w` of a register, against the one after a clock
edge. -/
structure Layout.WriteAsEdge (l : Layout) (sources : List Source) (role : Role) (w : Nat)
    (value : BusValue) (before after edge : Simulator) : Prop where
  cycle : after.cycle = edge.cycle
  settled : after.settle = (after, true)
  strobe : ∀ r, after.read (l.register r).strobe.id = false
  trigger : ∀ (i : Nat) (s : Source), sources[i]? = some s →
    after.read s.trigger.id = edge.read s.trigger.id
  oldTrigger : ∀ (i : Nat) (s : Source), sources[i]? = some s → s.kind = .process →
    after.read s.oldTrigger.id = edge.read s.oldTrigger.id
  status : ∀ (i : Nat) (s : Source), sources[i]? = some s →
    after.read s.status.id = edge.read s.status.id
  statusBit : ∀ (i : Nat) (s : Source), sources[i]? = some s →
    after.read (l.status.bit i).id = edge.read (l.status.bit i).id
  /-- An acknowledged event stays pending if it fires at this very edge. -/
  pendingBit : ∀ (i : Nat) (s : Source), sources[i]? = some s →
    after.read (l.pending.bit i).id =
      if role = .pending ∧ s.kind ≠ .level ∧ i / BusWord.bits = w ∧
          value.getLsbD (i % BusWord.bits) then
        EventCell.fires s.kind (before.read s.trigger.id) (before.read s.oldTrigger.id)
      else edge.read (l.pending.bit i).id
  enableBit : ∀ (i : Nat) (s : Source), sources[i]? = some s →
    after.read (l.enable.bit i).id =
      if role = .enable ∧ i / BusWord.bits = w then value.getLsbD (i % BusWord.bits)
      else edge.read (l.enable.bit i).id

namespace Placement

variable {p : Placement} {b : Bank} {a a' : CellArray} {v : Levels} {role : Role}
  {lines : Nat → Bool} {i w : Nat} {s : Source} {value : BusValue} {n : Net} {x : SignalId}

/-! ## Cells after a write -/

theorem clear_of_idle (hidle : a.inputs p.layout.pending.strobe.id = false) :
    (a.inputsOf p.layout i s).clear = false := by
  rw [CellArray.inputsOf, hidle, Bool.false_and]

theorem old_clocked (hs : p.sources[i]? = some s) :
    ((p.clocked role lines a).cells i).old = ((a.clock p.layout p.sources).cells i).old := by
  rw [cells_clocked hs, cells_clock hs]
  cases s.kind with
  | pulse => rfl
  | process => exact trigger_present hs
  | level => rfl

/-- Only the latches of acknowledged events differ from those after a clock edge. They keep what
fires at the edge. -/
theorem latch_clocked (hidle : ∀ r, a.inputs (p.layout.register r).strobe.id = false)
    (hs : p.sources[i]? = some s) :
    ((p.clocked role lines a).cells i).latch =
      if role = .pending ∧ lines i then
        EventCell.fires s.kind (a.inputs s.trigger.id) (a.cells i).old
      else ((a.clock p.layout p.sources).cells i).latch := by
  have htrigger : ((p.present role lines a).inputsOf p.layout i s).trigger = a.inputs s.trigger.id :=
    trigger_present hs
  rw [cells_clocked hs, cells_clock hs, EventCell.latch_clock, EventCell.latch_clock,
    clear_present hidle hs, clear_of_idle (hidle .pending), htrigger, CellArray.inputsOf]
  by_cases hrole : role = .pending
  · cases lines i <;> simp [hrole]
  · simp [hrole]

/-- No cell sees a write to the status register. -/
theorem cells_clocked_status (hs : p.sources[i]? = some s) :
    (p.clocked .status lines a).cells i = (a.clock p.layout p.sources).cells i := by
  have hstrobe (r : Role) (hr : r ≠ .status) :
      (p.present .status lines a).inputs (p.layout.register r).strobe.id =
        a.inputs (p.layout.register r).strobe.id :=
    inputs_present_of_ne (n := .line r .strobe) rfl (by simpa using hr) fun _ h => by cases h
  have hwritten (r : Role) (hr : r ≠ .status) :
      (p.present .status lines a).inputs ((p.layout.register r).written i).id =
        a.inputs ((p.layout.register r).written i).id :=
    inputs_present_of_ne (net?_written r (lt_length hs)) (fun h => by cases h)
      fun _ => by simp [hr]
  have hinputs : (p.present .status lines a).inputsOf p.layout i s = a.inputsOf p.layout i s := by
    rw [CellArray.inputsOf, CellArray.inputsOf, trigger_present hs]
    congr 1
    · exact congrArg₂ (· && ·) (hstrobe .pending (by decide)) (hwritten .pending (by decide))
    · exact hstrobe .enable (by decide)
    · exact hwritten .enable (by decide)
  rw [cells_clocked hs, cells_clock hs, hinputs]

/-! ## Ports and bits after a write -/

theorem port_status_clocked (hs : p.sources[i]? = some s) :
    (p.clocked role lines a).port p.layout i s .status =
      (a.clock p.layout p.sources).port p.layout i s .status := by
  rw [CellArray.port, CellArray.port, trigger_clocked hs, CellArray.clock]

theorem port_pending_clocked (hidle : ∀ r, a.inputs (p.layout.register r).strobe.id = false)
    (hs : p.sources[i]? = some s) :
    (p.clocked role lines a).port p.layout i s .pending =
      if role = .pending ∧ s.kind ≠ .level ∧ lines i then
        EventCell.fires s.kind (a.inputs s.trigger.id) (a.cells i).old
      else (a.clock p.layout p.sources).port p.layout i s .pending := by
  rw [CellArray.port, CellArray.port]
  by_cases hk : s.kind = .level
  · rw [if_neg fun h => h.2.1 hk, hk, EventCell.pending, EventCell.pending, trigger_clocked hs,
      CellArray.clock]
  · rw [pending_of_kind_ne _ _ hk, pending_of_kind_ne _ _ hk, latch_clocked hidle hs]
    simp only [hk, ne_eq, not_false_eq_true, true_and]

/-! ## The simulation after a write -/

theorem follows_arrayOf {sim : Simulator} (hfragment : sim.fragment = p.layout.logic) :
    p.Follows sim (p.arrayOf sim.levels) :=
  ⟨hfragment, p.tracks_arrayOf sim.levels⟩

theorem settle_writeWord (hlayout : b.layout = p.layout) (hfragment : b.sim.fragment = p.layout.logic)
    (role : Role) (w : Nat) (value : BusValue) :
    (b.writeWord role w value).sim.settle = ((b.writeWord role w value).sim, true) := by
  rw [sim_writeWord hlayout]
  apply Simulator.settle_settle
  rw [Simulator.settle_snd, Simulator.fragment_run, hfragment]
  exact (p.settle_spec _).1

theorem port_pending_writeWord (hlayout : b.layout = p.layout)
    (hidle : ∀ r, a.inputs (p.layout.register r).strobe.id = false)
    (hs : p.sources[i]? = some s) :
    (p.clocked role (b.lineLevel role w value) a).port p.layout i s .pending =
      if role = .pending ∧ s.kind ≠ .level ∧ i / BusWord.bits = w ∧
          value.getLsbD (i % BusWord.bits) then
        EventCell.fires s.kind (a.inputs s.trigger.id) (a.cells i).old
      else (a.clock p.layout p.sources).port p.layout i s .pending := by
  have hkind : b.layout.pending.kind = .writeOneToClear := kind_of_layout hlayout .pending
  have hline : b.lineLevel .pending w value i = true ↔
      i / BusWord.bits = w ∧ value.getLsbD (i % BusWord.bits) = true := by
    rw [Bank.lineLevel_pending hkind, BusWord.bitOf]
    split <;> simp [*]
  rw [port_pending_clocked hidle hs]
  by_cases hrole : role = .pending
  · subst hrole
    simp only [hline]
  · simp only [hrole, false_and, if_false]

theorem bit_enable_writeWord (hlayout : b.layout = p.layout) (hfollows : p.Follows b.sim a)
    (hidle : ∀ r, a.inputs (p.layout.register r).strobe.id = false)
    (hs : p.sources[i]? = some s) :
    (p.clocked role (b.lineLevel role w value) a).bit p.layout i s .enable =
      if role = .enable ∧ i / BusWord.bits = w then value.getLsbD (i % BusWord.bits)
      else (a.clock p.layout p.sources).bit p.layout i s .enable := by
  have hkind : b.layout.enable.kind = .storage := kind_of_layout hlayout .enable
  rw [CellArray.bit, CellArray.bit, enable_clocked hidle hs, enable_clock hidle hs]
  by_cases hrole : role = .enable
  · subst hrole
    rw [if_pos rfl, Bank.lineLevel_enable hkind, BusWord.bitOf, hfollows.level_enable hlayout hs]
    by_cases hword : i / BusWord.bits = w
    · rw [if_pos hword, if_pos ⟨rfl, hword⟩, Option.getD_some]
    · rw [if_neg hword, if_neg fun h => hword h.2, Option.getD_none]
  · rw [if_neg hrole, if_neg fun h => hrole h.1]

theorem writeAsEdge (hlayout : b.layout = p.layout) (hfragment : b.sim.fragment = p.layout.logic)
    (hidle : ∀ r, b.sim.read (p.layout.register r).strobe.id = false) (role : Role) (w : Nat)
    (value : BusValue) :
    p.layout.WriteAsEdge p.sources role w value b.sim (b.writeWord role w value).sim b.sim.tick := by
  have hfollows := follows_arrayOf hfragment
  have hlow : ∀ r, (p.arrayOf b.sim.levels).inputs (p.layout.register r).strobe.id = false := hidle
  have hafter := hfollows.shows_writeWord hlayout role w value
  have hedge := hfollows.shows_tick
  refine
    { cycle := cycle_writeWord role w value
      settled := settle_writeWord hlayout hfragment role w value
      strobe := ?_
      trigger := ?_
      oldTrigger := ?_
      status := ?_
      statusBit := ?_
      pendingBit := ?_
      enableBit := ?_ }
  · intro r
    exact (hafter (.line r .strobe) _ rfl).trans (strobe_clocked hlow r)
  · intro i s hs
    exact (hafter.read_port hs (q := .trigger) rfl).trans
      ((trigger_clocked hs).trans (hedge.read_port hs (q := .trigger) rfl).symm)
  · intro i s hs hk
    have hq := Source.net?_oldTrigger hk
    exact (hafter.read_port hs hq).trans ((old_clocked hs).trans (hedge.read_port hs hq).symm)
  · intro i s hs
    exact (hafter.read_port hs (q := .status) rfl).trans
      ((port_status_clocked hs).trans (hedge.read_port hs (q := .status) rfl).symm)
  · intro i s hs
    exact (hafter.read_bit hs .status).trans
      ((port_status_clocked hs).trans (hedge.read_bit hs .status).symm)
  · intro i s hs
    have hbit := (hafter.read_bit hs .pending).trans (port_pending_writeWord hlayout hlow hs)
    have hedgeBit : b.sim.tick.read (p.layout.pending.bit i).id = _ := hedge.read_bit hs .pending
    rw [cells_arrayOf _ hs] at hbit
    rw [hedgeBit]
    exact hbit
  · intro i s hs
    have hbit := (hafter.read_bit hs .enable).trans
      (bit_enable_writeWord hlayout hfollows hlow hs)
    have hedgeBit : b.sim.tick.read (p.layout.enable.bit i).id = _ := hedge.read_bit hs .enable
    rw [hedgeBit]
    exact hbit

/-! ## Writes to the status register -/

theorem port_congr (hcell : a.cells i = a'.cells i)
    (htrigger : a.inputs s.trigger.id = a'.inputs s.trigger.id)
    (hclear : (a.inputsOf p.layout i s).clear = (a'.inputsOf p.layout i s).clear) (q : Port) :
    a.port p.layout i s q = a'.port p.layout i s q := by
  cases q with
  | trigger => exact htrigger
  | status => rw [CellArray.port, CellArray.port, htrigger]
  | pending => rw [CellArray.port, CellArray.port, hcell, htrigger]
  | clear => exact hclear
  | oldTrigger => rw [CellArray.port, CellArray.port, hcell]

/-- Every net but an input has a level that cells, triggers and clear lines determine. -/
theorem level_congr
    (hcell : ∀ (i : Nat) (s : Source), p.sources[i]? = some s → a.cells i = a'.cells i)
    (htrigger : ∀ (i : Nat) (s : Source), p.sources[i]? = some s →
      a.inputs s.trigger.id = a'.inputs s.trigger.id)
    (hclear : ∀ (i : Nat) (s : Source), p.sources[i]? = some s →
      (a.inputsOf p.layout i s).clear = (a'.inputsOf p.layout i s).clear)
    (hn : n.isInput = false) :
    a.level p.layout p.sources n = a'.level p.layout p.sources n := by
  have hport (i : Nat) (s : Source) (hs : p.sources[i]? = some s) (q : Port) :
      a.port p.layout i s q = a'.port p.layout i s q :=
    port_congr (hcell i s hs) (htrigger i s hs) (hclear i s hs) q
  have hoption (i : Nat) (f g : Source → Bool) (h : ∀ s, p.sources[i]? = some s → f s = g s) :
      p.sources[i]?.any f = p.sources[i]?.any g := by
    cases hs : p.sources[i]? with
    | none => rfl
    | some s => exact h s hs
  cases n with
  | irq =>
    rw [CellArray.level, CellArray.level, CellArray.irq, CellArray.irq, Bool.eq_iff_iff,
      List.any_eq_true, List.any_eq_true]
    apply exists_congr
    rintro ⟨s, i⟩
    refine and_congr_right fun hmem => ?_
    have hs : p.sources[i]? = some s := List.mem_zipIdx_iff_getElem?.1 hmem
    simp only [hcell i s hs, htrigger i s hs]
  | port i q => exact hoption i _ _ fun s hs => hport i s hs q
  | line role q =>
    cases q with
    | bit i =>
      refine hoption i _ _ fun s hs => ?_
      cases role with
      | status => exact hport i s hs .status
      | pending => exact hport i s hs .pending
      | enable => exact congrArg EventCell.enable (hcell i s hs)
    | written i => cases hn
    | strobe => cases hn

/-- Nets that the logic leaves to the outside keep their levels during a write, but for the write
lines of the register. -/
theorem read_writeWord_of_not_drives (hlayout : b.layout = p.layout)
    (hfragment : b.sim.fragment = p.layout.logic)
    (hidle : ∀ r, b.sim.read (p.layout.register r).strobe.id = false)
    (hx : ¬p.layout.logic.Drives x)
    (hwritten : x ∉ (p.layout.register role).writtenBits.map Signal.id) :
    (b.writeWord role w value).sim.read x = b.sim.read x := by
  by_cases hstrobe : x = (p.layout.register role).strobe.id
  · have hlow : (b.writeWord role w value).sim.read x = false := by
      rw [hstrobe]
      exact (writeAsEdge hlayout hfragment hidle role w value).strobe role
    rw [hlow, hstrobe, hidle]
  · have hforced (level : Bool) : .set x level ∉ p.script role (b.lineLevel role w value) := by
      intro hmem
      exact (mem_script_set hmem).elim hstrobe hwritten
    have hdrives : ¬b.sim.fragment.Drives x := by rwa [hfragment]
    rw [sim_writeWord hlayout, Simulator.read, Levels.read, Simulator.get?_settle_of_not_mem,
      Simulator.get?_run_of_not_forced hdrives hforced]
    · rfl
    · rw [Simulator.fragment_run]
      exact (not_or.1 hdrives).1

/-- A write to the status register is a clock edge that leaves a value on its write lines. -/
theorem read_writeWord_status (hlayout : b.layout = p.layout)
    (hfragment : b.sim.fragment = p.layout.logic)
    (hidle : ∀ r, b.sim.read (p.layout.register r).strobe.id = false)
    (hx : x ∉ (p.layout.register .status).writtenBits.map Signal.id) :
    (b.writeWord .status w value).sim.read x = b.sim.tick.read x := by
  by_cases hdrives : p.layout.logic.Drives x
  · obtain ⟨n, hn⟩ := exists_net_of_drives hdrives
    have hinput : n.isInput = false := by
      rw [Bool.eq_false_iff]
      exact fun hinput => not_drives_of_isInput hn hinput hdrives
    have hfollows := follows_arrayOf hfragment
    have hlow : ∀ r, (p.arrayOf b.sim.levels).inputs (p.layout.register r).strobe.id = false :=
      hidle
    have hlevel : (p.clocked .status (b.lineLevel .status w value) (p.arrayOf b.sim.levels)).level
          p.layout p.sources n =
        ((p.arrayOf b.sim.levels).clock p.layout p.sources).level p.layout p.sources n := by
      refine level_congr ?_ ?_ ?_ hinput
      · exact fun i s hs => cells_clocked_status hs
      · exact fun i s hs => trigger_clocked hs
      · intro i s hs
        rw [clear_of_idle (strobe_clocked hlow .pending), clear_of_idle]
        exact hlow .pending
    exact (hfollows.shows_writeWord hlayout .status w value n x hn).trans
      (hlevel.trans (hfollows.shows_tick n x hn).symm)
  · have htick : b.sim.tick.levels.get? x = b.sim.levels.get? x :=
      Simulator.get?_tick_of_not_drives (by rwa [hfragment])
    rw [read_writeWord_of_not_drives hlayout hfragment hidle hdrives hx, Simulator.read,
      Simulator.read, Levels.read, Levels.read, htick]

end Placement

/-! ## Main result -/

/-- A write to a word of a finalized controller's bank is one clock edge from the same levels, which
are arbitrary but for low strobes, apart from its effect on the bits of that word. A write to the
status register leaves a value on its write lines and is a clock edge otherwise. -/
theorem write_is_clock_edge {commands : List Command} {m : Nat} {c : Controller} {l : Layout}
    {b : Bank} {w : Nat} (role : Role) (value : BusValue)
    (hc : (Design.empty.run commands).2.controllers[m]? = some c) (hl : c.layout = some l)
    (hlayout : b.layout = l) (hfragment : b.sim.fragment = l.logic)
    (hidle : ∀ r, b.sim.read (l.register r).strobe.id = false) (hw : w < b.words) :
    ∃ after, b.write (b.offset role + w * BusWord.bytes) value = .ok after ∧ after.layout = l ∧
      l.WriteAsEdge c.roster.sources role w value b.sim after.sim b.sim.tick ∧
      (role = .status → ∀ x ∉ l.status.writtenBits.map Signal.id,
        after.sim.read x = b.sim.tick.read x) := by
  obtain ⟨p, hsources, -, rfl⟩ := (Design.wellFormed_run commands).exists_placement hc hl
  rw [← hsources]
  refine ⟨b.writeWord role w value, b.write_offset role hw value, hlayout, ?_, ?_⟩
  · exact Placement.writeAsEdge hlayout hfragment hidle role w value
  · rintro rfl x hx
    exact Placement.read_writeWord_status hlayout hfragment hidle hx

/-- In the sample all events are acknowledged while the trigger of the pulse source is high: its event
fires at that edge and is kept, the one of the process source is gone, and the level source goes by
its trigger. The interrupt line was forced high before, and two write lines were left high. -/
theorem sample_write_is_clock_edge :
    let levels := [0, 1, 7, 10, 25, 31].foldl (fun v x => v.set x true) Levels.empty
    let b : Bank := ⟨Design.sampleLayout, Design.sampleController.irq,
      ⟨Design.sampleLayout.logic, levels, 5⟩⟩
    (∀ r, b.sim.read (Design.sampleLayout.register r).strobe.id = false) ∧ 0 < b.words ∧
      [21, 22, 23].map b.sim.tick.read = [true, true, true] ∧
      ∃ after, b.write 4 7 = .ok after ∧
        Design.sampleLayout.WriteAsEdge Design.sampleController.roster.sources .pending 0 7 b.sim
          after.sim b.sim.tick ∧
        [21, 22, 23].map after.sim.read = [true, false, true] := by
  intro levels b
  have hidle : ∀ r, b.sim.read (Design.sampleLayout.register r).strobe.id = false := by
    intro r
    cases r <;> decide +kernel
  have hw : 0 < b.words := by decide +kernel
  have htick : [21, 22, 23].map b.sim.tick.read = [true, true, true] := by
    decide +kernel
  have hoffset : b.offset .pending + 0 * BusWord.bytes = 4 := by decide +kernel
  have hbits : (b.write 4 7).toOption.map (fun after => [21, 22, 23].map after.sim.read) =
      some [true, false, true] := by
    decide +kernel
  have hlayout : b.layout = Design.sampleLayout := rfl
  have hfragment : b.sim.fragment = Design.sampleLayout.logic := rfl
  obtain ⟨after, hwrite, -, hedge, -⟩ := write_is_clock_edge .pending 7
    Design.sample_controller Design.sample_layout hlayout hfragment hidle hw
  rw [hoffset] at hwrite
  rw [hwrite] at hbits
  exact ⟨hidle, hw, htick, after, hwrite, hedge, Option.some.inj hbits⟩

end IrqSynth
