-- SUMMARY: The reference machine of a controller: one cell per event, clocked without nets.
import IrqSynth.Layout
import IrqSynth.Simulation.Simulator

/-!
# Event cells

What a controller is meant to do, one bit at a time and without nets: each event is a cell with a
latch, a copy of the trigger at the last clock edge, and an enable bit. The lines of a controller
are functions of its inputs and its cells.
-/
namespace IrqSynth

-- ---------------------------------------------------------------------------
-- One cell
-- ---------------------------------------------------------------------------

/-- What one bit keeps from one clock edge to the next. -/
structure EventCell where
  latch : Bool
  old : Bool
  enable : Bool
  deriving DecidableEq, Repr

namespace EventCell

/-- What one bit sees at a clock edge. -/
structure Inputs where
  trigger : Bool
  /-- A 1 is written to the pending bit. -/
  clear : Bool
  /-- The enable register is written. -/
  load : Bool
  /-- The enable bit that is written. -/
  mask : Bool
  deriving DecidableEq, Repr

/-- Before the first clock edge. -/
def initial : EventCell :=
  ⟨false, false, false⟩

/-- Whether a source of the given kind fires at a clock edge. -/
def fires (kind : SourceKind) (trigger old : Bool) : Bool :=
  match kind with
  | .pulse => trigger
  | .process => !trigger && old
  | .level => false

/-- The cell after a clock edge. An event that fires is kept even if it is cleared at the same
edge. -/
def clock (kind : SourceKind) (i : Inputs) (c : EventCell) : EventCell where
  latch := fires kind i.trigger c.old || (c.latch && !i.clear)
  old := match kind with
    | .process => i.trigger
    | .pulse => c.old
    | .level => c.old
  enable := if i.load then i.mask else c.enable

@[simp] theorem latch_clock (kind : SourceKind) (i : Inputs) (c : EventCell) :
    (c.clock kind i).latch = (fires kind i.trigger c.old || (c.latch && !i.clear)) :=
  rfl

@[simp] theorem old_clock_process (i : Inputs) (c : EventCell) :
    (c.clock .process i).old = i.trigger :=
  rfl

@[simp] theorem enable_clock (kind : SourceKind) (i : Inputs) (c : EventCell) :
    (c.clock kind i).enable = if i.load then i.mask else c.enable :=
  rfl

/-- The level of the status bit. -/
def status (kind : SourceKind) (trigger : Bool) : Bool :=
  match kind with
  | .pulse => false
  | .process => trigger
  | .level => trigger

/-- The level of the pending bit. -/
def pending (kind : SourceKind) (trigger : Bool) (c : EventCell) : Bool :=
  match kind with
  | .pulse => c.latch
  | .process => c.latch
  | .level => trigger

end EventCell

-- ---------------------------------------------------------------------------
-- All cells of a controller
-- ---------------------------------------------------------------------------

/-- The levels forced on the inputs of a controller, and its cells by bit. -/
structure CellArray where
  inputs : SignalId → Bool
  cells : Nat → EventCell

namespace CellArray

/-- All inputs low and all cells in their initial state. -/
def initial : CellArray :=
  ⟨fun _ => false, fun _ => .initial⟩

/-- What bit `i`, which belongs to source `s`, sees at a clock edge. -/
def inputsOf (a : CellArray) (l : Layout) (i : Nat) (s : Source) : EventCell.Inputs where
  trigger := a.inputs s.trigger.id
  clear := a.inputs l.pending.strobe.id && a.inputs (l.pending.written i).id
  load := a.inputs l.enable.strobe.id
  mask := a.inputs (l.enable.written i).id

/-- Clocks the cell of every source at once. -/
def clock (a : CellArray) (l : Layout) (sources : List Source) : CellArray :=
  { a with cells := fun i =>
      match sources[i]? with
      | some s => (a.cells i).clock s.kind (a.inputsOf l i s)
      | none => a.cells i }

/-- The array after an action. Cells change at clock edges alone. -/
def act (l : Layout) (sources : List Source) (a : CellArray) : Simulator.Action → CellArray
  | .set s b => { a with inputs := fun t => if s = t then b else a.inputs t }
  | .settle => a
  | .tick => a.clock l sources

theorem inputs_set (a : CellArray) (l : Layout) (sources : List Source) (s t : SignalId) (b : Bool) :
    (a.act l sources (.set s b)).inputs t = if s = t then b else a.inputs t :=
  rfl

theorem cells_set (a : CellArray) (l : Layout) (sources : List Source) (s : SignalId) (b : Bool) :
    (a.act l sources (.set s b)).cells = a.cells :=
  rfl

/-- Performs actions in order. -/
def run (l : Layout) (sources : List Source) (a : CellArray)
    (actions : List Simulator.Action) : CellArray :=
  actions.foldl (act l sources) a

theorem run_append (a : CellArray) (l : Layout) (sources : List Source)
    (before after : List Simulator.Action) :
    a.run l sources (before ++ after) = (a.run l sources before).run l sources after :=
  List.foldl_append

theorem run_concat (a : CellArray) (l : Layout) (sources : List Source)
    (actions : List Simulator.Action) (action : Simulator.Action) :
    a.run l sources (actions ++ [action]) = (a.run l sources actions).act l sources action :=
  a.run_append l sources actions [action]

/-- The interrupt: some bit is pending and enabled. -/
def irq (a : CellArray) (sources : List Source) : Bool :=
  sources.zipIdx.any fun (s, i) =>
    (a.cells i).pending s.kind (a.inputs s.trigger.id) && (a.cells i).enable

end CellArray

end IrqSynth
