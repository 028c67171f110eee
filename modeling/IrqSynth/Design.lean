-- SUMMARY: Designs under construction: objects, id counters, commands with their answers, and runs.
import IrqSynth.Bank
import IrqSynth.SharedLine

/-!
# Designs

A design under construction: every object made so far, and the ids still free. Commands are
performed one at a time, each as a whole; each gives an answer, and a refused one leaves the design
as it was. How a command gets there step by step is the subject of `Elaboration`.

Main statement: `perform_of_refused` (a refusal changes nothing).
-/
namespace IrqSynth

/-- The objects of a design, each kind in order of creation. -/
structure Design where
  nextSignal : SignalId
  nextSource : SourceId
  owned : Ownership
  signals : Array Signal
  sources : Array Source
  registers : Array Register
  controllers : Array Controller
  lines : Array SharedLine
  deriving DecidableEq

/-- The steps of a construction. Objects are named by their position in the design. -/
inductive Command where
  | signal (name : String)
  | source (kind : SourceKind) (name description : Option String)
  /-- Another handle to a source, with its own description if one is given. -/
  | handle (source : Nat) (description : Option String)
  | register (kind : RegisterKind) (name description : String) (fields : List Field)
  | controller
  | attach (controller source : Nat)
  | finalize (controller : Nat)
  | share (controllers : List Nat)
  | bank (controller : Nat)
  deriving DecidableEq, Repr

/-- What a command gives. -/
inductive Answer where
  | signal (signal : Signal)
  | source (source : Source)
  | register (register : Register)
  | controller (irq : Signal)
  | attached (ports : Ports)
  | finalized (layout : Layout)
  | shared (line : SharedLine)
  | bank (bank : Bank)
  | refused (reason : ElabError)
  /-- The command names an object that does not exist. -/
  | missing
  deriving DecidableEq

namespace Design

/-- Nothing made, and no id in use. -/
def empty : Design where
  nextSignal := 0
  nextSource := 0
  owned := .empty
  signals := #[]
  sources := #[]
  registers := #[]
  controllers := #[]
  lines := #[]

-- ---------------------------------------------------------------------------
-- Creation
-- ---------------------------------------------------------------------------

def addSignal (d : Design) (name : String) : Answer × Design :=
  let signal : Signal := ⟨d.nextSignal, name⟩
  (.signal signal,
    { d with nextSignal := d.nextSignal + 1, signals := d.signals.push signal })

def addSource (d : Design) (kind : SourceKind) (name description : Option String) :
    Answer × Design :=
  let source : Source := ⟨d.nextSource, kind, name, description, d.nextSignal⟩
  (.source source,
    { d with
      nextSignal := d.nextSignal + source.signalCount
      nextSource := d.nextSource + 1
      sources := d.sources.push source })

def addHandle (d : Design) (source : Nat) (description : Option String) : Answer × Design :=
  match d.sources[source]? with
  | none => (.missing, d)
  | some s =>
    let handle := { s with description := description <|> s.description }
    (.source handle, { d with sources := d.sources.push handle })

def addRegister (d : Design) (kind : RegisterKind) (name description : String)
    (fields : List Field) : Answer × Design :=
  let register : Register := ⟨name, kind, description, fields, d.nextSignal⟩
  (.register register,
    { d with
      nextSignal := d.nextSignal + register.signalCount
      registers := d.registers.push register })

def addController (d : Design) : Answer × Design :=
  let controller := Controller.create d.nextSignal
  (.controller controller.irq,
    { d with nextSignal := d.nextSignal + 1, controllers := d.controllers.push controller })

-- ---------------------------------------------------------------------------
-- Steps that may be refused
-- ---------------------------------------------------------------------------

def attach (d : Design) (controller source : Nat) : Answer × Design :=
  match d.controllers[controller]?, d.sources[source]? with
  | some c, some s =>
    match c.attach d.owned s with
    | .error e => (.refused e, d)
    | .ok (c, owned) =>
      (.attached s.ports,
        { d with owned, controllers := d.controllers.setIfInBounds controller c })
  | _, _ => (.missing, d)

def finalize (d : Design) (controller : Nat) : Answer × Design :=
  match d.controllers[controller]? with
  | none => (.missing, d)
  | some c =>
    match c.finalize d.nextSignal with
    | .error e => (.refused e, d)
    | .ok (c, layout) =>
      (.finalized layout,
        { d with
          nextSignal := d.nextSignal + layout.signalCount
          controllers := d.controllers.setIfInBounds controller c })

def share (d : Design) (controllers : List Nat) : Answer × Design :=
  match controllers.mapM fun i => d.controllers[i]? with
  | none => (.missing, d)
  | some cs =>
    match SharedLine.join cs d.nextSignal with
    | .error e => (.refused e, d)
    | .ok line =>
      (.shared line, { d with nextSignal := d.nextSignal + 1, lines := d.lines.push line })

/-- The bank of a controller. It is a value of its own, so the design stays as it is. -/
def bank (d : Design) (controller : Nat) : Answer :=
  match d.controllers[controller]? with
  | none => .missing
  | some c =>
    match Bank.create c with
    | .error e => .refused e
    | .ok b => .bank b

-- ---------------------------------------------------------------------------
-- Runs
-- ---------------------------------------------------------------------------

/-- Performs one command. -/
def perform (d : Design) : Command → Answer × Design
  | .signal name => d.addSignal name
  | .source kind name description => d.addSource kind name description
  | .handle source description => d.addHandle source description
  | .register kind name description fields => d.addRegister kind name description fields
  | .controller => d.addController
  | .attach controller source => d.attach controller source
  | .finalize controller => d.finalize controller
  | .share controllers => d.share controllers
  | .bank controller => (d.bank controller, d)

/-- A refused command leaves every object and both id counters as they were. -/
theorem perform_of_refused {d : Design} {c : Command} {e : ElabError}
    (h : (d.perform c).1 = .refused e) : (d.perform c).2 = d := by
  cases c with
  | signal name => cases h
  | source kind name description => cases h
  | register kind name description fields => cases h
  | controller => cases h
  | bank i => rfl
  | handle i description =>
    simp only [perform, addHandle] at h ⊢
    split <;> simp_all
  | attach i j =>
    simp only [perform, attach] at h ⊢
    split
    · split <;> simp_all
    · rfl
  | finalize i =>
    simp only [perform, finalize] at h ⊢
    split
    · rfl
    · split <;> simp_all
  | share is =>
    simp only [perform, share] at h ⊢
    split
    · rfl
    · split <;> simp_all

/-- Performs commands in order. The answers come in the same order. -/
def run (d : Design) : List Command → List Answer × Design
  | [] => ([], d)
  | c :: rest =>
    let (answer, after) := d.perform c
    let (answers, final) := after.run rest
    (answer :: answers, final)

end Design

end IrqSynth
