-- SUMMARY: The commands of a construction as programs that change one design in place.
import IrqSynth.Design
import IrqSynth.InPlace

/-!
# Elaboration in place

The commands of a construction as programs on one design. A source is taken, a name recorded, ids
handed out and a layout fixed by steps of their own, one after the other, and a command that is
refused part of the way leaves the design as its steps have made it by then. That this is the design
before the command is a property of the order of these steps.
-/
namespace IrqSynth

namespace Elaboration

/-- A program on a design. What stops it early is the answer to the command. -/
abbrev Program := InPlace.Program Answer Design

-- ---------------------------------------------------------------------------
-- Steps
-- ---------------------------------------------------------------------------

def refuse (reason : ElabError) : Program Unit :=
  throw (.refused reason)

def refuseIf (p : Bool) (reason : ElabError) : Program Unit :=
  if p then refuse reason else pure ()

def controllerAt (m : Nat) : Program Controller := do
  let d ← get
  match d.controllers[m]? with
  | some c => return c
  | none => throw .missing

def sourceAt (j : Nat) : Program Source := do
  let d ← get
  match d.sources[j]? with
  | some s => return s
  | none => throw .missing

/-- Changes one controller. -/
def update (m : Nat) (f : Controller → Controller) : Program Unit := do
  let c ← controllerAt m
  modify fun d => { d with controllers := d.controllers.setIfInBounds m (f c) }

/-- Takes a source, and says whether it was free. -/
def claim (id : SourceId) : Program Bool := do
  let d ← get
  match d.owned.take? id with
  | some owned =>
    set { d with owned }
    return true
  | none => return false

/-- A net with an id of its own. -/
def newSignal (name : String) : Program Signal := do
  let d ← get
  set { d with nextSignal := d.nextSignal + 1 }
  return ⟨d.nextSignal, name⟩

/-- A register for one part, with nets of its own. -/
def newRegister (role : Role) (sources : List Source) : Program Register := do
  let d ← get
  let register := role.synthesize sources d.nextSignal
  set { d with nextSignal := d.nextSignal + register.signalCount }
  return register

-- ---------------------------------------------------------------------------
-- Creation
-- ---------------------------------------------------------------------------

/-- Creates an object, which is never refused. -/
def create (make : Design → Answer × Design) : Program Answer :=
  modifyGet make

def handle (j : Nat) (description : Option String) : Program Answer := do
  let s ← sourceAt j
  let handle := { s with description := description <|> s.description }
  modify fun d => { d with sources := d.sources.push handle }
  return .source handle

-- ---------------------------------------------------------------------------
-- Commands that may be refused
-- ---------------------------------------------------------------------------

/-- Refuses a source that the controller may not have. -/
def vet (c : Controller) (s : Source) : Program Unit := do
  refuseIf c.isFinalized .alreadyFinalized
  let d ← get
  refuseIf (c.roster.holds s.id || d.owned.isTaken s.id) (.duplicateSource s.id)
  refuseIf (Controller.maxSources ≤ c.roster.size) (.tooManySources Controller.maxSources)
  match s.name with
  | some name => refuseIf (c.names.contains name) (.nameCollision name)
  | none => pure ()

/-- Records the name of a source that has one. -/
def record (m : Nat) (s : Source) : Program Unit :=
  match s.name with
  | some name => update m fun c => { c with names := c.names.insert name }
  | none => pure ()

/-- Takes a source, which may still fail, records its name and enters it. -/
def enter (m : Nat) (s : Source) : Program Unit := do
  let free ← claim s.id
  refuseIf (!free) (.duplicateSource s.id)
  record m s
  update m fun c => { c with roster := c.roster.insert s }

def attach (m j : Nat) : Program Answer := do
  let c ← controllerAt m
  let s ← sourceAt j
  vet c s
  enter m s
  return .attached s.ports

/-- Refuses fields of one name. -/
def requireUnique (names : List String) : Program Unit :=
  match Roster.firstRepeat? [] names with
  | some name => refuse (.nameCollision name)
  | none => pure ()

/-- The registers and the logic for the sources of a controller. -/
def newLayout (c : Controller) : Program Layout := do
  let sources := c.roster.sources
  let status ← newRegister .status sources
  let pending ← newRegister .pending sources
  let enable ← newRegister .enable sources
  let wires := (sources.mapIdx (Layout.wire status pending)).flatten
  return {
    names := c.roster.fieldNames, status, pending, enable
    logic := Fragment.concat (sources.map Source.logic) ++ enable.logic ++
      ⟨wires ++ [c.irq.drive (Layout.asserted pending enable sources.length)], []⟩ }

def finalize (m : Nat) : Program Answer := do
  let c ← controllerAt m
  refuseIf c.isFinalized .alreadyFinalized
  requireUnique c.roster.fieldNames
  let layout ← newLayout c
  update m fun c => { c with layout := some layout }
  return .finalized layout

def share (ms : List Nat) : Program Answer := do
  let members ← ms.mapM controllerAt
  refuseIf members.isEmpty .noControllers
  let irq ← newSignal "shared_irq"
  let line : SharedLine := ⟨irq, members.map fun c => c.irq.id⟩
  modify fun d => { d with lines := d.lines.push line }
  return .shared line

def bank (m : Nat) : Program Answer := do
  let c ← controllerAt m
  match c.layout with
  | some l => return .bank ⟨l, c.irq, .start l.logic⟩
  | none => throw (.refused .notFinalized)

-- ---------------------------------------------------------------------------
-- Runs
-- ---------------------------------------------------------------------------

/-- Performs one command. -/
def perform : Command → Program Answer
  | .signal name => create fun d => d.addSignal name
  | .source kind name description => create fun d => d.addSource kind name description
  | .handle source description => handle source description
  | .register kind name description fields =>
    create fun d => d.addRegister kind name description fields
  | .controller => create Design.addController
  | .attach controller source => attach controller source
  | .finalize controller => finalize controller
  | .share controllers => share controllers
  | .bank controller => bank controller

/-- The answer to a command, and the design as its program leaves it, be it early or at the end. -/
def step (d : Design) (command : Command) : Answer × Design :=
  match (perform command).on d with
  | (.ok answer, after) => (answer, after)
  | (.error answer, after) => (answer, after)

/-- Performs commands in order, each on the design that the one before it leaves. -/
def run (d : Design) : List Command → List Answer × Design
  | [] => ([], d)
  | command :: rest =>
    let (answer, after) := step d command
    let (answers, final) := run after rest
    (answer :: answers, final)

end Elaboration

end IrqSynth
