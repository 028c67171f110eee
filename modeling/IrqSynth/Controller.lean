-- SUMMARY: Ownership of sources and the controllers that take them, with the reasons to refuse a source and to refuse finalizing.
import IrqSynth.Error
import IrqSynth.Layout
import IrqSynth.Roster
import Std.Data.ExtTreeSet

/-!
# Controllers

A controller takes sources until it is finalized; from then on its registers and logic are fixed.
Attaching and finalizing are given here by what becomes of the controller, or by the reason to
refuse.
-/
namespace IrqSynth

-- ---------------------------------------------------------------------------
-- Ownership
-- ---------------------------------------------------------------------------

/-- The sources that belong to some controller, whichever it is. -/
structure Ownership where
  taken : Std.ExtTreeSet SourceId
  deriving DecidableEq

namespace Ownership

def empty : Ownership :=
  ⟨∅⟩

def isTaken (o : Ownership) (id : SourceId) : Bool :=
  o.taken.contains id

/-- Takes a free source. -/
def take? (o : Ownership) (id : SourceId) : Option Ownership :=
  if o.isTaken id then none else some ⟨o.taken.insert id⟩

end Ownership

-- ---------------------------------------------------------------------------
-- Controllers
-- ---------------------------------------------------------------------------

/-- The sources taken so far, the names given to them, and the layout once it is fixed. -/
structure Controller where
  irq : Signal
  roster : Roster
  names : Std.ExtTreeSet String
  layout : Option Layout
  deriving DecidableEq

namespace Controller

/-- The number of sources a controller may hold. -/
def maxSources : Nat :=
  1024

/-- An open controller without sources, whose interrupt line has id `base`. -/
def create (base : SignalId) : Controller where
  irq := ⟨base, "irq"⟩
  roster := .empty
  names := ∅
  layout := none

def isFinalized (c : Controller) : Bool :=
  c.layout.isSome

/-- The layout of a finalized controller. -/
def requireLayout (c : Controller) : Except ElabError Layout :=
  match c.layout with
  | some l => .ok l
  | none => .error .notFinalized

/-- The bit of a source in the registers of a finalized controller, if it is attached. -/
def bitOf (c : Controller) (s : Source) : Except ElabError (Option Nat) :=
  match c.layout with
  | some _ => .ok (c.roster.rank? s.id)
  | none => .error .notFinalized

-- ---------------------------------------------------------------------------
-- Attaching
-- ---------------------------------------------------------------------------

/-- The reason to refuse a source, if there is one. The first that applies is given. -/
def objection? (c : Controller) (owned : Ownership) (s : Source) : Option ElabError :=
  if c.isFinalized then some .alreadyFinalized
  else if c.roster.holds s.id || owned.isTaken s.id then some (.duplicateSource s.id)
  else if maxSources ≤ c.roster.size then some (.tooManySources maxSources)
  else
    match s.name with
    | some name => if c.names.contains name then some (.nameCollision name) else none
    | none => none

/-- Enters a source and records its name. -/
def accept (c : Controller) (s : Source) : Controller :=
  { c with
    roster := c.roster.insert s
    names := match s.name with
      | some name => c.names.insert name
      | none => c.names }

/-- Takes ownership of a source. -/
def attach (c : Controller) (owned : Ownership) (s : Source) :
    Except ElabError (Controller × Ownership) :=
  match c.objection? owned s with
  | some e => .error e
  | none =>
    match owned.take? s.id with
    | some owned => .ok (c.accept s, owned)
    | none => .error (.duplicateSource s.id)

-- ---------------------------------------------------------------------------
-- Finalizing
-- ---------------------------------------------------------------------------

/-- Fixes the layout, with register nets from `base` on. Field names must be unique; otherwise the
first that repeats an earlier one is reported, and the controller stays open. -/
def finalize (c : Controller) (base : SignalId) : Except ElabError (Controller × Layout) :=
  if c.isFinalized then .error .alreadyFinalized
  else
    match Roster.firstRepeat? [] c.roster.fieldNames with
    | some name => .error (.nameCollision name)
    | none =>
      let layout := Layout.synthesize c.roster.sources c.irq base
      .ok ({ c with layout := some layout }, layout)

end Controller

end IrqSynth
