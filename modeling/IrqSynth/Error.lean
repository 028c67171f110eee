-- SUMMARY: Reasons to refuse a step of the elaboration, and the failures of bus accesses.
/-!
# Errors

Why a step of the elaboration is refused, and the class of failure that firmware sees.
-/
namespace IrqSynth

/-- The class of a failure. A bus access has no finer cause than this. -/
inductive ErrorCode where
  | alreadyExists
  | badState
  | invalidInput
  | noMemory
  deriving DecidableEq, Repr

/-- The causes for which the elaboration of a design is refused. -/
inductive ElabError where
  /-- Attaching to or finalizing a controller whose layout is fixed. -/
  | alreadyFinalized
  /-- The source belongs to a controller already. -/
  | duplicateSource (id : Nat)
  /-- Two sources of a controller have the same field name. -/
  | nameCollision (name : String)
  /-- Asking an open controller for its layout. -/
  | notFinalized
  /-- Sharing a line between no controllers. -/
  | noControllers
  /-- The controller holds as many sources as it may. -/
  | tooManySources (limit : Nat)
  deriving DecidableEq, Repr

/-- The sentence shown to the designer. -/
def ElabError.message : ElabError → String
  | alreadyFinalized => "event manager is already finalized"
  | duplicateSource id => s!"event source #{id} is already attached"
  | nameCollision name => s!"event field name `{name}` is used by more than one source"
  | notFinalized => "event manager is not finalized yet"
  | noControllers => "shared irq requires at least one event manager"
  | tooManySources limit => s!"event manager cannot hold more than {limit} sources"

/-- The class of each cause. -/
def ElabError.code : ElabError → ErrorCode
  | alreadyFinalized => .badState
  | notFinalized => .badState
  | duplicateSource _ => .alreadyExists
  | nameCollision _ => .alreadyExists
  | noControllers => .invalidInput
  | tooManySources _ => .noMemory

end IrqSynth
