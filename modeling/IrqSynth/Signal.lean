-- SUMMARY: Nets, identified by number.
/-!
# Signals

The nets of the emitted hardware. A net carries one bit and is identified by a number; its name is
for the reader of a listing.
-/
namespace IrqSynth

/-- The identity of a net. Ids are handed out in creation order. -/
abbrev SignalId := Nat

/-- A named net. -/
structure Signal where
  id : SignalId
  name : String
  deriving DecidableEq, Repr

/-- Two handles denote one net exactly when their ids agree, whatever their names. -/
def Signal.sameNet (a b : Signal) : Bool :=
  a.id == b.id

/-- The name, then the id after a `#`. -/
def Signal.render (s : Signal) : String :=
  s!"{s.name}#{s.id}"

end IrqSynth
