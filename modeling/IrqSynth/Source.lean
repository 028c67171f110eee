-- SUMMARY: Event sources: kinds, ports, latch logic and field texts.
import IrqSynth.Logic.Fragment

/-!
# Sources

A source turns a trigger line into an event. Every source has four ports: `trigger` and `clear` come
from outside, `status` shows the level of the line and `pending` the event itself. The kind of the
source decides how they relate.
-/
namespace IrqSynth

/-- The identity of a source. Ids are handed out in creation order. -/
abbrev SourceId := Nat

/-- When a source fires. -/
inductive SourceKind where
  /-- Held from a high trigger until it is cleared. -/
  | pulse
  /-- Held from a falling trigger until it is cleared. -/
  | process
  /-- Follows the trigger. -/
  | level
  deriving DecidableEq, Repr

/-- The sentence of a data sheet that says when a source fires. -/
def SourceKind.triggerText : SourceKind → String
  | level => "This Event is **level triggered** when the signal is **high**."
  | pulse => "This Event is triggered on a **rising** edge."
  | process => "This Event is triggered on a **falling** edge."

/-- The nets through which a source is connected. -/
structure Ports where
  trigger : Signal
  status : Signal
  pending : Signal
  clear : Signal
  deriving DecidableEq, Repr

/-- A handle to a source whose nets start at id `base`. Handles to one source agree in all but the
description, which belongs to the handle. -/
structure Source where
  id : SourceId
  kind : SourceKind
  name : Option String
  description : Option String
  base : SignalId
  deriving DecidableEq, Repr

namespace Source

-- ---------------------------------------------------------------------------
-- Nets
-- ---------------------------------------------------------------------------

/-- What the names of the nets begin with: the given name, or `ev` and the id. -/
def stem (s : Source) : String :=
  s.name.getD s!"ev{s.id}"

def trigger (s : Source) : Signal :=
  ⟨s.base, s.stem ++ "_trigger"⟩

def status (s : Source) : Signal :=
  ⟨s.base + 1, s.stem ++ "_status"⟩

def pending (s : Source) : Signal :=
  ⟨s.base + 2, s.stem ++ "_pending"⟩

def clear (s : Source) : Signal :=
  ⟨s.base + 3, s.stem ++ "_clear"⟩

/-- The trigger as it was at the last clock edge. Only a `process` source owns this net. -/
def oldTrigger (s : Source) : Signal :=
  ⟨s.base + 4, s.stem ++ "_old_trigger"⟩

def ports (s : Source) : Ports :=
  ⟨s.trigger, s.status, s.pending, s.clear⟩

/-- The number of nets a source owns. -/
def signalCount (s : Source) : Nat :=
  match s.kind with
  | .pulse => 4
  | .process => 5
  | .level => 4

-- ---------------------------------------------------------------------------
-- Logic
-- ---------------------------------------------------------------------------

/-- The condition under which a source fires at a clock edge. A `level` source holds no event that
could fire. -/
def fires (s : Source) : Expr :=
  match s.kind with
  | .pulse => .signal s.trigger.id
  | .process => .and (.not (.signal s.trigger.id)) (.signal s.oldTrigger.id)
  | .level => .lit false

/-- Lowers the event at an edge with `clear` high. -/
def acknowledge (s : Source) : Stmt :=
  .guard (.signal s.clear.id) [s.pending.drive (.lit false)]

/-- Raises the event at an edge at which the source fires. -/
def latch (s : Source) : Stmt :=
  .guard s.fires [s.pending.drive (.lit true)]

/-- The logic of a source. Firing comes after clearing, so a source that fires in the cycle in
which it is cleared stays pending. -/
def logic (s : Source) : Fragment :=
  match s.kind with
  | .pulse => ⟨[s.status.drive (.lit false)], [s.acknowledge, s.latch]⟩
  | .process =>
    ⟨[s.status.drive (.signal s.trigger.id)],
      [s.acknowledge, s.oldTrigger.drive (.signal s.trigger.id), s.latch]⟩
  | .level =>
    ⟨[s.status.drive (.signal s.trigger.id), s.pending.drive (.signal s.trigger.id)], []⟩

-- ---------------------------------------------------------------------------
-- Register fields
-- ---------------------------------------------------------------------------

/-- What the field name of a source without a name begins with. -/
def fallbackName : String :=
  "event"

/-- The name of the field at bit `i` if it belongs to this source. -/
def fieldName (s : Source) (i : Nat) : String :=
  s.name.getD (fallbackName ++ toString i)

/-- What a data sheet says of the source's bit in the status register. -/
def statusText (s : Source) (name : String) : String :=
  s.description.getD s!"Level of the `{name}` event"

/-- What a data sheet says of the source's bit in the pending register. -/
def pendingText (s : Source) (name : String) : String :=
  s.description.getD s!"`1` if a `{name}` event occurred. {s.kind.triggerText}"

/-- What a data sheet says of a bit of the enable register. A description does not replace it. -/
def enableText (name : String) : String :=
  s!"Write a `1` to enable the `{name}` Event"

end Source

end IrqSynth
