-- SUMMARY: Levels of nets as finite maps that read 0 without an entry, with equations for setting and lowering.
import IrqSynth.Signal
import Std.Data.ExtTreeMap

/-!
# Levels

The levels of the nets at one moment. A net that was never driven or set has no entry and reads
as 0; entries are nevertheless part of the value, so that a record with an explicit 0 differs from
one without.

Main statements: `ext_get?` (a record is its entries) and one equation per operation, through `get?`
and `read`.
-/
namespace IrqSynth

/-- The levels recorded so far, by net. -/
structure Levels where
  known : Std.ExtTreeMap SignalId Bool
  deriving DecidableEq

namespace Levels

/-- Nothing recorded: every net reads as 0. -/
def empty : Levels :=
  ⟨∅⟩

/-- The recorded level of a net, if there is one. -/
def get? (v : Levels) (s : SignalId) : Option Bool :=
  v.known[s]?

/-- The level of a net. -/
def read (v : Levels) (s : SignalId) : Bool :=
  (v.get? s).getD false

/-- Records `level` for net `s`. -/
def set (v : Levels) (s : SignalId) (level : Bool) : Levels :=
  ⟨v.known.insert s level⟩

/-- Records 0 for each of the given nets. -/
def lower (v : Levels) (nets : List SignalId) : Levels :=
  nets.foldl (fun w s => w.set s false) v

-- ---------------------------------------------------------------------------
-- One equation per operation
-- ---------------------------------------------------------------------------

theorem ext_get? {v w : Levels} (h : ∀ s, v.get? s = w.get? s) : v = w := by
  obtain ⟨v⟩ := v
  obtain ⟨w⟩ := w
  exact congrArg mk (Std.ExtTreeMap.ext_getElem? h)

@[simp] theorem get?_empty (s : SignalId) : empty.get? s = none := by
  simp [get?, empty]

@[simp] theorem read_empty (s : SignalId) : empty.read s = false := by
  simp [read]

theorem get?_set (v : Levels) (s t : SignalId) (b : Bool) :
    (v.set s b).get? t = if s = t then some b else v.get? t := by
  simp [get?, set, Std.ExtTreeMap.getElem?_insert]

theorem read_set (v : Levels) (s t : SignalId) (b : Bool) :
    (v.set s b).read t = if s = t then b else v.read t := by
  simp only [read, get?_set]
  split <;> rfl

theorem get?_lower (v : Levels) (nets : List SignalId) (t : SignalId) :
    (v.lower nets).get? t = if t ∈ nets then some false else v.get? t := by
  induction nets generalizing v with
  | nil => simp [lower]
  | cons s rest ih =>
    have step : v.lower (s :: rest) = (v.set s false).lower rest := rfl
    rw [step, ih, get?_set]
    grind

end Levels

end IrqSynth
