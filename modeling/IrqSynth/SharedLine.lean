-- SUMMARY: Interrupt lines that combine the lines of several controllers.
import IrqSynth.Controller

/-!
# Shared lines

One interrupt line for several controllers, high while the line of any of them is. The controllers
need not be finalized: only their lines are read.
-/
namespace IrqSynth

/-- A line and the interrupt lines it combines, in the order given. -/
structure SharedLine where
  irq : Signal
  members : List SignalId
  deriving DecidableEq, Repr

namespace SharedLine

/-- Combines the lines of at least one controller into a line of id `base`. -/
def join (controllers : List Controller) (base : SignalId) : Except ElabError SharedLine :=
  if controllers.isEmpty then .error .noControllers
  else .ok ⟨⟨base, "shared_irq"⟩, controllers.map fun c => c.irq.id⟩

theorem join_eq_ok {controllers : List Controller} {base : SignalId} {line : SharedLine} :
    join controllers base = .ok line ↔ controllers ≠ [] ∧
      line = ⟨⟨base, "shared_irq"⟩, controllers.map fun c => c.irq.id⟩ := by
  unfold join
  cases controllers <;> simp [eq_comm]

/-- The line is the disjunction of its members. -/
def logic (l : SharedLine) : Fragment :=
  ⟨[l.irq.drive (.disjunction (l.members.map .signal))], []⟩

end SharedLine

end IrqSynth
