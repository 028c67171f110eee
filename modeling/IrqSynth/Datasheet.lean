-- SUMMARY: The documentation text of a register.
import IrqSynth.Controller

/-!
# Data sheets

The text that documents registers: a heading, the description, and a line for each field.
-/
namespace IrqSynth

/-- The line of one field. -/
def Field.datasheet (f : Field) : String :=
  s!"  bit {f.offset}: {f.name}: {f.description}\n"

/-- The text of one register. Every line ends with a line feed. -/
def Register.datasheet (r : Register) : String :=
  s!"{r.name} ({r.kind.access}, {r.width} bits)\n" ++ s!"{r.description}\n" ++
    String.join (r.fields.map Field.datasheet)

/-- The texts of the three registers, an empty line after each. -/
def Layout.datasheet (l : Layout) : String :=
  String.join ([l.status, l.pending, l.enable].map fun r => r.datasheet ++ "\n")

/-- The data sheet of a finalized controller. -/
def Controller.datasheet (c : Controller) : Except ElabError String :=
  c.requireLayout.map Layout.datasheet

end IrqSynth
