import Trellis.Number.Binary64
import Trellis.Program.Instruction

/-!
# Programs

A program has a table of strings, a table of constants and its sections. Where a key or a label is given
twice, the last entry counts.
-/
namespace Trellis

structure Definition where
  label : String
  /-- Whether the section's code makes output. -/
  renderable : Bool
  body : List Instruction
deriving DecidableEq, Repr

structure Program where
  /-- A trusted program runs without diagnostics and without the limit on re-renders. -/
  trusted : Bool := false
  strings : List (Int64 × String) := []
  constants : List (Int64 × Binary64) := []
  sections : List Definition := []
deriving DecidableEq, Repr

/-- The section that a render runs. -/
def mainLabel : String := "main"

/-- The section that runs once before the first render. -/
def initLabel : String := "init"

namespace Program

/-- The last definition of a label. -/
def section? (p : Program) (label : String) : Option Definition :=
  p.sections.reverse.find? (·.label = label)

def defines (p : Program) (label : String) : Bool := p.sections.any (·.label = label)

end Program
end Trellis
