import Trellis.Engine.Table
import Trellis.Fault
import Trellis.Program.Basic

/-!
# Code sections and resource tables
-/
namespace Trellis

/-- A section of code. Only the synthetic root section has no body. -/
structure Section where
  label : String
  renderable : Bool
  body : Option (List Instruction)
deriving DecidableEq, Repr

namespace Section

/-- The section to which the outermost frame belongs. -/
def root : Section := ⟨"#root", true, none⟩

def isRoot (s : Section) : Bool := s.body.isNone

def ofDefinition (d : Definition) : Section := ⟨d.label, d.renderable, some d.body⟩

end Section

abbrev Sections := Table String Section

namespace Sections

def find (t : Sections) (label : String) : Except Fault Section :=
  match t.get? label with
  | some s => .ok s
  | none => .error (.undefinedSection label)

/-- Puts a section under its own label. -/
def define (t : Sections) (s : Section) : Sections := t.insert s.label s

end Sections

/-- The strings and constants of a program. -/
structure Resources where
  strings : Table Int64 String
  constants : Table Int64 Binary64
deriving Repr

namespace Resources

def empty : Resources := ⟨.empty, .empty⟩

def string (r : Resources) (key : Int64) : Except Fault String :=
  match r.strings.get? key with
  | some s => .ok s
  | none => .error (.undefinedString key)

def constant (r : Resources) (key : Int64) : Except Fault Binary64 :=
  match r.constants.get? key with
  | some x => .ok x
  | none => .error (.undefinedConstant key)

end Resources
end Trellis
