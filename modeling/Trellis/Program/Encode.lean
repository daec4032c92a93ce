import Trellis.Json.Write
import Trellis.Program.Basic

/-!
# Programs as JSON

Every field is written, defaults included, in a fixed order, and an instruction's operation comes first.
-/
namespace Trellis

def Key.toJson : Key → Json
  | .number n => .ofInt n.toInt
  | .symbol s => .ofString s

/-- The name of a mode in a program. -/
def Mode.name : Mode → String
  | .any => "any"
  | .renderable => "renderable"
  | .callable => "callable"

def Source.toJson : Source → Json
  | .string key => .ofMembers [("string", .ofInt key.toInt)]
  | .constant key => .ofMembers [("constant", .ofInt key.toInt)]
  | .stack offset => .ofMembers [("stack", .ofInt offset.toNat)]

def Enclosure.toJson (e : Enclosure) : Json :=
  match e.name with
  | none => .null
  | some name => .ofString name

/-- The name of an operation in a program. -/
def Operation.name : Operation → String
  | .element _ => "elem"
  | .value .. => "value"
  | .call .. => "call"
  | .render => "render"
  | .listen .. => "listen"
  | .push _ => "push"
  | .copy => "copy"
  | .pop => "pop"
  | .swap .. => "swap"
  | .compare => "compare"
  | .read => "read"
  | .calculate _ => "calc"

def Operation.fields : Operation → List (String × Json)
  | .element tag => [("tag", .ofString tag)]
  | .value raw source => [("raw", .bool raw), ("value", source.toJson)]
  | .call label mode => [("label", .ofString label), ("mode", .ofString mode.name)]
  | .listen event handler => [("event", .ofString event), ("handler", .ofString handler)]
  | .push source => [("value", source.toJson)]
  | .swap a b => [("a", .ofInt a.toNat), ("b", .ofInt b.toNat)]
  | .calculate operator => [("operator", .ofString operator)]
  | .render => []
  | .copy => []
  | .pop => []
  | .compare => []
  | .read => []

namespace Instruction

def name : Instruction → String
  | .container .. => "container"
  | .conditional .. => "if"
  | .single _ operation => operation.name

/-- An instruction's object: the operation, the site and the other fields. -/
def record (name : String) (id : Key) (fields : List (String × Json)) : Json :=
  .ofMembers (("op", .ofString name) :: ("id", id.toJson) :: fields)

mutual

def toJson : Instruction → Json
  | .container id enclosure body =>
    record "container" id [("tag", enclosure.toJson), ("body", .array (toJsonAll body))]
  | .conditional id body => record "if" id [("body", .array (toJsonAll body))]
  | .single id operation => record operation.name id operation.fields

def toJsonAll : List Instruction → List Json
  | [] => []
  | i :: is => toJson i :: toJsonAll is

end

end Instruction

def Definition.toJson (d : Definition) : Json :=
  .ofMembers [("label", .ofString d.label), ("renderable", .bool d.renderable),
    ("body", .array (Instruction.toJsonAll d.body))]

namespace Program

def toJson (p : Program) : Json :=
  .ofMembers [("unsafe_mode", .bool p.trusted),
    ("strings", .array (p.strings.map fun s => .array [.ofInt s.1.toInt, .ofString s.2])),
    ("constants", .array (p.constants.map fun c => .array [.ofInt c.1.toInt, .number (.real c.2)])),
    ("sections", .array (p.sections.map Definition.toJson))]

def toText (p : Program) : String := String.ofList (p.toJson.pretty 0)

end Program

def Instruction.toText (i : Instruction) : String := String.ofList i.toJson.compact

end Trellis
