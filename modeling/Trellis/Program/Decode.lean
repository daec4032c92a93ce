import Trellis.Json.Parse
import Trellis.Json.Record
import Trellis.Program.Encode

/-!
# Programs from JSON

An ignored field of a program or of a section may hold any JSON value at all. Instructions are checked
whole: their ignored fields too have to be sound and count towards the nesting limit.
-/
namespace Trellis

def Key.ofJson? : Json → Option Key
  | .string text => text.map .symbol
  | j => j.int64?.map .number

def Mode.ofName? (name : String) : Option Mode :=
  [Mode.any, Mode.renderable, Mode.callable].find? (·.name = name)

/-- A mode is its name, or an object that maps its name to nothing. -/
def Mode.ofJson? : Json → Option Mode
  | .string text => text.bind Mode.ofName?
  | j =>
    match j.only? with
    | some (name, .null) => Mode.ofName? name
    | some (name, .object []) => Mode.ofName? name
    | _ => none

def Source.ofJson? (j : Json) : Option Source := do
  let (name, value) ← j.only?
  if name = "string" then value.int64?.map .string
  else if name = "constant" then value.int64?.map .constant
  else if name = "stack" then value.uint64?.map .stack
  else none

def Enclosure.ofJson? : Json → Option Enclosure
  | .null => some (.ofName none)
  | .string (some name) => some (.ofName (some name))
  | _ => none

/-- A single operation from its name and its fields, the site first. -/
def Operation.ofFields? (name : String) (fields : Json) : Option (Key × Operation) :=
  let only (operation : Operation) : Option (Key × Operation) := do
    let [id] ← fields.fields? ["id"] | none
    return (← id >>= Key.ofJson?, operation)
  match name with
  | "elem" => do
    let [id, tag] ← fields.fields? ["id", "tag"] | none
    return (← id >>= Key.ofJson?, .element (← tag >>= Json.string?))
  | "value" => do
    let [id, raw, source] ← fields.fields? ["id", "raw", "value"] | none
    return (← id >>= Key.ofJson?, .value (← Json.orDefault false Json.bool? raw) (← source >>= Source.ofJson?))
  | "call" => do
    let [id, label, mode] ← fields.fields? ["id", "label", "mode"] | none
    return (← id >>= Key.ofJson?, .call (← label >>= Json.string?) (← Json.orDefault .any Mode.ofJson? mode))
  | "render" => only .render
  | "listen" => do
    let [id, event, handler] ← fields.fields? ["id", "event", "handler"] | none
    return (← id >>= Key.ofJson?, .listen (← event >>= Json.string?) (← handler >>= Json.string?))
  | "push" => do
    let [id, source] ← fields.fields? ["id", "value"] | none
    return (← id >>= Key.ofJson?, .push (← source >>= Source.ofJson?))
  | "copy" => only .copy
  | "pop" => only .pop
  | "swap" => do
    let [id, a, b] ← fields.fields? ["id", "a", "b"] | none
    return (← id >>= Key.ofJson?, .swap (← a >>= Json.uint64?) (← b >>= Json.uint64?))
  | "compare" => only .compare
  | "read" => only .read
  | "calc" => do
    let [id, operator] ← fields.fields? ["id", "operator"] | none
    return (← id >>= Key.ofJson?, .calculate (← operator >>= Json.string?))
  | _ => none

namespace Instruction

/-- The names of all instructions, in the order of their numbers. -/
def names : List String :=
  ["container", "if", "elem", "value", "call", "render", "listen", "push", "copy", "pop", "swap", "compare",
    "read", "calc"]

/-- The operation of an instruction, apart from its other fields. -/
def tagged? : Json → Option (Json × Json)
  | .object members => do
    let op ← ← Json.member? members "op"
    return (op, .object (members.filter (·.1 ≠ some "op")))
  | .array (op :: items) => some (op, .array items)
  | _ => none

/-- An operation is named; inside another instruction it may also be numbered. -/
def name? (inside : Bool) : Json → Option String
  | .string text => text
  | .number (.integer n) => if inside ∧ 0 ≤ n then names[n.toNat]? else none
  | _ => none

/-- Reads an instruction whose blocks are nested fewer than `limit` deep. -/
def decode? (limit : Nat) (inside : Bool) (j : Json) : Option Instruction :=
  match limit with
  | 0 => none
  | limit + 1 => do
    let (op, fields) ← tagged? j
    match ← name? inside op with
    | "container" => do
      let [id, tag, body] ← fields.fields? ["id", "tag", "body"] | none
      return .container (← id >>= Key.ofJson?) (← Json.orDefault .plain Enclosure.ofJson? tag)
        (← Json.orDefault [] (Json.list? (decode? limit true)) body)
    | "if" => do
      let [id, body] ← fields.fields? ["id", "body"] | none
      return .conditional (← id >>= Key.ofJson?)
        (← Json.orDefault [] (Json.list? (decode? limit true)) body)
    | name => (Operation.ofFields? name fields).map fun (id, operation) => .single id operation

/-- Reads an instruction that may be nested `limit` deep. -/
def ofJson? (limit : Nat) (j : Json) : Option Instruction :=
  if j.sound limit then decode? limit false j else none

def ofText? (source : String) : Option Instruction :=
  (Json.parse? source).bind (ofJson? Json.nestingLimit)

/-- Reads an array of instructions. -/
def listOfText? (source : String) : Option (List Instruction) :=
  (Json.parse? source).bind (Json.list? (ofJson? (Json.nestingLimit - 1)))

end Instruction

/-- A section's code stands four levels deep in a program. -/
def Definition.ofJson? (j : Json) : Option Definition := do
  let [label, renderable, body] ← j.fields? ["label", "renderable", "body"] | none
  return ⟨← label >>= Json.string?, ← renderable >>= Json.bool?,
    ← Json.orDefault [] (Json.list? (Instruction.ofJson? (Json.nestingLimit - 4))) body⟩

namespace Program

def ofJson? (j : Json) : Option Program := do
  let [trusted, strings, constants, sections] ←
    j.fields? ["unsafe_mode", "strings", "constants", "sections"] | none
  return ⟨← Json.orDefault false Json.bool? trusted,
    ← Json.orDefault [] (Json.list? (Json.pair? Json.int64? Json.string?)) strings,
    ← Json.orDefault [] (Json.list? (Json.pair? Json.int64? Json.real?)) constants,
    ← Json.orDefault [] (Json.list? Definition.ofJson?) sections⟩

def ofTextWith? (real : Json.RealReader) (source : String) : Option Program :=
  (Json.parseWith? real source).bind ofJson?

def ofText? (source : String) : Option Program := ofTextWith? .nearest source

end Program
end Trellis
