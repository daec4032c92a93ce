import Trellis.Json.Token

/-!
# From tokens to JSON values

A pushdown machine: containers that have not ended are kept innermost first, with what they hold so far
newest first. Nesting is as deep as memory allows.
-/
namespace Trellis.Json

/-- A container that has not ended. An object also has the name of the member being read. -/
inductive Pending where
  | array (items : List Json)
  | object (members : List (Text × Json)) (name : Text)
deriving Repr

mutual

/-- A value has to come. -/
def readValue? (stack : List Pending) : List Token → Option Json
  | .null :: ts => readRest? stack .null ts
  | .bool b :: ts => readRest? stack (.bool b) ts
  | .number n :: ts => readRest? stack (.number n) ts
  | .string text :: ts => readRest? stack (.string text) ts
  | .arrayOpen :: .arrayClose :: ts => readRest? stack (.array []) ts
  | .arrayOpen :: ts => readValue? (.array [] :: stack) ts
  | .objectOpen :: .objectClose :: ts => readRest? stack (.object []) ts
  | .objectOpen :: ts => readMember? stack [] ts
  | _ => none

/-- A member of an object has to come. -/
def readMember? (stack : List Pending) (members : List (Text × Json)) : List Token → Option Json
  | .string name :: .colon :: ts => readValue? (.object members name :: stack) ts
  | _ => none

/-- A value has just ended. -/
def readRest? (stack : List Pending) (value : Json) (tokens : List Token) : Option Json :=
  match stack, tokens with
  | [], [] => some value
  | .array items :: stack, .comma :: ts => readValue? (.array (value :: items) :: stack) ts
  | .array items :: stack, .arrayClose :: ts => readRest? stack (.array (value :: items).reverse) ts
  | .object members name :: stack, .comma :: ts => readMember? stack ((name, value) :: members) ts
  | .object members name :: stack, .objectClose :: ts =>
    readRest? stack (.object ((name, value) :: members).reverse) ts
  | _, _ => none

end

def ofTokens? (ts : List Token) : Option Json := readValue? [] ts

/-- The value that a text holds, with nothing but blanks around it. -/
def parseWith? (real : RealReader) (source : String) : Option Json := (tokens? real source.toList).bind ofTokens?

def parse? (source : String) : Option Json := parseWith? .nearest source

end Trellis.Json
