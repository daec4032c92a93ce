import Trellis.Number.Text

/-!
# JSON values

Objects keep their members in order, repeated names included, so that a reader can decide what a
repetition means. An integer literal stays apart from a literal with a fraction or an exponent. A string
whose escapes name half of a surrogate pair is no text and is kept as `none`: it is well-formed JSON, and
only a reader that needs the text has to refuse it.
-/
namespace Trellis

namespace Json

inductive Number where
  | integer (n : Int)
  | real (x : Binary64)
deriving DecidableEq, Repr

def Number.toBinary64 : Number → Binary64
  | .integer n => .ofInt n
  | .real x => x

abbrev Text := Option String

end Json

inductive Json where
  | null
  | bool (b : Bool)
  | number (n : Json.Number)
  | string (text : Json.Text)
  | array (items : List Json)
  | object (members : List (Json.Text × Json))
deriving Repr

namespace Json

/-- A string that is text. -/
def ofString (s : String) : Json := .string (some s)

def ofInt (n : Int) : Json := .number (.integer n)

/-- An object whose names are text. -/
def ofMembers (members : List (String × Json)) : Json := .object (members.map fun m => (some m.1, m.2))

mutual

/-- Whether all numbers are finite, all strings and names are text, and arrays and objects are nested at most
`limit` deep. -/
def sound (limit : Nat) : Json → Bool
  | .null => true
  | .bool _ => true
  | .number n => n.toBinary64.isFinite
  | .string text => text.isSome
  | .array items => limit ≠ 0 && soundItems (limit - 1) items
  | .object members => limit ≠ 0 && soundMembers (limit - 1) members

def soundItems (limit : Nat) : List Json → Bool
  | [] => true
  | item :: items => sound limit item && soundItems limit items

def soundMembers (limit : Nat) : List (Text × Json) → Bool
  | [] => true
  | (name, value) :: members => name.isSome && sound limit value && soundMembers limit members

end

end Json
end Trellis
