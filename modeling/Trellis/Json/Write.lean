import Trellis.Json.Basic

/-!
# JSON text

Two layouts: without any blank, and with one member or item a line, two blanks of indentation a level. A
string escapes what it must and no more.
-/
namespace Trellis.Json

/-- The last two digits of a control character's escape. -/
def lowHex (n : Nat) : List Char := [Nat.digitChar (n / 16), Nat.digitChar (n % 16)]

def escapeChar (c : Char) : List Char :=
  if c = '\x22' ∨ c = '\x5c' then ['\x5c', c]
  else if c = '\x08' then ['\x5c', 'b']
  else if c = '\x0c' then ['\x5c', 'f']
  else if c = '\n' then ['\x5c', 'n']
  else if c = '\r' then ['\x5c', 'r']
  else if c = '\t' then ['\x5c', 't']
  else if c.toNat < 0x20 then '\x5c' :: 'u' :: '0' :: '0' :: lowHex c.toNat
  else [c]

def quote (s : String) : List Char := '\x22' :: s.toList.flatMap escapeChar ++ ['\x22']

def Number.write : Number → List Char
  | .integer n => (if n < 0 then ['-'] else []) ++ Nat.toDigits 10 n.natAbs
  | .real x => x.toLiteral

/-- What is not text has no written form and is left empty. -/
def writeText (text : Text) : List Char := quote (text.getD "")

/-- Values that hold no other values. -/
def writeScalar : Json → List Char
  | .null => ['n', 'u', 'l', 'l']
  | .bool true => ['t', 'r', 'u', 'e']
  | .bool false => ['f', 'a', 'l', 's', 'e']
  | .number n => n.write
  | .string text => writeText text
  | .array _ => ['[', ']']
  | .object _ => ['\x7b', '\x7d']

mutual

def compact : Json → List Char
  | .array (item :: items) => '[' :: compact item ++ compactItems items ++ [']']
  | .object ((name, value) :: members) =>
    '\x7b' :: writeText name ++ ':' :: compact value ++ compactMembers members ++ ['\x7d']
  | value => writeScalar value

def compactItems : List Json → List Char
  | [] => []
  | item :: items => ',' :: compact item ++ compactItems items

def compactMembers : List (Text × Json) → List Char
  | [] => []
  | (name, value) :: members =>
    ',' :: writeText name ++ ':' :: compact value ++ compactMembers members

end

/-- The end of a line and the indentation of the next. -/
def newline (depth : Nat) : List Char := '\n' :: List.replicate (2 * depth) ' '

mutual

/-- A value at some depth of indentation. -/
def pretty (depth : Nat) : Json → List Char
  | .array (item :: items) =>
    '[' :: newline (depth + 1) ++ pretty (depth + 1) item ++ prettyItems (depth + 1) items ++
      newline depth ++ [']']
  | .object ((name, value) :: members) =>
    '\x7b' :: newline (depth + 1) ++ writeText name ++ ':' :: ' ' :: pretty (depth + 1) value ++
      prettyMembers (depth + 1) members ++ newline depth ++ ['\x7d']
  | value => writeScalar value

def prettyItems (depth : Nat) : List Json → List Char
  | [] => []
  | item :: items => ',' :: newline depth ++ pretty depth item ++ prettyItems depth items

def prettyMembers (depth : Nat) : List (Text × Json) → List Char
  | [] => []
  | (name, value) :: members =>
    ',' :: newline depth ++ writeText name ++ ':' :: ' ' :: pretty depth value ++
      prettyMembers depth members

end

end Trellis.Json
