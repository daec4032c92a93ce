import Trellis.Number.Text

/-!
# Operand values

A value is a number or a text. Only a number whose magnitude is at most `2 ^ 53 - 1` may stand on the
operand stack: up to that bound every integer is a number of its own.
-/
namespace Trellis

inductive Value where
  | number (x : Binary64)
  | text (s : String)
deriving DecidableEq, Repr

namespace Value

inductive Kind where
  | number
  | text
deriving DecidableEq, Repr

def Kind.name : Kind → String
  | .number => "Number"
  | .text => "Text"

def kind : Value → Kind
  | .number _ => .number
  | .text _ => .text

def number? : Value → Option Binary64
  | .number x => some x
  | .text _ => none

/-- The largest magnitude of a number on the operand stack. -/
def bound : Nat := Nat.pow 2 53 - 1

def isValid : Value → Bool
  | .number x => x.within bound
  | .text _ => true

/-- Only the number 1 is true. -/
def isTrue : Value → Bool
  | .number x => x.equal .one
  | .text _ => false

def ofBool (b : Bool) : Value := .number (.ofInt (if b then 1 else 0))

/-- Equality of value and kind. Numbers compare as numbers: the two zeros are equal. -/
def equal : Value → Value → Bool
  | .number x, .number y => x.equal y
  | .text s, .text t => s = t
  | _, _ => false

/-- A whole number within the bound is written as an integer, so that a zero has no sign. -/
def numberText (x : Binary64) : String :=
  match x.toInt? with
  | some n => if x.within bound then toString n else x.toText
  | none => x.toText

/-- The text that a value puts into the output. -/
def toText : Value → String
  | .number x => numberText x
  | .text s => s

/-- The text of a value in diagnostics, where texts have quotes around them. -/
def shown : Value → String
  | .number x => numberText x
  | .text s => "\x22" ++ s ++ "\x22"

end Value
end Trellis
