import Trellis.Number.Binary64

/-!
# Arithmetic operators
-/
namespace Trellis

inductive Operator where
  | add
  | sub
  | mul
  | floorDiv
deriving DecidableEq, Repr

namespace Operator

def symbol : Operator → String
  | .add => "+"
  | .sub => "-"
  | .mul => "*"
  | .floorDiv => "//"

def ofSymbol? (symbol : String) : Option Operator :=
  [Operator.add, .sub, .mul, .floorDiv].find? (·.symbol = symbol)

/-- Division is rounded to the nearest number first and then down to an integer. -/
def apply : Operator → Binary64 → Binary64 → Binary64
  | .add, x, y => x + y
  | .sub, x, y => x - y
  | .mul, x, y => x * y
  | .floorDiv, x, y => (x / y).floor

end Operator
end Trellis
