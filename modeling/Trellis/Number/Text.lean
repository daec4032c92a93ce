import Trellis.Number.Decimal

/-!
# Numbers as text

Two ways to write a number, both with the fewest digits that read back: plainly, with every place
written out, and as a JSON number, which has an exponent outside a middle range. `ofText?` reads
either of them.
-/
namespace Trellis

namespace Decimal

def digitText (d : Decimal) : List Char := Nat.toDigits 10 d.digits

/-- All places written out, with a point only when the last place is a fraction. -/
def positional (d : Decimal) : List Char :=
  let ds := d.digitText
  if 0 ≤ d.exponent then ds ++ List.replicate d.exponent.toNat '0'
  else
    let places := (-d.exponent).toNat
    let padded := List.replicate (places + 1 - ds.length) '0' ++ ds
    padded.take (padded.length - places) ++ '.' :: padded.drop (padded.length - places)

/-- The power of ten of the first digit. -/
def leadingPower (d : Decimal) : Int := d.exponent + d.digitText.length - 1

/-- One digit before the point and the power of ten, with its sign, after an `e`. -/
def scientific (d : Decimal) : List Char :=
  let power := d.leadingPower
  let mantissa :=
    match d.digitText with
    | [] => []
    | [c] => [c]
    | c :: cs => c :: '.' :: cs
  mantissa ++ 'e' :: (if power < 0 then '-' else '+') :: Nat.toDigits 10 power.natAbs

/-- A JSON number that is not an integer literal: positional with at least one decimal place while the
first digit stands between `10 ^ -5` and `10 ^ 15`. -/
def literal (d : Decimal) : List Char :=
  if -5 ≤ d.leadingPower ∧ d.leadingPower ≤ 15 then
    if 0 ≤ d.exponent then d.positional ++ ['.', '0'] else d.positional
  else d.scientific

end Decimal

namespace Binary64

def withSign (negative : Bool) (cs : List Char) : String :=
  String.ofList (if negative then '-' :: cs else cs)

/-- Plain text: every place written out, whole numbers without a point. -/
def toText : Binary64 → String
  | .nan => "NaN"
  | .infinite s => withSign s ['i', 'n', 'f']
  | .finite s m e h => withSign s ((Binary64.finite s m e h).shortest .upward).positional

/-- JSON has no literal for what is not finite. -/
def toLiteral : Binary64 → List Char
  | .finite s m e h =>
    let cs := ((Binary64.finite s m e h).shortest .toEven).literal
    if s then '-' :: cs else cs
  | _ => ['n', 'u', 'l', 'l']

/-- Splits off a leading sign. -/
def splitSign : List Char → Bool × List Char
  | '-' :: cs => (true, cs)
  | '+' :: cs => (false, cs)
  | cs => (false, cs)

/-- The power of ten after a mantissa: nothing, or `e` and a signed integer. -/
def exponent? : List Char → Option Int
  | [] => some 0
  | c :: cs =>
    let (negative, ds) := splitSign cs
    if (c = 'e' ∨ c = 'E') ∧ ds ≠ [] ∧ ds.all Char.isDigit then
      let n : Int := Decimal.ofDigits ds
      some (if negative then -n else n)
    else none

/-- The digits after a point, if there is one, and what follows them. -/
def splitFraction : List Char → List Char × List Char
  | '.' :: cs => cs.span Char.isDigit
  | cs => ([], cs)

/-- Reads a decimal with an optional sign, point and exponent, or the name of a number that is not
finite. -/
def ofText? (s : String) : Option Binary64 :=
  let (negative, cs) := splitSign s.toList
  if cs = ['N', 'a', 'N'] then some .nan
  else if cs = ['i', 'n', 'f'] then some (.infinite negative)
  else
    let (whole, afterWhole) := cs.span Char.isDigit
    let (fraction, afterFraction) := splitFraction afterWhole
    if whole ++ fraction = [] then none
    else (exponent? afterFraction).map fun e =>
      ofDecimal negative (Decimal.ofPoint whole fraction e)

end Binary64
end Trellis
