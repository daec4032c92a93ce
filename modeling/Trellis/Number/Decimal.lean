import Trellis.Number.Binary64

/-!
# Decimal numbers

`Decimal` is a natural number times a power of ten. `Binary64.ofDecimal` reads one with a single
rounding, and `Binary64.shortest` picks the decimal with the fewest digits that reads back as the
same number, the nearest of those that do.
-/
namespace Trellis

/-- The number `digits · 10 ^ exponent`. -/
structure Decimal where
  digits : Nat
  exponent : Int
deriving DecidableEq, Repr

namespace Decimal

/-- The natural number that decimal digits spell. -/
def ofDigits (cs : List Char) : Nat :=
  cs.foldl (fun n c => 10 * n + (c.toNat - '0'.toNat)) 0

/-- The number spelt by the digits before and after a decimal point, times a power of ten. -/
def ofPoint (whole fraction : List Char) (exponent : Int) : Decimal :=
  ⟨ofDigits (whole ++ fraction), exponent - fraction.length⟩

/-- Removes at most `limit` zeros from the end of the digits. -/
def stripZeros : Nat → Decimal → Decimal
  | 0, d => d
  | limit + 1, d =>
    if d.digits ≠ 0 ∧ d.digits % 10 = 0 then stripZeros limit ⟨d.digits / 10, d.exponent + 1⟩ else d

end Decimal

namespace Binary64

/-- The number nearest to `± d`. A power of ten above 400 puts the magnitude past the largest number;
one that leaves it under `10 ^ -400` puts it under half of the least. -/
def ofDecimal (negative : Bool) (d : Decimal) : Binary64 :=
  if d.digits = 0 then zero negative
  else if 400 < d.exponent then .infinite negative
  else if d.exponent + d.digits.log2 + 1 < -400 then zero negative
  else round negative (d.digits * Nat.pow 10 d.exponent.toNat) (Nat.pow 10 (-d.exponent).toNat)

/-- Which of two equally near decimals is taken. -/
inductive Tie where
  | upward
  | toEven
deriving DecidableEq, Repr

/-- Whether `10 ^ k ≤ num / den`. -/
def reachesPower (num den : Nat) (k : Int) : Bool :=
  den * Nat.pow 10 k.toNat ≤ num * Nat.pow 10 (-k).toNat

/-- The greatest `k` with `10 ^ k ≤ num / den`, estimated from the binary logarithm and put right by one
step either way. -/
def powerOf (num den : Nat) : Int :=
  let estimate := (((num.log2 : Int) - den.log2) * 30103) / 100000
  if !reachesPower num den estimate then estimate - 1
  else if reachesPower num den (estimate + 1) then estimate + 1
  else estimate

/-- The decimal of the form `n · 10 ^ k` that is nearest to `num / den` among the two neighbours of it that
read back as `x`, if one of them does. -/
def nearestOn (tie : Tie) (x : Binary64) (num den : Nat) (k : Int) : Option Decimal :=
  let top := num * Nat.pow 10 (-k).toNat
  let bottom := den * Nat.pow 10 k.toNat
  let low := top / bottom
  let rest := 2 * (top % bottom)
  let lowFits := ofDecimal x.isNegative ⟨low, k⟩ = x
  let highFits := ofDecimal x.isNegative ⟨low + 1, k⟩ = x
  let lowNearer := rest < bottom ∨ (rest = bottom ∧ tie = .toEven ∧ low % 2 = 0)
  if lowFits ∧ (lowNearer ∨ ¬ highFits) then some ⟨low, k⟩
  else if highFits then some ⟨low + 1, k⟩
  else none

/-- All digits of a finite number. -/
def expansion : Binary64 → Decimal
  | .finite _ m e _ => if 0 ≤ e then ⟨m * Nat.pow 2 e.toNat, 0⟩ else ⟨m * Nat.pow 5 (-e).toNat, e⟩
  | _ => ⟨0, 0⟩

/-- The magnitude of a finite number in the fewest decimal digits that read back as that number. Seventeen
digits are always enough. -/
def shortest (tie : Tie) : Binary64 → Decimal
  | .finite s m e h =>
    if m = 0 then ⟨0, 0⟩
    else
      let num := m * Nat.pow 2 e.toNat
      let den := Nat.pow 2 (-e).toNat
      let power := powerOf num den
      let grid (n : Nat) : Option Decimal := nearestOn tie (.finite s m e h) num den (power - n)
      match (List.range 17).findSome? grid with
      | some d => d.stripZeros 17
      | none => expansion (.finite s m e h)
  | _ => ⟨0, 0⟩

end Binary64
end Trellis
