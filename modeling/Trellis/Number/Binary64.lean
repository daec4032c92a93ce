/-!
# Binary floating point with 53 significant bits

A number is not a number, an infinity, or a signed dyadic rational `± m · 2 ^ e` in its one canonical
form. Every operation computes the exact rational result and rounds it once, to the nearest
representable number and to an even significand when two are equally near.
-/
namespace Trellis

/-- The one form in which a finite number is kept: at most 53 bits, and fewer than 53 of them only at
the least exponent. -/
def Binary64.Canonical (m : Nat) (e : Int) : Prop :=
  m < Nat.pow 2 53 ∧ -1074 ≤ e ∧ e ≤ 971 ∧ (Nat.pow 2 52 ≤ m ∨ e = -1074)

instance (m : Nat) (e : Int) : Decidable (Binary64.Canonical m e) :=
  inferInstanceAs (Decidable (_ ∧ _))

inductive Binary64 where
  | nan
  | infinite (negative : Bool)
  | finite (negative : Bool) (significand : Nat) (exponent : Int)
      (canonical : Binary64.Canonical significand exponent)
deriving DecidableEq, Repr

namespace Binary64

/-- The number `± m · 2 ^ e` if that form is canonical, and an infinity otherwise. -/
def pack (negative : Bool) (m : Nat) (e : Int) : Binary64 :=
  if h : Canonical m e then .finite negative m e h else .infinite negative

def zero (negative : Bool) : Binary64 := .finite negative 0 (-1074) (by decide)

/-- The integer nearest to `num / den`, and of two equally near ones the even one. -/
def roundDiv (num den : Nat) : Nat :=
  let q := num / den
  let r := num % den
  if 2 * r < den ∨ (2 * r = den ∧ q % 2 = 0) then q else q + 1

/-- The least exponent `e`, not below `-1074`, with `num / den < 2 ^ (e + 53)`. -/
def exponentOf (num den : Nat) : Int :=
  let e := max (-1074) ((num.log2 : Int) - den.log2 - 53)
  if num * Nat.pow 2 (-e).toNat < Nat.pow 2 53 * den * Nat.pow 2 e.toNat then e else e + 1

/-- The number nearest to `± num / den`; a magnitude past the largest number becomes an infinity. -/
def round (negative : Bool) (num den : Nat) : Binary64 :=
  if num = 0 then zero negative
  else
    let e := exponentOf num den
    let m := roundDiv (num * Nat.pow 2 (-e).toNat) (den * Nat.pow 2 e.toNat)
    if m = Nat.pow 2 53 then pack negative (Nat.pow 2 52) (e + 1) else pack negative m e

/-- The number nearest to `± m · 2 ^ e`. -/
def roundDyadic (negative : Bool) (m : Nat) (e : Int) : Binary64 :=
  round negative (m * Nat.pow 2 e.toNat) (Nat.pow 2 (-e).toNat)

def ofInt (n : Int) : Binary64 := round (decide (n < 0)) n.natAbs 1

def one : Binary64 := ofInt 1

def isFinite : Binary64 → Bool
  | .finite .. => true
  | _ => false

/-- The sign, which a zero and an infinity have too. -/
def isNegative : Binary64 → Bool
  | .nan => false
  | .infinite s => s
  | .finite s .. => s

protected def neg : Binary64 → Binary64
  | .nan => .nan
  | .infinite s => .infinite (!s)
  | .finite s m e h => .finite (!s) m e h

instance : Neg Binary64 := ⟨Binary64.neg⟩

/-- The signed integer `± m · 2 ^ k`. -/
def signed (negative : Bool) (m k : Nat) : Int :=
  if negative then -((m * Nat.pow 2 k : Nat) : Int) else ((m * Nat.pow 2 k : Nat) : Int)

/-- A sum that is exactly zero is negative only when both terms are. -/
protected def add : Binary64 → Binary64 → Binary64
  | .finite s m e _, .finite t n f _ =>
    let g := min e f
    let sum := signed s m (e - g).toNat + signed t n (f - g).toNat
    if sum = 0 then zero (s && t) else roundDyadic (decide (sum < 0)) sum.natAbs g
  | .infinite s, .infinite t => if s = t then .infinite s else .nan
  | .infinite s, .finite .. => .infinite s
  | .finite .., .infinite t => .infinite t
  | .nan, _ => .nan
  | _, .nan => .nan

instance : Add Binary64 := ⟨Binary64.add⟩

instance : Sub Binary64 := ⟨fun x y => x + -y⟩

protected def mul : Binary64 → Binary64 → Binary64
  | .finite s m e _, .finite t n f _ => roundDyadic (s ^^ t) (m * n) (e + f)
  | .infinite s, .infinite t => .infinite (s ^^ t)
  | .infinite s, .finite t n _ _ => if n = 0 then .nan else .infinite (s ^^ t)
  | .finite s m _ _, .infinite t => if m = 0 then .nan else .infinite (s ^^ t)
  | .nan, _ => .nan
  | _, .nan => .nan

instance : Mul Binary64 := ⟨Binary64.mul⟩

/-- A nonzero number divided by zero is an infinity, and zero by zero is not a number. -/
protected def div : Binary64 → Binary64 → Binary64
  | .finite s m e _, .finite t n f _ =>
    if n = 0 then (if m = 0 then .nan else .infinite (s ^^ t))
    else round (s ^^ t) (m * Nat.pow 2 (e - f).toNat) (n * Nat.pow 2 (f - e).toNat)
  | .infinite _, .infinite _ => .nan
  | .infinite s, .finite t _ _ _ => .infinite (s ^^ t)
  | .finite s _ _ _, .infinite t => zero (s ^^ t)
  | .nan, _ => .nan
  | _, .nan => .nan

instance : Div Binary64 := ⟨Binary64.div⟩

/-- The greatest integer that is not above the number. A zero keeps its sign. -/
def floor : Binary64 → Binary64
  | .finite s m e h =>
    if 0 ≤ e then .finite s m e h
    else
      let d := Nat.pow 2 (-e).toNat
      if s then round true ((m + d - 1) / d) 1 else round false (m / d) 1
  | x => x

/-- Numeric equality: the two zeros are equal, and what is not a number equals nothing. -/
def equal : Binary64 → Binary64 → Bool
  | .nan, _ => false
  | _, .nan => false
  | .infinite s, .infinite t => s = t
  | .finite s m e _, .finite t n f _ => (m = 0 && n = 0) || (s = t && m = n && e = f)
  | _, _ => false

/-- Whether the magnitude is at most `bound`. -/
def within (bound : Nat) : Binary64 → Bool
  | .finite _ m e _ => m * Nat.pow 2 e.toNat ≤ bound * Nat.pow 2 (-e).toNat
  | _ => false

/-- The integer that the number is, unless it has a fractional part or is not finite. -/
def toInt? : Binary64 → Option Int
  | .finite s m e _ =>
    let d := Nat.pow 2 (-e).toNat
    if m % d = 0 then some (signed s (m / d) e.toNat) else none
  | _ => none

end Binary64
end Trellis
