import Trellis.Json.Basic

/-!
# JSON tokens

Strict JSON text as a list of tokens. A number, string or word runs as far as its own grammar goes;
whether tokens may follow one another is for the reader of the token list to decide.
-/
namespace Trellis.Json

inductive Token where
  | objectOpen
  | objectClose
  | arrayOpen
  | arrayClose
  | comma
  | colon
  | null
  | bool (b : Bool)
  | number (n : Number)
  | string (text : Text)
deriving DecidableEq, Repr

def isBlank (c : Char) : Bool := c = ' ' || c = '\t' || c = '\n' || c = '\r'

/-! ### Strings -/

/-- A piece of a string: a character, or an escape that names half of a surrogate pair. -/
inductive Piece where
  | char (c : Char)
  | high (unit : Nat)
  | low (unit : Nat)
deriving DecidableEq, Repr

/-- The piece that an escape of four hexadecimal digits names. -/
def Piece.ofUnit (n : Nat) : Piece :=
  if 0xD800 ≤ n ∧ n < 0xDC00 then .high n
  else if 0xDC00 ≤ n ∧ n < 0xE000 then .low n
  else .char (Char.ofNat n)

def hexDigit? (c : Char) : Option Nat :=
  if c.isDigit then some (c.toNat - '0'.toNat)
  else if 'a' ≤ c ∧ c ≤ 'f' then some (c.toNat - 'a'.toNat + 10)
  else if 'A' ≤ c ∧ c ≤ 'F' then some (c.toNat - 'A'.toNat + 10)
  else none

def unit? (a b c d : Char) : Option Nat := do
  let a ← hexDigit? a
  let b ← hexDigit? b
  let c ← hexDigit? c
  let d ← hexDigit? d
  return ((a * 16 + b) * 16 + c) * 16 + d

/-- The character that a one-letter escape names. -/
def simpleEscape? (c : Char) : Option Char :=
  if c = '\x22' ∨ c = '\x5c' ∨ c = '/' then some c
  else if c = 'b' then some '\x08'
  else if c = 'f' then some '\x0c'
  else if c = 'n' then some '\n'
  else if c = 'r' then some '\r'
  else if c = 't' then some '\t'
  else none

/-- The pieces of a string up to its closing quote, and what follows that. -/
def pieces? : List Char → Option (List Piece × List Char)
  | [] => none
  | '\x22' :: cs => some ([], cs)
  | '\x5c' :: 'u' :: a :: b :: c :: d :: cs =>
    match unit? a b c d with
    | some unit => (pieces? cs).map fun p => (.ofUnit unit :: p.1, p.2)
    | none => none
  | '\x5c' :: c :: cs =>
    match simpleEscape? c with
    | some named => (pieces? cs).map fun p => (.char named :: p.1, p.2)
    | none => none
  | c :: cs =>
    if c.toNat < 0x20 ∨ c = '\x5c' then none
    else (pieces? cs).map fun p => (.char c :: p.1, p.2)

/-- The text of the pieces, if every half of a surrogate pair has its partner. -/
def text? : List Piece → Option (List Char)
  | [] => some []
  | .char c :: ps => (c :: ·) <$> text? ps
  | .high h :: .low l :: ps =>
    (Char.ofNat (0x10000 + (h - 0xD800) * 0x400 + (l - 0xDC00)) :: ·) <$> text? ps
  | _ => none

/-! ### Numbers -/

/-- The digits of an integer literal, which has no leading zero. -/
def whole? : List Char → Option (List Char × List Char)
  | '0' :: cs => some (['0'], cs)
  | c :: cs => if c.isDigit then some (c :: cs.takeWhile Char.isDigit, cs.dropWhile Char.isDigit) else none
  | [] => none

/-- The digits after a point; none if no digit follows it. -/
def fraction : List Char → List Char × List Char
  | '.' :: c :: cs =>
    if c.isDigit then (c :: cs.takeWhile Char.isDigit, cs.dropWhile Char.isDigit) else ([], '.' :: c :: cs)
  | cs => ([], cs)

/-- The power of ten after an `e`, if digits follow it. -/
def power : List Char → Option Int × List Char
  | e :: cs =>
    let (negative, ds) := Binary64.splitSign cs
    let digits := ds.takeWhile Char.isDigit
    if (e = 'e' ∨ e = 'E') ∧ digits ≠ [] then
      let n : Int := Decimal.ofDigits digits
      (some (if negative then -n else n), ds.dropWhile Char.isDigit)
    else (none, e :: cs)
  | [] => (none, [])

/-- How a literal is read that is no integer: from its sign, its digits before and after the point and its power of
ten. -/
abbrev RealReader := Bool → List Char → List Char → Option Int → Binary64

/-- The reader that rounds to the nearest number. -/
def RealReader.nearest : RealReader := fun negative whole fraction power =>
  .ofDecimal negative (.ofPoint whole fraction (power.getD 0))

/-- The number that the parts of a literal spell. A negative zero is not an integer. -/
def Number.ofParts (real : RealReader) (negative : Bool) (whole fraction : List Char) (power : Option Int) : Number :=
  let n := Decimal.ofDigits whole
  if fraction = [] ∧ power = none ∧ ¬ (negative ∧ n = 0) then .integer (if negative then -n else n)
  else .real (real negative whole fraction power)

def number? (real : RealReader) (negative : Bool) (cs : List Char) : Option (Number × List Char) := do
  let (w, afterWhole) ← whole? cs
  let f := fraction afterWhole
  let p := power f.2
  return (.ofParts real negative w f.1 p.1, p.2)

/-! ### Tokens -/

def punctuation? (c : Char) : Option Token :=
  if c = '\x7b' then some .objectOpen
  else if c = '\x7d' then some .objectClose
  else if c = '[' then some .arrayOpen
  else if c = ']' then some .arrayClose
  else if c = ',' then some .comma
  else if c = ':' then some .colon
  else none

def word? : List Char → Option (Token × List Char)
  | 'n' :: 'u' :: 'l' :: 'l' :: rest => some (.null, rest)
  | 't' :: 'r' :: 'u' :: 'e' :: rest => some (.bool true, rest)
  | 'f' :: 'a' :: 'l' :: 's' :: 'e' :: rest => some (.bool false, rest)
  | _ => none

def stringToken? (cs : List Char) : Option (Token × List Char) :=
  (pieces? cs).map fun p => (.string ((text? p.1).map String.ofList), p.2)

/-- The token that begins with the character `c`, and what follows it. -/
def next? (real : RealReader) (c : Char) (cs : List Char) : Option (Token × List Char) :=
  match punctuation? c with
  | some t => some (t, cs)
  | none =>
    if c = '\x22' then stringToken? cs
    else if c = '-' then (number? real true cs).map fun p => (.number p.1, p.2)
    else if c.isDigit then (number? real false (c :: cs)).map fun p => (.number p.1, p.2)
    else word? (c :: cs)

theorem length_pieces?_le {cs : List Char} {ps : List Piece} {rest : List Char}
    (h : pieces? cs = some (ps, rest)) : rest.length ≤ cs.length := by
  fun_induction pieces? cs generalizing ps with
  | case1 | case4 | case6 | case7 => simp at h
  | case2 cs => simp_all
  | case3 _ _ _ _ _ _ _ ih | case5 _ _ _ _ _ ih | case8 _ _ _ _ _ _ ih =>
    obtain ⟨⟨qs, left⟩, hp, heq⟩ := Option.map_eq_some_iff.1 h
    obtain ⟨-, rfl⟩ := Prod.mk.inj heq
    have := ih hp
    simp only [List.length_cons] at *
    omega

theorem length_whole?_lt {cs w rest : List Char} (h : whole? cs = some (w, rest)) :
    rest.length < cs.length := by
  have hd (cs : List Char) := (List.dropWhile_suffix Char.isDigit (l := cs)).length_le
  unfold whole? at h
  grind

theorem length_fraction_le (cs : List Char) : (fraction cs).2.length ≤ cs.length := by
  have hd (cs : List Char) := (List.dropWhile_suffix Char.isDigit (l := cs)).length_le
  unfold fraction
  grind

theorem length_splitSign_le (cs : List Char) : (Binary64.splitSign cs).2.length ≤ cs.length := by
  unfold Binary64.splitSign
  grind

theorem length_power_le (cs : List Char) : (power cs).2.length ≤ cs.length := by
  have hd (cs : List Char) := (List.dropWhile_suffix Char.isDigit (l := cs)).length_le
  have hs := length_splitSign_le
  unfold power
  grind

theorem length_number?_lt {real : RealReader} {negative : Bool} {cs rest : List Char} {n : Number}
    (h : number? real negative cs = some (n, rest)) : rest.length < cs.length := by
  simp only [number?, Option.bind_eq_bind, Option.bind_eq_some_iff] at h
  obtain ⟨⟨w, afterWhole⟩, hw, h⟩ := h
  have h₁ := length_whole?_lt hw
  have h₂ := length_fraction_le afterWhole
  have h₃ := length_power_le (fraction afterWhole).2
  simp at h
  grind

theorem length_word?_lt {cs rest : List Char} {t : Token} (h : word? cs = some (t, rest)) :
    rest.length < cs.length := by
  unfold word? at h
  grind

theorem length_next?_le {real : RealReader} {c : Char} {cs rest : List Char} {t : Token}
    (h : next? real c cs = some (t, rest)) : rest.length ≤ cs.length := by
  unfold next? stringToken? at h
  split at h
  · simp_all
  · split at h
    · obtain ⟨p, hp, h⟩ := Option.map_eq_some_iff.1 h
      have := length_pieces?_le hp
      simp_all
    · split at h
      · obtain ⟨p, hp, h⟩ := Option.map_eq_some_iff.1 h
        have hlt := length_number?_lt hp
        rw [← (Prod.mk.inj h).2]
        exact Nat.le_of_lt hlt
      · split at h
        · obtain ⟨p, hp, h⟩ := Option.map_eq_some_iff.1 h
          have hlt := length_number?_lt hp
          rw [← (Prod.mk.inj h).2]
          exact Nat.le_of_lt_succ hlt
        · exact Nat.le_of_lt_succ (length_word?_lt h)

/-- All tokens of a text; none if some part of it is no token. -/
def tokens? (real : RealReader) (cs : List Char) : Option (List Token) :=
  match _h : cs.dropWhile isBlank with
  | [] => some []
  | c :: rest =>
    match _h' : next? real c rest with
    | none => none
    | some (t, left) => (tokens? real left).map (t :: ·)
termination_by cs.length
decreasing_by
  have h₁ := length_next?_le _h'
  have h₂ : (cs.dropWhile isBlank).length ≤ cs.length := (List.dropWhile_suffix _).length_le
  simp_all
  omega

end Trellis.Json
