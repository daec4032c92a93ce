import Mathlib
import Trellis.Json.Token
import Trellis.Json.Write
import Trellis.Proofs.Number.Shortest
import Trellis.Proofs.Text.Scan

/-!
# Number literals

A literal is a run of digits, perhaps with a sign, perhaps a point and more digits, perhaps a power of ten. Each part of
the reader takes its part and stops, provided that what follows cannot go on with a number, so every literal is read as
the number it spells. A number is written as one of its literals: an integer as its digits, and a real number always
with a point or a power of ten, as a decimal of the same value as its shortest digits.
-/
namespace Trellis

open Json (whole? fraction power number?)

namespace Decimal

theorem ofDigits_eq (cs : List Char) : ofDigits cs = Nat.ofDigitChars 10 cs 0 := by
  rw [Nat.ofDigitChars_eq_foldl, ofDigits]

theorem ofDigits_toDigits (n : ℕ) : ofDigits (Nat.toDigits 10 n) = n := by
  rw [ofDigits_eq, Nat.ofDigitChars_ten_toDigits]

theorem ofDigits_zeros_append (n : ℕ) (cs : List Char) : ofDigits (List.replicate n '0' ++ cs) = ofDigits cs := by
  rw [ofDigits_eq, ofDigits_eq, Nat.ofDigitChars_append, Nat.ofDigitChars_replicate_zero, Nat.mul_zero]

theorem ofDigits_append_zeros (n : ℕ) (cs : List Char) :
    ofDigits (cs ++ List.replicate n '0') = 10 ^ n * ofDigits cs := by
  rw [ofDigits_eq, ofDigits_eq, Nat.ofDigitChars_append, Nat.ofDigitChars_replicate_zero]

end Decimal

/-- All characters are digits. -/
def AreDigits (cs : List Char) : Prop := ∀ c ∈ cs, c.isDigit = true

theorem areDigits_toDigits (n : ℕ) : AreDigits (Nat.toDigits 10 n) :=
  fun _ hc => Nat.isDigit_of_mem_toDigits (by norm_num) (by norm_num) hc

theorem areDigits_zeros (n : ℕ) : AreDigits (List.replicate n '0') := by
  intro c hc
  rw [List.eq_of_mem_replicate hc]
  rfl

theorem AreDigits.append {cs ds : List Char} (hc : AreDigits cs) (hd : AreDigits ds) : AreDigits (cs ++ ds) := by
  intro c h
  rcases List.mem_append.1 h with h | h
  · exact hc c h
  · exact hd c h

/-- The digits of a positive number do not start with a zero. -/
theorem exists_toDigits_eq_cons {n : ℕ} (hn : n ≠ 0) : ∃ c cs, Nat.toDigits 10 n = c :: cs ∧ c ≠ '0' := by
  induction n using Nat.strong_induction_on with
  | _ n ih =>
    by_cases hlt : n < 10
    · refine ⟨n.digitChar, [], Nat.toDigits_of_lt_base hlt, ?_⟩
      have hdigit : ∀ k < 10, k ≠ 0 → k.digitChar ≠ '0' := by decide
      exact hdigit n hlt hn
    · obtain ⟨c, cs, hcs, hc⟩ := ih (n / 10) (by omega) (by omega)
      refine ⟨c, cs ++ [(n % 10).digitChar], ?_, hc⟩
      rw [Nat.toDigits_of_base_le (by norm_num) (by omega), hcs, List.cons_append]

namespace Json

/-- The characters with which a number can go on. -/
def isNumeral (c : Char) : Bool := c.isDigit || c = '.' || c = 'e' || c = 'E'

/-- What follows cannot go on with a number. -/
abbrev Ends (rest : List Char) : Prop := Stops isNumeral rest

variable {rest : List Char}

theorem Ends.digit (h : Ends rest) : Stops Char.isDigit rest := by
  intro c hc
  have := h c hc
  simp only [isNumeral, Bool.or_eq_false_iff] at this
  exact this.1.1.1

/-- The digits before the point: a zero alone, or no zero first. -/
structure IsWhole (w : List Char) : Prop where
  digits : AreDigits w
  start : w = ['0'] ∨ ∃ c cs, w = c :: cs ∧ c ≠ '0'

theorem IsWhole.exists_eq_cons {w : List Char} (hw : IsWhole w) : ∃ c cs, w = c :: cs ∧ c.isDigit = true := by
  rcases hw.start with rfl | ⟨c, cs, rfl, -⟩
  · exact ⟨'0', [], rfl, rfl⟩
  · exact ⟨c, cs, rfl, hw.digits c (.head _)⟩

theorem isWhole_toDigits (n : ℕ) : IsWhole (Nat.toDigits 10 n) := by
  refine ⟨areDigits_toDigits n, ?_⟩
  by_cases hn : n = 0
  · exact .inl (by rw [hn, Nat.toDigits_zero])
  · exact .inr (exists_toDigits_eq_cons hn)

theorem whole?_eq {w : List Char} (hw : IsWhole w) (hrest : Stops Char.isDigit rest) :
    whole? (w ++ rest) = some (w, rest) := by
  rcases hw.start with rfl | ⟨c, cs, rfl, hc⟩
  · rfl
  · have hdigit : c.isDigit = true := hw.digits c (.head _)
    have hcs : ∀ d ∈ cs, d.isDigit = true := fun d hd => hw.digits d (.tail _ hd)
    rw [List.cons_append, whole?, if_pos hdigit, takeWhile_run hcs hrest, dropWhile_run hcs hrest]
    simpa using hc

/-- The digits after the point as written: no point without digits. -/
def pointText (f : List Char) : List Char := if f = [] then [] else '.' :: f

theorem fraction_pointText {f : List Char} (hf : AreDigits f) (hrest : Stops Char.isDigit rest)
    (hpoint : Stops (· = '.') rest) : fraction (pointText f ++ rest) = (f, rest) := by
  cases f with
  | nil =>
    cases rest with
    | nil => rfl
    | cons c rest =>
      have hc : c ≠ '.' := by simpa using hpoint
      rw [pointText, if_pos rfl, List.nil_append, fraction]
      simp [hc]
  | cons d f =>
    have hd : d.isDigit = true := hf d (.head _)
    have hds : ∀ c ∈ f, c.isDigit = true := fun c hc => hf c (.tail _ hc)
    rw [pointText, if_neg (by simp), List.cons_append, List.cons_append, fraction, if_pos hd, takeWhile_run hds hrest,
      dropWhile_run hds hrest]

/-- How a power of ten may be written: an `e` of either case, perhaps a sign, and digits. -/
inductive IsPower : Option ℤ → List Char → Prop
  | none : IsPower none []
  | unsigned {e : Char} {ds : List Char} (he : e = 'e' ∨ e = 'E') (hd : AreDigits ds) (hne : ds ≠ []) :
    IsPower (some (Decimal.ofDigits ds)) (e :: ds)
  | positive {e : Char} {ds : List Char} (he : e = 'e' ∨ e = 'E') (hd : AreDigits ds) (hne : ds ≠ []) :
    IsPower (some (Decimal.ofDigits ds)) (e :: '+' :: ds)
  | negative {e : Char} {ds : List Char} (he : e = 'e' ∨ e = 'E') (hd : AreDigits ds) (hne : ds ≠ []) :
    IsPower (some (-Decimal.ofDigits ds)) (e :: '-' :: ds)

theorem splitSign_digits {ds : List Char} (hd : AreDigits ds) (hne : ds ≠ []) (rest : List Char) :
    Binary64.splitSign (ds ++ rest) = (false, ds ++ rest) := by
  obtain ⟨d, ds, rfl⟩ := List.exists_cons_of_ne_nil hne
  have hdigit : d.isDigit = true := hd d (.head _)
  have hne : ∀ c : Char, c.isDigit = false → d ≠ c := by
    rintro c hc rfl
    rw [hdigit] at hc
    cases hc
  rw [List.cons_append, Binary64.splitSign]
  · intro cs h
    exact absurd (List.cons.inj h).1 (hne '-' rfl)
  · intro cs h
    exact absurd (List.cons.inj h).1 (hne '+' rfl)

theorem power_signed {e : Char} (he : e = 'e' ∨ e = 'E') {ds signed : List Char} (hd : AreDigits ds) (hne : ds ≠ [])
    {negative : Bool} (hsplit : Binary64.splitSign (signed ++ rest) = (negative, ds ++ rest)) (hrest : Ends rest) :
    power (e :: signed ++ rest) =
      (some (if negative then -(Decimal.ofDigits ds : ℤ) else Decimal.ofDigits ds), rest) := by
  rw [List.cons_append, power, hsplit]
  dsimp only
  rw [takeWhile_run hd hrest.digit, dropWhile_run hd hrest.digit, if_pos ⟨he, hne⟩]

theorem power_eq {p : Option ℤ} {cs : List Char} (hp : IsPower p cs) (hrest : Ends rest) :
    power (cs ++ rest) = (p, rest) := by
  cases hp with
  | none =>
    cases rest with
    | nil => rfl
    | cons c rest =>
      have hc : isNumeral c = false := by simpa using hrest
      simp only [isNumeral, Bool.or_eq_false_iff, decide_eq_false_iff_not] at hc
      rw [List.nil_append, power]
      simp [hc.1.2, hc.2]
  | unsigned he hd hne => exact power_signed he hd hne (splitSign_digits hd hne rest) hrest
  | @positive _ ds he hd hne => exact @power_signed _ _ he ds ('+' :: ds) hd hne _ rfl hrest
  | @negative _ ds he hd hne => exact @power_signed _ _ he ds ('-' :: ds) hd hne _ rfl hrest

theorem IsPower.ends {p : Option ℤ} {cs : List Char} (hp : IsPower p cs) (hrest : Ends rest) :
    Stops Char.isDigit (cs ++ rest) ∧ Stops (· = '.') (cs ++ rest) := by
  have hmark : ∀ {e : Char} {cs : List Char}, e = 'e' ∨ e = 'E' →
      Stops Char.isDigit (e :: cs ++ rest) ∧ Stops (· = '.') (e :: cs ++ rest) := by
    rintro e cs (rfl | rfl)
    · exact ⟨by simp, by simp⟩
    · exact ⟨by simp, by simp⟩
  cases hp with
  | none =>
    refine ⟨hrest.digit, ?_⟩
    intro c hc
    have := hrest c hc
    simp only [isNumeral, Bool.or_eq_false_iff] at this
    exact this.1.1.2
  | unsigned he => exact hmark he
  | positive he => exact hmark he
  | negative he => exact hmark he

/-- The parts of a literal are read one after the other. -/
theorem number?_parts (real : RealReader) (negative : Bool) {w f cs : List Char} (hw : IsWhole w) (hf : AreDigits f)
    {p : Option ℤ} (hp : IsPower p cs) (hrest : Ends rest) :
    number? real negative (w ++ pointText f ++ cs ++ rest) = some (.ofParts real negative w f p, rest) := by
  obtain ⟨hdigit, hpoint⟩ := hp.ends hrest
  have hafter : Stops Char.isDigit (pointText f ++ (cs ++ rest)) := by
    unfold pointText
    split
    · exact hdigit
    · simp
  rw [List.append_assoc, List.append_assoc, number?, whole?_eq hw hafter]
  simp only [Option.bind_eq_bind, Option.bind_some, fraction_pointText hf hdigit hpoint, power_eq hp hrest]
  rfl

/-! ### Literals -/

/-- The literals that a reader takes for a number. -/
inductive Number.Literal (real : RealReader) : Number → List Char → Prop
  | parts (negative : Bool) {w f cs : List Char} {p : Option ℤ} (hw : IsWhole w) (hf : AreDigits f)
    (hp : IsPower p cs) :
    Literal real (.ofParts real negative w f p) ((if negative then ['-'] else []) ++ (w ++ pointText f ++ cs))

theorem literal_integer (real : RealReader) (n : ℤ) : Number.Literal real (.integer n) (Number.integer n).write := by
  have hparts : Number.ofParts real (decide (n < 0)) (Nat.toDigits 10 n.natAbs) [] none = .integer n := by
    rw [Number.ofParts, Decimal.ofDigits_toDigits]
    by_cases hn : n < 0
    · have hne : n ≠ 0 := by omega
      simp [hn, hne, abs_of_neg hn]
    · simp [hn, abs_of_nonneg (not_lt.1 hn)]
  have hliteral : Number.Literal real _ _ :=
    .parts (decide (n < 0)) (isWhole_toDigits n.natAbs) (f := []) nofun .none
  rw [hparts] at hliteral
  simpa [Number.write, pointText] using hliteral

/-- A decimal with something after the point or a power of ten stands for the number nearest to it. -/
theorem ofParts_real (negative : Bool) {w f : List Char} {p : Option ℤ} (hreal : f ≠ [] ∨ p ≠ none) {d : Decimal}
    (hd : (Decimal.ofPoint w f (p.getD 0)).value = d.value) :
    Number.ofParts .nearest negative w f p = .real (Binary64.ofDecimal negative d) := by
  rw [Number.ofParts, if_neg (by tauto), RealReader.nearest, Binary64.ofDecimal_congr _ hd]

end Json

namespace Decimal

open Json (IsWhole IsPower pointText)

/-- How a decimal is written: the digits before and after the point and the power of ten. -/
structure Spelt (d : Decimal) (w f : List Char) (p : Option ℤ) : Prop where
  whole : IsWhole w
  fraction : AreDigits f
  real : f ≠ [] ∨ p ≠ none
  value : (ofPoint w f (p.getD 0)).value = d.value

/-- Whole numbers get a zero after the point. -/
theorem spelt_whole {d : Decimal} (he : 0 ≤ d.exponent) (hz : d.digits = 0 → d.exponent = 0) :
    Spelt d d.positional ['0'] none := by
  obtain ⟨n, hn⟩ := Int.eq_ofNat_of_zero_le he
  have hpositional : d.positional = Nat.toDigits 10 d.digits ++ List.replicate n '0' := by
    rw [positional, if_pos he, digitText, hn, Int.toNat_natCast]
  refine ⟨⟨?_, ?_⟩, areDigits_zeros 1, .inl (by simp), ?_⟩
  · rw [hpositional]
    exact (areDigits_toDigits _).append (areDigits_zeros n)
  · rw [hpositional]
    by_cases hd : d.digits = 0
    · obtain rfl : n = 0 := by simpa [hn] using hz hd
      exact .inl (by rw [hd, Nat.toDigits_zero]; rfl)
    · obtain ⟨c, cs, hcs, hc⟩ := exists_toDigits_eq_cons hd
      exact .inr ⟨c, cs ++ List.replicate n '0', by rw [hcs, List.cons_append], hc⟩
  · have hdigits : ofDigits (d.positional ++ ['0']) = 10 ^ (n + 1) * d.digits := by
      rw [hpositional, List.append_assoc, show List.replicate n '0' ++ ['0'] = List.replicate (n + 1) '0' from
        (List.replicate_succ' ..).symm, ofDigits_append_zeros, ofDigits_toDigits]
    rw [ofPoint, Decimal.value, Decimal.value, hdigits, hn, zpow_natCast]
    simp only [Option.getD_none, List.length_singleton, Nat.cast_one, zero_sub, Nat.cast_mul, Nat.cast_pow,
      Nat.cast_ofNat, zpow_neg, zpow_one]
    field_simp
    ring

/-- Places after the point are filled up with zeros in front. -/
theorem spelt_places {d : Decimal} (he : d.exponent < 0) (hz : d.digits ≠ 0) :
    ∃ w f, d.positional = w ++ pointText f ∧ Spelt d w f none := by
  obtain ⟨places, hp⟩ : ∃ n : ℕ, d.exponent = -(n : ℤ) := ⟨(-d.exponent).toNat, by omega⟩
  obtain ⟨c, cs, hcs, hc⟩ := exists_toDigits_eq_cons hz
  have hpos : 0 < places := by omega
  set ds := Nat.toDigits 10 d.digits with hds
  set padded := List.replicate (places + 1 - ds.length) '0' ++ ds with hpadded
  have hlength : padded.length = places + 1 - ds.length + ds.length := by simp [hpadded]
  have hdigits : AreDigits padded := (areDigits_zeros _).append (areDigits_toDigits _)
  have hfraction : (padded.drop (padded.length - places)).length = places := by
    rw [List.length_drop]
    omega
  have hne : padded.drop (padded.length - places) ≠ [] := by
    intro h
    rw [h] at hfraction
    exact hpos.ne hfraction
  refine ⟨padded.take (padded.length - places), padded.drop (padded.length - places), ?_, ⟨?_, ?_⟩, ?_, .inl hne, ?_⟩
  · have hplaces : (-d.exponent).toNat = places := by omega
    rw [positional, if_neg (by omega), pointText, if_neg hne]
    simp only [digitText, hplaces]
    rfl
  · exact fun c h => hdigits c (List.mem_of_mem_take h)
  · by_cases hlong : places < ds.length
    · -- enough digits: none is put in front, and the first one is not a zero
      right
      have hnone : places + 1 - ds.length = 0 := by omega
      obtain ⟨k, hk⟩ : ∃ k, padded.length - places = k + 1 := ⟨padded.length - places - 1, by omega⟩
      refine ⟨c, cs.take k, ?_, hc⟩
      rw [hk, hpadded, hnone, List.replicate_zero, List.nil_append, hcs, List.take_succ_cons]
    · left
      obtain ⟨k, hk⟩ : ∃ k, places + 1 - ds.length = k + 1 := ⟨places - ds.length, by omega⟩
      have hone : padded.length - places = 1 := by omega
      rw [hone, hpadded, hk, List.replicate_succ, List.cons_append, List.take_succ_cons, List.take_zero]
  · exact fun c h => hdigits c (List.mem_of_mem_drop h)
  · rw [ofPoint, List.take_append_drop, hfraction, hpadded, ofDigits_zeros_append, hds, ofDigits_toDigits,
      Decimal.value, Decimal.value, hp]
    simp

/-- A power of ten is written with its sign. -/
theorem isPower_signed (n : ℤ) :
    IsPower (some n) ('e' :: (if n < 0 then '-' else '+') :: Nat.toDigits 10 n.natAbs) := by
  have hdigits : (ofDigits (Nat.toDigits 10 n.natAbs) : ℤ) = n.natAbs := by rw [ofDigits_toDigits]
  by_cases hn : n < 0
  · have hpower := IsPower.negative (.inl rfl) (areDigits_toDigits n.natAbs) Nat.toDigits_ne_nil
    rw [if_pos hn]
    rwa [hdigits, show -(n.natAbs : ℤ) = n by omega] at hpower
  · have hpower := IsPower.positive (.inl rfl) (areDigits_toDigits n.natAbs) Nat.toDigits_ne_nil
    rw [if_neg hn]
    rwa [hdigits, show (n.natAbs : ℤ) = n by omega] at hpower

/-- One digit stands before the point. -/
theorem spelt_scientific (d : Decimal) :
    ∃ w f p cs, d.scientific = w ++ pointText f ++ cs ∧ IsPower (some p) cs ∧ Spelt d w f (some p) := by
  obtain ⟨c, cs, hcs⟩ := List.exists_cons_of_ne_nil (@Nat.toDigits_ne_nil d.digits 10)
  have hdigits : AreDigits (c :: cs) := hcs ▸ areDigits_toDigits _
  refine ⟨[c], cs, d.leadingPower, _, ?_, isPower_signed _, ⟨?_, ?_⟩, ?_, .inr (by simp), ?_⟩
  · rw [scientific, digitText, hcs]
    cases cs with
    | nil => rfl
    | cons d cs => simp [pointText]
  · exact fun d h => hdigits d (by rw [List.mem_singleton.1 h]; exact .head _)
  · by_cases hc : c = '0'
    · exact .inl (by rw [hc])
    · exact .inr ⟨c, [], rfl, hc⟩
  · exact fun d h => hdigits d (.tail _ h)
  · have hpower : d.leadingPower - cs.length = d.exponent := by
      rw [leadingPower, digitText, hcs, List.length_cons]
      push_cast
      ring
    rw [ofPoint, List.singleton_append, ← hcs, ofDigits_toDigits, Option.getD_some, hpower]

/-- A literal is spelt in one of these ways. -/
theorem exists_spelt (d : Decimal) (hz : d.digits = 0 → d.exponent = 0) :
    ∃ w f p cs, d.literal = w ++ pointText f ++ cs ∧ IsPower p cs ∧ Spelt d w f p := by
  unfold literal
  split_ifs with hrange he
  · exact ⟨_, ['0'], none, [], by simp [pointText], .none, spelt_whole he hz⟩
  · obtain ⟨w, f, hw, hs⟩ := spelt_places (not_le.1 he) fun h => he (hz h).ge
    exact ⟨w, f, none, [], by rw [hw, List.append_nil], .none, hs⟩
  · obtain ⟨w, f, p, cs, hw, hp, hs⟩ := spelt_scientific d
    exact ⟨w, f, some p, cs, hw, hp, hs⟩

end Decimal

namespace Json

/-- The reader takes the literal with which a finite number is written for that number. -/
def RealReader.Faithful (real : RealReader) : Prop :=
  ∀ x : Binary64, x.isFinite = true → Number.Literal real (.real x) x.toLiteral

theorem faithful_nearest : RealReader.nearest.Faithful := by
  intro x hx
  cases x with
  | nan => cases hx
  | infinite => cases hx
  | finite s m e h =>
    obtain ⟨w, f, p, cs, hw, hp, hs⟩ := Decimal.exists_spelt ((Binary64.finite s m e h).shortest .toEven)
      fun hd => congrArg Decimal.exponent (Binary64.shortest_of_digits_eq_zero hd)
    have hliteral : Number.Literal .nearest _ _ := .parts s hs.whole hs.fraction hp
    rw [ofParts_real s hs.real hs.value, Binary64.ofDecimal_shortest, ← hw] at hliteral
    rw [Binary64.toLiteral]
    cases s with
    | true => exact hliteral
    | false => exact hliteral

/-- A finite number is written as one of its literals. -/
theorem literal_write {real : RealReader} (hr : real.Faithful) {n : Number} (hn : n.toBinary64.isFinite = true) :
    n.Literal real n.write := by
  cases n with
  | integer n => exact literal_integer real n
  | real x => exact hr x hn

end Json
end Trellis
