import Trellis.Proofs.Number.Rounding

/-!
# Operations give the nearest number

A finite number is a rational number. What an operation makes of two of them is their exact rational result, rounded
once: no number is nearer to it, and of two that are equally near it is the one with the even significand. From this
alone it follows that an integer of at most 53 bits is given exactly and that nothing beyond `2 ^ 53` comes back below
it. A quotient of two such integers needs a closer look. It may be rounded, but never onto an integer or across one:
its distance from the integers is too large for that at the precision that the divisor leaves.
-/
namespace Trellis.Binary64

/-- The rational number that a finite number is. -/
def toRat? : Binary64 → Option ℚ
  | .finite s m e _ => some ((if s then -1 else 1) * (m * 2 ^ e))
  | _ => none

theorem abs_sign_mul (s : Bool) {q : ℚ} (hq : 0 ≤ q) : |(if s then -1 else 1) * q| = q := by
  cases s <;> simp [abs_of_nonneg hq]

theorem sign_mul_sign_mul (s : Bool) (q : ℚ) : (if s then -1 else 1) * ((if s then -1 else 1) * q) = q := by
  cases s <;> simp

theorem abs_sub_sign_mul (s : Bool) (p q : ℚ) : |p - (if s then -1 else 1) * q| = |(if s then -1 else 1) * p - q| := by
  cases s with
  | false => simp
  | true =>
    rw [← abs_neg]
    simp only [reduceIte]
    congr 1
    ring

theorem scaled_le_iff (m n : ℕ) (e : ℤ) :
    m * Nat.pow 2 e.toNat ≤ n * Nat.pow 2 (-e).toNat ↔ (m : ℚ) * 2 ^ e ≤ n := by
  have hpos : (0 : ℚ) < 2 ^ (-e).toNat := by positivity
  rw [← pow_toNat_div, ← mul_div_assoc, div_le_iff₀ hpos]
  simp only [Nat.pow_eq]
  exact_mod_cast Iff.rfl

theorem within_iff {x : Binary64} {n : ℕ} : x.within n = true ↔ ∃ q, x.toRat? = some q ∧ |q| ≤ n := by
  cases x with
  | nan => simp [within, toRat?]
  | infinite s => simp [within, toRat?]
  | finite s m e h =>
    have habs := abs_sign_mul s (by positivity : (0 : ℚ) ≤ m * 2 ^ e)
    simp only [within, toRat?, decide_eq_true_eq, scaled_le_iff, Option.some.injEq, exists_eq_left', habs]

/-! ### What operations round -/

/-- A number that a value is rounded to. Which sign a zero has is left open. -/
def RoundsTo (q : ℚ) (x : Binary64) : Prop :=
  ∃ (s : Bool) (num den : ℕ), den ≠ 0 ∧ q = (if s then -1 else 1) * (num / den) ∧ x = round s num den

theorem roundsTo_ofInt (n : ℤ) : RoundsTo n (ofInt n) := by
  refine ⟨decide (n < 0), n.natAbs, 1, one_ne_zero, ?_, rfl⟩
  rw [Nat.cast_natAbs, Nat.cast_one, div_one, Int.cast_abs]
  by_cases hn : n < 0
  · have hq : (n : ℚ) < 0 := by exact_mod_cast hn
    simp [hn, abs_of_neg hq]
  · have hq : (0 : ℚ) ≤ n := by exact_mod_cast not_lt.1 hn
    simp [hn, abs_of_nonneg hq]

theorem roundsTo_roundDyadic (s : Bool) (m : ℕ) (e : ℤ) :
    RoundsTo ((if s then -1 else 1) * (m * 2 ^ e)) (roundDyadic s m e) := by
  refine ⟨s, m * 2 ^ e.toNat, 2 ^ (-e).toNat, by positivity, ?_, rfl⟩
  rw [dyadic_ratio]

theorem roundsTo_zero (s : Bool) : RoundsTo 0 (zero s) :=
  ⟨s, 0, 1, one_ne_zero, by simp, by simp [round]⟩

theorem signed_mul (s : Bool) (m : ℕ) {g e : ℤ} (h : g ≤ e) :
    (signed s m (e - g).toNat : ℚ) * 2 ^ g = (if s then -1 else 1) * (m * 2 ^ e) := by
  have hpow : (2 : ℚ) ^ (e - g).toNat * 2 ^ g = 2 ^ e := by
    rw [← zpow_natCast, Int.toNat_of_nonneg (by omega), ← zpow_add₀ two_ne_zero, sub_add_cancel]
  cases s <;> simp [signed, mul_assoc, hpow]

section

variable {x y : Binary64} {p q : ℚ}

theorem exists_of_toRat? (hx : x.toRat? = some p) :
    ∃ s m e h, x = .finite s m e h ∧ p = (if s then -1 else 1) * (m * 2 ^ e) := by
  cases x with
  | nan => cases hx
  | infinite s => cases hx
  | finite s m e h => exact ⟨s, m, e, h, rfl, (Option.some.inj hx).symm⟩

theorem roundsTo_add (hx : x.toRat? = some p) (hy : y.toRat? = some q) : RoundsTo (p + q) (x + y) := by
  obtain ⟨s, m, e, hm, rfl, hp⟩ := exists_of_toRat? hx
  obtain ⟨t, n, f, hn, rfl, hq⟩ := exists_of_toRat? hy
  generalize hsum : signed s m (e - min e f).toNat + signed t n (f - min e f).toNat = sum
  have hvalue : p + q = sum * 2 ^ min e f := by
    rw [hp, hq, ← signed_mul s m (min_le_left e f), ← signed_mul t n (min_le_right e f), ← hsum]
    push_cast
    ring
  have hadd : finite s m e hm + finite t n f hn =
      if sum = 0 then zero (s && t) else roundDyadic (decide (sum < 0)) sum.natAbs (min e f) := by
    rw [← hsum]
    rfl
  rw [hvalue, hadd]
  split
  case isTrue hzero =>
    rw [hzero, Int.cast_zero, zero_mul]
    exact roundsTo_zero _
  case isFalse =>
    have hdyadic := roundsTo_roundDyadic (decide (sum < 0)) sum.natAbs (min e f)
    rcases lt_or_ge sum 0 with hneg | hpos
    · simpa [hneg, abs_of_neg hneg, Nat.cast_natAbs] using hdyadic
    · simpa [not_lt.2 hpos, abs_of_nonneg hpos, Nat.cast_natAbs] using hdyadic

theorem toRat?_neg (hx : x.toRat? = some p) : (-x).toRat? = some (-p) := by
  obtain ⟨s, m, e, hm, rfl, rfl⟩ := exists_of_toRat? hx
  have hneg : -finite s m e hm = finite (!s) m e hm := rfl
  rw [hneg, toRat?]
  cases s <;> simp

theorem roundsTo_sub (hx : x.toRat? = some p) (hy : y.toRat? = some q) : RoundsTo (p - q) (x - y) := by
  have hsub : x - y = x + -y := rfl
  rw [hsub, sub_eq_add_neg]
  exact roundsTo_add hx (toRat?_neg hy)

theorem sign_xor (s t : Bool) :
    (if s ^^ t then -1 else 1 : ℚ) = (if s then -1 else 1) * (if t then -1 else 1) := by
  cases s <;> cases t <;> simp

theorem roundsTo_mul (hx : x.toRat? = some p) (hy : y.toRat? = some q) : RoundsTo (p * q) (x * y) := by
  obtain ⟨s, m, e, hm, rfl, rfl⟩ := exists_of_toRat? hx
  obtain ⟨t, n, f, hn, rfl, rfl⟩ := exists_of_toRat? hy
  have hmul : finite s m e hm * finite t n f hn = roundDyadic (s ^^ t) (m * n) (e + f) := rfl
  have hdyadic := roundsTo_roundDyadic (s ^^ t) (m * n) (e + f)
  rw [sign_xor, zpow_add₀ two_ne_zero, Nat.cast_mul] at hdyadic
  rw [hmul]
  convert hdyadic using 1
  ring

theorem roundsTo_div (hx : x.toRat? = some p) (hy : y.toRat? = some q) (hq : q ≠ 0) : RoundsTo (p / q) (x / y) := by
  obtain ⟨s, m, e, hm, rfl, rfl⟩ := exists_of_toRat? hx
  obtain ⟨t, n, f, hn, rfl, rfl⟩ := exists_of_toRat? hy
  have hn0 : n ≠ 0 := by
    rintro rfl
    simp at hq
  have hdiv : finite s m e hm / finite t n f hn =
      round (s ^^ t) (m * 2 ^ (e - f).toNat) (n * 2 ^ (f - e).toNat) := if_neg hn0
  refine ⟨s ^^ t, _, _, by positivity, ?_, hdiv⟩
  have hmagnitude : (m : ℚ) * 2 ^ (e - f).toNat / (n * 2 ^ (f - e).toNat) = m * 2 ^ e / (n * 2 ^ f) := by
    rw [mul_div_mul_comm, ← neg_sub e f, pow_toNat_div, zpow_sub₀ two_ne_zero, ← mul_div_mul_comm]
  push_cast
  rw [hmagnitude]
  cases s <;> cases t <;> simp [neg_div, div_neg]

end

/-! ### Nearest integers -/

namespace IsNearest

variable {q : ℚ} {k : ℕ} {z : ℤ}

theorem eq_of_int (h : IsNearest z k) : (k : ℤ) = z := by
  have hlt : |((k - z : ℤ) : ℚ)| < 1 := by
    push_cast
    exact lt_of_le_of_lt h.within (by norm_num)
  rw [← Int.cast_abs, ← Int.cast_one, Int.cast_lt, Int.abs_lt_one_iff] at hlt
  omega

/-- No integer is nearer, and where another is as near, the nearest integer is even. -/
theorem abs_le_int (h : IsNearest q k) (z : ℤ) :
    |(k : ℚ) - q| ≤ |(z : ℚ) - q| ∧ (|(k : ℚ) - q| = |(z : ℚ) - q| → (z : ℚ) = k ∨ k % 2 = 0) := by
  by_cases hz : z = k
  · subst hz
    exact ⟨by simp, fun _ => .inl (by simp)⟩
  · have hone : 1 ≤ |((z - k : ℤ) : ℚ)| := by exact_mod_cast Int.one_le_abs (sub_ne_zero.2 hz)
    have htriangle : |((z - k : ℤ) : ℚ)| ≤ |(z : ℚ) - q| + |(k : ℚ) - q| := by
      push_cast
      rw [abs_sub_comm (k : ℚ) q]
      exact abs_sub_le (z : ℚ) q k
    have hwithin := h.within
    refine ⟨by linarith, fun heq => .inr (h.even ?_)⟩
    linarith

/-- A value that is farther than a half from an integer stays on its side. -/
theorem lt_iff (h : IsNearest q k) (hz : q = z ∨ 1 / 2 < |q - z|) :
    ((k : ℚ) < z ↔ q < z) ∧ ((z : ℚ) < k ↔ (z : ℚ) < q) := by
  rcases hz with rfl | hfar
  · have hk : ((k : ℤ) : ℚ) = z := by rw [h.eq_of_int]
    rw [Int.cast_natCast] at hk
    rw [hk]
    exact ⟨Iff.rfl, Iff.rfl⟩
  · have hwithin := abs_le.1 h.within
    rcases lt_abs.1 hfar with hright | hleft
    · constructor <;> constructor <;> intro <;> linarith
    · constructor <;> constructor <;> intro <;> linarith

end IsNearest

/-! ### The nearest number -/

theorem abs_scaled_sub (a q : ℚ) (e : ℤ) : |a * 2 ^ e - q| = |a - q / 2 ^ e| * 2 ^ e := by
  have hpos : (0 : ℚ) < 2 ^ e := by positivity
  rw [← abs_of_pos hpos, ← abs_mul, abs_of_pos hpos, sub_mul, div_mul_cancel₀ _ hpos.ne']

/-- The nearest integer in units of its exponent is at least as near to a value as any number. -/
theorem IsNearest.abs_le_number {q : ℚ} {x : ℤ} {k : ℕ} (hx : IsExponent q x) (hk : IsNearest (q / 2 ^ x) k) {n : ℕ}
    {f : ℤ} (hc : Canonical n f) (t : Bool) :
    |(k : ℚ) * 2 ^ x - q| ≤ |(if t then -1 else 1) * (n * 2 ^ f) - q| ∧
      (|(k : ℚ) * 2 ^ x - q| = |(if t then -1 else 1) * (n * 2 ^ f) - q| →
        (if t then -1 else 1) * (n * 2 ^ f) = (k : ℚ) * 2 ^ x ∨ k % 2 = 0) := by
  have hpos : (0 : ℚ) < 2 ^ x := by positivity
  rcases le_or_gt x f with hle | hlt
  · -- A number of at least this exponent is a whole number of units.
    have hwhole : (if t then -1 else 1) * ((n : ℚ) * 2 ^ f) =
        (((if t then -1 else 1) * (n * 2 ^ (f - x).toNat) : ℤ) : ℚ) * 2 ^ x := by
      have hpow : (2 : ℚ) ^ f = 2 ^ (f - x).toNat * 2 ^ x := by
        rw [← zpow_natCast, Int.toNat_of_nonneg (by omega), ← zpow_add₀ two_ne_zero, sub_add_cancel]
      rw [hpow]
      cases t <;> simp [mul_assoc]
    obtain ⟨hint, htie⟩ := hk.abs_le_int ((if t then -1 else 1) * (n * 2 ^ (f - x).toNat))
    rw [hwhole, abs_scaled_sub, abs_scaled_sub, mul_left_inj' hpos.ne', mul_left_inj' hpos.ne']
    exact ⟨by gcongr, htie⟩
  · -- A number of a smaller exponent lies below the least number of this one, and that is not above the value.
    have hlow : (2 : ℚ) ^ 52 * 2 ^ x ≤ q := by
      rw [mul_comm, ← zpow_natCast, ← zpow_add₀ two_ne_zero]
      refine hx.tight.resolve_left fun hmin => ?_
      have := hc.2.1
      omega
    have hn : (if t then -1 else 1) * ((n : ℚ) * 2 ^ f) < 2 ^ 52 * 2 ^ x :=
      calc (if t then -1 else 1) * ((n : ℚ) * 2 ^ f) ≤ |(if t then -1 else 1) * ((n : ℚ) * 2 ^ f)| := le_abs_self _
        _ = n * 2 ^ f := abs_sign_mul t (by positivity)
        _ < 2 ^ 53 * 2 ^ f := by
          gcongr
          exact_mod_cast hc.1
        _ ≤ 2 ^ 53 * 2 ^ (x - 1) := by
          gcongr
          · norm_num
          · omega
        _ = 2 ^ 52 * 2 ^ x := by
          rw [zpow_sub_one₀ two_ne_zero]
          ring
    have hint : |(k : ℚ) * 2 ^ x - q| ≤ q - 2 ^ 52 * 2 ^ x := by
      have hint := (hk.abs_le_int (2 ^ 52)).1
      rw [← mul_le_mul_iff_left₀ hpos, ← abs_scaled_sub, ← abs_scaled_sub, Int.cast_pow, Int.cast_ofNat,
        abs_sub_comm _ q, abs_sub_comm _ q, abs_of_nonneg (sub_nonneg.2 hlow), abs_sub_comm] at hint
      exact hint
    have hgap : |(k : ℚ) * 2 ^ x - q| < |(if t then -1 else 1) * ((n : ℚ) * 2 ^ f) - q| := by
      rw [abs_sub_comm (_ * (_ * _)) q]
      exact lt_of_lt_of_le (by linarith) (le_abs_self _)
    exact ⟨hgap.le, fun heq => absurd heq hgap.ne⟩

/-- Where units are not larger than one, an integer is a whole number of them. -/
theorem int_div_unit (z : ℤ) {e : ℤ} (he : e ≤ 0) : (z : ℚ) / 2 ^ e = ((z * 2 ^ (-e).toNat : ℤ) : ℚ) := by
  have hpow : (2 : ℚ) ^ (-e).toNat = (2 ^ e)⁻¹ := by
    rw [← zpow_natCast, Int.toNat_of_nonneg (by omega), zpow_neg]
  push_cast
  rw [hpow, div_eq_mul_inv]

/-- The exponent of a quotient leaves more precision the larger the divisor is. -/
theorem IsExponent.mul_lt_two {a b : ℕ} (ha : a < 2 ^ 53) (hb : b < 2 ^ 53) (ha0 : a ≠ 0) (hb0 : b ≠ 0) {e : ℤ}
    (he : IsExponent (a / b) e) : (b : ℚ) * 2 ^ e < 2 := by
  have hbpos : (0 : ℚ) < b := by positivity
  have hone : (1 : ℚ) ≤ a := by exact_mod_cast Nat.one_le_iff_ne_zero.2 ha0
  have habits : (a : ℚ) < 2 ^ 53 := by exact_mod_cast ha
  have hbbits : (b : ℚ) < 2 ^ 53 := by exact_mod_cast hb
  rcases he.tight with hmin | hlow
  · -- A quotient that needs the least exponent is smaller than one by any divisor.
    have hsmall : (2 : ℚ) ^ (e + 53) ≤ (2 ^ 53)⁻¹ := by
      rw [hmin, ← zpow_natCast, ← zpow_neg]
      exact zpow_le_zpow_right₀ (by norm_num) (by norm_num)
    have : (a : ℚ) < 1 :=
      calc (a : ℚ) < b * 2 ^ (e + 53) := (div_lt_iff₀' hbpos).1 he.below
        _ ≤ 2 ^ 53 * (2 ^ 53)⁻¹ := by gcongr
        _ = 1 := by norm_num
    linarith
  · rw [add_comm, zpow_add₀ two_ne_zero, le_div_iff₀' hbpos] at hlow
    have : (b : ℚ) * (2 ^ 52 * 2 ^ e) < 2 ^ 53 := lt_of_le_of_lt hlow habits
    linarith

/-- A quotient of integers of at most 53 bits may be rounded, but not onto an integer or across one. Where the quotient
is no integer, it is at least `1 / b` away from each, and in units of its exponent this is more than a half. -/
theorem IsNearest.lt_iff_of_ratio {a b : ℕ} (ha : a < 2 ^ 53) (hb : b < 2 ^ 53) (ha0 : a ≠ 0) (hb0 : b ≠ 0) {e : ℤ}
    {k : ℕ} (he : IsExponent (a / b) e) (hk : IsNearest (a / b / 2 ^ e) k) (z : ℤ) :
    ((k : ℚ) * 2 ^ e < z ↔ (a : ℚ) / b < z) ∧ ((z : ℚ) < k * 2 ^ e ↔ (z : ℚ) < a / b) := by
  have hpos : (0 : ℚ) < 2 ^ e := by positivity
  have hbpos : (0 : ℚ) < b := by positivity
  have hunit := he.mul_lt_two ha hb ha0 hb0
  have hle : e ≤ 0 := by
    have hbone : (1 : ℚ) ≤ b := by exact_mod_cast Nat.one_le_iff_ne_zero.2 hb0
    have hlt : (2 : ℚ) ^ e < 2 ^ (1 : ℤ) := by
      rw [zpow_one]
      exact lt_of_le_of_lt (le_mul_of_one_le_left hpos.le hbone) hunit
    have := (zpow_lt_zpow_iff_right₀ (by norm_num : (1 : ℚ) < 2)).1 hlt
    omega
  have hfar : (a : ℚ) / b / 2 ^ e = (z : ℚ) / 2 ^ e ∨ 1 / 2 < |(a : ℚ) / b / 2 ^ e - (z : ℚ) / 2 ^ e| := by
    by_cases heq : (a : ℤ) = z * b
    · left
      have hq : (a : ℚ) = z * b := by exact_mod_cast heq
      rw [hq, mul_div_cancel_right₀ _ hbpos.ne']
    · right
      have hdist : (1 : ℚ) ≤ |(a : ℚ) - z * b| := by exact_mod_cast Int.one_le_abs (sub_ne_zero.2 heq)
      rw [← sub_div, div_sub' hbpos.ne', div_div, abs_div, abs_of_pos (by positivity : (0 : ℚ) < b * 2 ^ e),
        lt_div_iff₀ (by positivity), mul_comm (b : ℚ) z]
      linarith
  rw [int_div_unit z hle] at hfar
  have hside := hk.lt_iff hfar
  rw [← int_div_unit z hle, div_lt_div_iff_of_pos_right hpos, div_lt_div_iff_of_pos_right hpos, lt_div_iff₀ hpos,
    div_lt_iff₀ hpos] at hside
  exact hside

namespace RoundsTo

variable {q : ℚ} {x : Binary64}

/-- The magnitude of a rounded value, in units of the exponent, is the nearest integer. -/
theorem exists_units (h : RoundsTo q x) (hq : q ≠ 0) (hlarge : |q| < 2 ^ (1023 : ℤ)) :
    ∃ (s : Bool) (e : ℤ) (k : ℕ), q = (if s then -1 else 1) * |q| ∧ IsExponent |q| e ∧ IsNearest (|q| / 2 ^ e) k ∧
      ∃ m f hc, x = .finite s m f hc ∧ (m : ℚ) * 2 ^ f = k * 2 ^ e ∧ (k % 2 = 0 → m % 2 = 0) := by
  obtain ⟨s, num, den, hd, rfl, rfl⟩ := h
  have hmagnitude := abs_sign_mul s (div_nonneg num.cast_nonneg den.cast_nonneg : (0 : ℚ) ≤ num / den)
  have hn : num ≠ 0 := by
    rintro rfl
    simp at hq
  rw [hmagnitude] at hlarge ⊢
  obtain ⟨e, k, he, hk, m, f, hc, hround, hform⟩ := round_eq_finite s hn hd hlarge
  refine ⟨s, e, k, rfl, he, hk, m, f, hc, hround, ?_⟩
  rcases hform with ⟨rfl, rfl⟩ | ⟨rfl, rfl, rfl⟩
  · exact ⟨rfl, id⟩
  · rw [zpow_add_one₀ two_ne_zero]
    push_cast
    exact ⟨by ring, fun _ => by norm_num⟩

theorem eq_zero (h : RoundsTo 0 x) : ∃ s, x = zero s := by
  obtain ⟨s, num, den, hd, hq, rfl⟩ := h
  have hn : num = 0 := by
    have hden : (den : ℚ) ≠ 0 := by exact_mod_cast hd
    cases s <;> simpa [hden] using hq.symm
  exact ⟨s, by simp [round, hn]⟩

/-- No number is nearer to the value, and where another is as near, the significand is even. -/
theorem nearest (h : RoundsTo q x) (hlarge : |q| < 2 ^ (1023 : ℤ)) :
    ∃ s m e hc, x = .finite s m e hc ∧ ∀ y w, toRat? y = some w →
      |(if s then -1 else 1) * (m * 2 ^ e) - q| ≤ |w - q| ∧
        (|(if s then -1 else 1) * (m * 2 ^ e) - q| = |w - q| →
          w = (if s then -1 else 1) * (m * 2 ^ e) ∨ m % 2 = 0) := by
  by_cases hq : q = 0
  · subst hq
    obtain ⟨s, rfl⟩ := h.eq_zero
    exact ⟨s, 0, -1074, by decide, rfl, fun y w _ => ⟨by simp, fun _ => .inr rfl⟩⟩
  · obtain ⟨s, e, k, hsign, he, hk, m, f, hc, rfl, hvalue, heven⟩ := h.exists_units hq hlarge
    refine ⟨s, m, f, hc, rfl, fun y w hw => ?_⟩
    obtain ⟨t, n, g, hn, rfl, rfl⟩ := exists_of_toRat? hw
    obtain ⟨hle, htie⟩ := hk.abs_le_number he hn (s ^^ t)
    rw [sign_xor, mul_assoc] at hle htie
    generalize |q| = magnitude at *
    rw [hsign, abs_sub_sign_mul, abs_sub_sign_mul, sign_mul_sign_mul, hvalue]
    refine ⟨hle, fun heq => (htie heq).imp (fun hsame => ?_) heven⟩
    rw [← hsame, sign_mul_sign_mul]

/-- An integer of at most 53 bits is given exactly. -/
theorem exact {z : ℤ} (h : RoundsTo z x) (hz : |z| < 2 ^ 53) : x.toRat? = some (z : ℚ) := by
  by_cases h0 : z = 0
  · subst h0
    obtain ⟨s, rfl⟩ := RoundsTo.eq_zero (by simpa using h)
    simp [zero, toRat?]
  · have hbits : |(z : ℚ)| < 2 ^ (53 : ℤ) := by exact_mod_cast hz
    have hlarge : |(z : ℚ)| < 2 ^ (1023 : ℤ) := lt_trans hbits (zpow_lt_zpow_right₀ (by norm_num) (by norm_num))
    obtain ⟨s, e, k, hsign, he, hk, m, f, hc, rfl, hvalue, -⟩ := h.exists_units (by exact_mod_cast h0) hlarge
    have hle : e ≤ 0 := by
      rcases he.tight with hmin | hlow
      · omega
      · have := (zpow_lt_zpow_iff_right₀ (by norm_num : (1 : ℚ) < 2)).1 (lt_of_le_of_lt hlow hbits)
        omega
    have hunits : (k : ℚ) = |(z : ℚ)| / 2 ^ e := by
      rw [← Int.cast_abs, int_div_unit _ hle] at hk ⊢
      exact_mod_cast hk.eq_of_int
    rw [toRat?, hvalue, hunits, div_mul_cancel₀ _ (zpow_ne_zero e two_ne_zero), ← hsign]

/-- What is beyond `2 ^ 53` stays beyond it. -/
theorem beyond (h : RoundsTo q x) (hlow : 2 ^ 53 ≤ |q|) (hlarge : |q| < 2 ^ (1023 : ℤ)) {v : ℚ}
    (hv : x.toRat? = some v) : 2 ^ 53 ≤ |v| := by
  obtain ⟨s, m, e, hc, rfl, hnearest⟩ := h.nearest hlarge
  obtain rfl := Option.some.inj hv
  have hclosest := (hnearest (.finite (decide (q < 0)) (2 ^ 52) 1 (by decide)) _ rfl).1
  have hedge : |(if decide (q < 0) then -1 else 1) * (((2 ^ 52 : ℕ) : ℚ) * 2 ^ (1 : ℤ)) - q| = |q| - 2 ^ 53 := by
    rcases lt_or_ge q 0 with hneg | hpos
    · rw [abs_of_neg hneg] at hlow ⊢
      rw [abs_of_nonneg] <;> simp [hneg] <;> linarith
    · rw [abs_of_nonneg hpos] at hlow ⊢
      rw [abs_of_nonpos] <;> simp [not_lt.2 hpos] <;> linarith
  have htriangle := abs_sub_abs_le_abs_sub q ((if s then -1 else 1) * (m * 2 ^ e))
  rw [abs_sub_comm q] at htriangle
  linarith

/-- Rounding a quotient of integers of at most 53 bits does not change which integers it is above. -/
theorem floor_ratio {l r : ℤ} (h : RoundsTo (l / r) x) (hl : |l| < 2 ^ 53) (hr : |r| < 2 ^ 53) (hr0 : r ≠ 0) :
    ∃ v, x.toRat? = some v ∧ ⌊v⌋ = ⌊(l : ℚ) / r⌋ := by
  by_cases hl0 : l = 0
  · subst hl0
    obtain ⟨s, rfl⟩ := RoundsTo.eq_zero (by simpa using h)
    exact ⟨_, rfl, by simp⟩
  · have hmagnitude : |(l : ℚ) / r| = (l.natAbs : ℚ) / r.natAbs := by
      rw [abs_div, Nat.cast_natAbs, Nat.cast_natAbs, Int.cast_abs, Int.cast_abs]
    have hne : (l : ℚ) / r ≠ 0 := div_ne_zero (by exact_mod_cast hl0) (by exact_mod_cast hr0)
    have hlarge : |(l : ℚ) / r| < 2 ^ (1023 : ℤ) := by
      have hlq : |(l : ℚ)| < 2 ^ (53 : ℤ) := by exact_mod_cast hl
      have hrq : 1 ≤ |(r : ℚ)| := by exact_mod_cast Int.one_le_abs hr0
      calc |(l : ℚ) / r| ≤ |(l : ℚ)| := by
            rw [abs_div]
            exact div_le_self (abs_nonneg _) hrq
        _ < 2 ^ (53 : ℤ) := hlq
        _ ≤ 2 ^ (1023 : ℤ) := zpow_le_zpow_right₀ (by norm_num) (by norm_num)
    obtain ⟨s, e, k, hsign, he, hk, m, f, hc, rfl, hvalue, -⟩ := h.exists_units hne hlarge
    rw [hmagnitude] at he hk hsign
    rw [Int.abs_eq_natAbs] at hl hr
    have hside := hk.lt_iff_of_ratio (by omega) (by omega) (by omega) (by omega) he
    refine ⟨_, rfl, eq_of_forall_le_iff fun z => ?_⟩
    rw [Int.le_floor, Int.le_floor, hvalue, hsign]
    cases s with
    | false => simpa using (hside z).1.not
    | true =>
      have hz := (hside (-z)).2.not
      push_cast at hz
      simpa [le_neg] using hz

end RoundsTo

/-! ### The floor -/

theorem toRat?_round_natural (s : Bool) {n : ℕ} (hn : n < 2 ^ 53) :
    (round s n 1).toRat? = some ((if s then -1 else 1) * (n : ℚ)) := by
  have hrounds : RoundsTo (((if s then -1 else 1) * n : ℤ) : ℚ) (round s n 1) :=
    ⟨s, n, 1, one_ne_zero, by cases s <;> simp, rfl⟩
  have hbits : |((if s then -1 else 1) * n : ℤ)| < 2 ^ 53 := by cases s <;> simp <;> omega
  rw [hrounds.exact hbits]
  cases s <;> simp

theorem floor_neg_ratio (m : ℕ) {d : ℕ} (hd : 0 < d) : ⌊-((m : ℚ) / d)⌋ = -(((m + d - 1) / d : ℕ) : ℤ) := by
  have hdiv := Nat.div_add_mod (m + d - 1) d
  have hmod := Nat.mod_lt (m + d - 1) hd
  have hdq : (0 : ℚ) < d := by exact_mod_cast hd
  generalize (m + d - 1) / d = c at *
  have habove : (m : ℚ) ≤ d * c := by
    have : m ≤ d * c := by omega
    exact_mod_cast this
  have hbelow : (d : ℚ) * c < m + d := by
    have : d * c < m + d := by omega
    exact_mod_cast this
  rw [Int.floor_eq_iff]
  push_cast
  rw [neg_le_neg_iff, div_le_iff₀' hdq, ← sub_eq_neg_add, neg_lt_sub_iff_lt_add, ← mul_lt_mul_iff_right₀ hdq, mul_add,
    mul_div_cancel₀ _ hdq.ne']
  exact ⟨habove, by linarith⟩

/-- The floor of a number is the floor of its value. -/
theorem toRat?_floor {x : Binary64} {q : ℚ} (h : x.toRat? = some q) : x.floor.toRat? = some (⌊q⌋ : ℚ) := by
  obtain ⟨s, m, e, hc, rfl, rfl⟩ := exists_of_toRat? h
  rw [floor]
  split
  case isTrue he =>
    obtain ⟨n, rfl⟩ := Int.eq_ofNat_of_zero_le he
    have hwhole : (if s then -1 else 1) * ((m : ℚ) * 2 ^ (n : ℤ)) =
        (((if s then -1 else 1) * (m * 2 ^ n) : ℤ) : ℚ) := by cases s <;> simp
    rw [toRat?, hwhole, Int.floor_intCast]
  case isFalse he =>
    have hpow : (2 : ℚ) ^ e = ((2 ^ (-e).toNat : ℕ) : ℚ)⁻¹ := by
      rw [Nat.cast_pow, ← zpow_natCast, Int.toNat_of_nonneg (by omega), zpow_neg, inv_inv]
      norm_cast
    have hd : 0 < 2 ^ (-e).toNat := by positivity
    have hm : m < 2 ^ 53 := hc.1
    rw [hpow, ← div_eq_mul_inv]
    simp only [Nat.pow_eq]
    generalize 2 ^ (-e).toNat = d at hd
    cases s with
    | true =>
      have hbits : (m + d - 1) / d < 2 ^ 53 := Nat.div_lt_of_lt_mul (by omega)
      rw [if_pos rfl, toRat?_round_natural true hbits, if_pos rfl, neg_one_mul, neg_one_mul, floor_neg_ratio m hd]
      push_cast
      rfl
    | false =>
      have hbits : m / d < 2 ^ 53 := lt_of_le_of_lt (Nat.div_le_self m d) hm
      rw [if_neg (by decide), toRat?_round_natural false hbits, if_neg (by decide), one_mul, one_mul,
        Rat.floor_natCast_div_natCast]
      rfl

end Trellis.Binary64
