import Mathlib
import Trellis.Number.Decimal
import Trellis.Proofs.Number.Rounding

/-!
# The shortest digits read back

Reading a decimal is rounding its value, also where the reader takes a short cut because the power of ten is far out
of range. So decimals of the same value read as the same number, however many zeros they end in. The digits that
`shortest` picks have been tried, or are all digits of the number; either way they read back as the number itself.
-/
namespace Trellis

namespace Decimal

/-- The rational number that a decimal is. -/
def value (d : Decimal) : ℚ := d.digits * 10 ^ d.exponent

theorem stripZeros_value (limit : ℕ) (d : Decimal) : (d.stripZeros limit).value = d.value := by
  induction limit generalizing d with
  | zero => rfl
  | succ limit ih =>
    rw [stripZeros]
    split
    case isTrue h =>
      have hdigits : 10 * (d.digits / 10) = d.digits := Nat.mul_div_cancel' (Nat.dvd_of_mod_eq_zero h.2)
      have hcast : (d.digits : ℚ) = 10 * (d.digits / 10 : ℕ) := by exact_mod_cast hdigits.symm
      rw [ih, value, value, hcast, zpow_add_one₀ (by norm_num)]
      ring
    case isFalse => rfl

/-- Digits times a power of ten are at most that power with one more ten for each bit of the digits. -/
theorem value_le (d : Decimal) : d.value ≤ 10 ^ (d.exponent + d.digits.log2 + 1) := by
  have hdigits : (d.digits : ℚ) ≤ 10 ^ (d.digits.log2 + 1) :=
    calc (d.digits : ℚ) ≤ 2 ^ (d.digits.log2 + 1) := by exact_mod_cast Nat.lt_log2_self.le
      _ ≤ 10 ^ (d.digits.log2 + 1) := by gcongr; norm_num
  calc d.value ≤ 10 ^ (d.digits.log2 + 1) * 10 ^ d.exponent := by
        rw [value]
        gcongr
    _ = 10 ^ (d.exponent + d.digits.log2 + 1) := by
      rw [← zpow_natCast, ← zpow_add₀ (by norm_num)]
      congr 1
      push_cast
      ring

end Decimal

namespace Binary64

theorem round_congr_ratio (s : Bool) {num den num' den' : ℕ} (hd : den ≠ 0) (hd' : den' ≠ 0)
    (h : (num : ℚ) / den = num' / den') : round s num den = round s num' den' := by
  rw [div_eq_div_iff (by exact_mod_cast hd) (by exact_mod_cast hd')] at h
  exact round_congr s hd hd' (by exact_mod_cast h)

theorem two_pow_le_ten_pow : (2 : ℚ) ^ (3 * 400 : ℤ) ≤ 10 ^ (400 : ℤ) :=
  calc (2 : ℚ) ^ (3 * 400 : ℤ) = (2 ^ (3 : ℤ)) ^ (400 : ℤ) := zpow_mul ..
    _ ≤ 10 ^ (400 : ℤ) := zpow_le_zpow_left₀ (by norm_num) (by norm_num) (by norm_num)

theorem ten_pow_lt_two_pow : (10 : ℚ) ^ (-400 : ℤ) < 2 ^ (-1075 : ℤ) := by
  rw [zpow_neg, zpow_neg]
  apply inv_strictAnti₀ (by positivity)
  exact lt_of_lt_of_le (zpow_lt_zpow_right₀ (by norm_num) (by norm_num)) two_pow_le_ten_pow

/-- Reading a decimal is rounding its value. -/
theorem ofDecimal_eq_round (s : Bool) (d : Decimal) {num den : ℕ} (hd : den ≠ 0) (h : (num : ℚ) / den = d.value) :
    ofDecimal s d = round s num den := by
  have hden : (0 : ℚ) < den := by positivity
  unfold ofDecimal
  split_ifs with hzero hlarge hsmall
  · rw [Decimal.value, hzero, Nat.cast_zero, zero_mul, div_eq_zero_iff] at h
    have hnum : num = 0 := by exact_mod_cast h.resolve_right hden.ne'
    simp [round, hnum]
  · refine (round_of_large s hd ?_).symm
    calc (2 : ℚ) ^ (1024 : ℤ) ≤ 2 ^ (3 * 400 : ℤ) := zpow_le_zpow_right₀ (by norm_num) (by norm_num)
      _ ≤ 10 ^ (400 : ℤ) := two_pow_le_ten_pow
      _ ≤ 10 ^ d.exponent := zpow_le_zpow_right₀ (by norm_num) hlarge.le
      _ ≤ d.digits * 10 ^ d.exponent := by
        apply le_mul_of_one_le_left (by positivity)
        exact_mod_cast Nat.one_le_iff_ne_zero.2 hzero
      _ = num / den := h.symm
  · refine (round_of_small s hd ?_).symm
    calc (num : ℚ) / den = d.value := h
      _ ≤ 10 ^ (d.exponent + d.digits.log2 + 1) := d.value_le
      _ ≤ 10 ^ (-400 : ℤ) := zpow_le_zpow_right₀ (by norm_num) hsmall.le
      _ < 2 ^ (-1075 : ℤ) := ten_pow_lt_two_pow
  · have hpow : ∀ n, Nat.pow 10 n ≠ 0 := fun n => (Nat.pow_pos (by norm_num)).ne'
    refine round_congr_ratio s (hpow _) hd ?_
    rw [h, Decimal.value, ← pow_toNat_div 10]
    push_cast [Nat.pow_eq]
    ring

/-- Decimals of the same value read as the same number. -/
theorem ofDecimal_congr (s : Bool) {d d' : Decimal} (h : d.value = d'.value) : ofDecimal s d = ofDecimal s d' := by
  have hden : 10 ^ (-d'.exponent).toNat ≠ 0 := by positivity
  have hvalue : ((d'.digits * 10 ^ d'.exponent.toNat : ℕ) : ℚ) / ((10 ^ (-d'.exponent).toNat : ℕ) : ℚ) = d'.value := by
    rw [Decimal.value, ← pow_toNat_div 10]
    push_cast
    ring
  rw [ofDecimal_eq_round s d hden (hvalue.trans h.symm), ofDecimal_eq_round s d' hden hvalue]

theorem nearestOn_fits {tie : Tie} {x : Binary64} {num den : ℕ} {k : ℤ} {d : Decimal}
    (h : nearestOn tie x num den k = some d) : ofDecimal x.isNegative d = x := by
  unfold nearestOn at h
  dsimp only at h
  split_ifs at h with hlow hhigh
  · cases h
    exact hlow.1
  · cases h
    exact hhigh

/-- All digits of a number are its value. -/
theorem expansion_value (s : Bool) {m : ℕ} {e : ℤ} (h : Canonical m e) :
    (expansion (.finite s m e h)).value = m * 2 ^ e := by
  rw [expansion]
  split_ifs with he
  · obtain ⟨n, rfl⟩ := Int.eq_ofNat_of_zero_le he
    simp [Decimal.value]
  · obtain ⟨n, hn⟩ : ∃ n : ℕ, e = -(n : ℤ) := ⟨(-e).toNat, by omega⟩
    have hten : (10 : ℚ) ^ n = 5 ^ n * 2 ^ n := by rw [← mul_pow]; norm_num
    rw [hn, Decimal.value, zpow_neg, zpow_neg, zpow_natCast, zpow_natCast, hten]
    push_cast [neg_neg, Int.toNat_natCast, Nat.pow_eq]
    field_simp

/-- The shortest digits of a number read back as that number. -/
theorem ofDecimal_shortest (tie : Tie) (s : Bool) {m : ℕ} {e : ℤ} (h : Canonical m e) :
    ofDecimal s ((Binary64.finite s m e h).shortest tie) = .finite s m e h := by
  rw [shortest]
  split_ifs with hm
  · subst hm
    obtain rfl : e = -1074 := h.2.2.2.resolve_left (by norm_num)
    rfl
  · dsimp only
    split
    case h_1 d hgrid =>
      obtain ⟨n, -, hd⟩ := List.exists_of_findSome?_eq_some hgrid
      exact (ofDecimal_congr s (d.stripZeros_value 17)).trans (nearestOn_fits hd)
    case h_2 =>
      have hden : 2 ^ (-e).toNat ≠ 0 := by positivity
      refine (ofDecimal_eq_round s _ hden ?_).trans (round_canonical s h)
      rw [expansion_value, ← pow_toNat_div 2]
      push_cast
      ring

/-- Only zero has no digits but a zero, and it is written without a power of ten. -/
theorem shortest_of_digits_eq_zero {tie : Tie} {s : Bool} {m : ℕ} {e : ℤ} {h : Canonical m e}
    (hz : ((Binary64.finite s m e h).shortest tie).digits = 0) : (Binary64.finite s m e h).shortest tie = ⟨0, 0⟩ := by
  have hread := ofDecimal_shortest tie s h
  rw [ofDecimal, if_pos hz] at hread
  cases hread
  rfl

end Binary64
end Trellis
