import Mathlib
import Trellis.Number.Binary64

/-!
# Rounding depends on the value alone

`round` is given a fraction as its numerator and denominator. Which number it makes is decided by the rational number
that they stand for: the exponent is the least one under which the value fits into 53 bits, and the significand is
the integer nearest to the value in units of that exponent. So equal fractions round to the same number, a number in
canonical form rounds to itself, and past both ends of the range the result is an infinity or a zero.
-/
namespace Trellis.Binary64

/-- The least exponent, not below `-1074`, under which a positive value has at most 53 bits. -/
structure IsExponent (q : ℚ) (e : ℤ) : Prop where
  least : -1074 ≤ e
  below : q < 2 ^ (e + 53)
  tight : e = -1074 ∨ 2 ^ (e + 52) ≤ q

theorem IsExponent.le {q : ℚ} {e f : ℤ} (he : IsExponent q e) (hf : IsExponent q f) : e ≤ f := by
  rcases he.tight with h | h
  · exact h ▸ hf.least
  · have hlt : (2 : ℚ) ^ (e + 52) < 2 ^ (f + 53) := lt_of_le_of_lt h hf.below
    have := (zpow_lt_zpow_iff_right₀ (by norm_num : (1 : ℚ) < 2)).1 hlt
    omega

theorem IsExponent.unique {q : ℚ} {e f : ℤ} (he : IsExponent q e) (hf : IsExponent q f) : e = f :=
  le_antisymm (he.le hf) (hf.le he)

/-- The two halves of a power, one of which is one. -/
theorem pow_toNat_div (b : ℚ) (e : ℤ) : b ^ e.toNat / b ^ (-e).toNat = b ^ e := by
  rcases le_total 0 e with h | h
  · obtain ⟨n, rfl⟩ := Int.eq_ofNat_of_zero_le h
    simp
  · obtain ⟨n, hn⟩ := Int.eq_ofNat_of_zero_le (neg_nonneg.2 h)
    obtain rfl : e = -(n : ℤ) := by omega
    simp

/-- A fraction scaled by a power of two, with whole numerator and denominator. -/
theorem scaled_ratio (num den : ℕ) (e : ℤ) :
    ((num * 2 ^ (-e).toNat : ℕ) : ℚ) / ((den * 2 ^ e.toNat : ℕ) : ℚ) = (num : ℚ) / den / 2 ^ e := by
  rw [← pow_toNat_div 2 e]
  push_cast
  field_simp

theorem dyadic_ratio (m : ℕ) (e : ℤ) :
    ((m * 2 ^ e.toNat : ℕ) : ℚ) / ((2 ^ (-e).toNat : ℕ) : ℚ) = m * 2 ^ e := by
  rw [← pow_toNat_div 2 e]
  push_cast
  ring

theorem lt_scaled_iff {num den : ℕ} (hd : 0 < den) (e : ℤ) (k : ℕ) :
    num * 2 ^ (-e).toNat < 2 ^ k * den * 2 ^ e.toNat ↔ (num : ℚ) / den < 2 ^ (e + k) := by
  have hden : (0 : ℚ) < ((den * 2 ^ e.toNat : ℕ) : ℚ) := by positivity
  have hratio := scaled_ratio num den e
  rw [zpow_add₀ two_ne_zero, zpow_natCast, ← div_lt_iff₀' (by positivity), ← hratio, div_lt_iff₀ hden]
  norm_cast
  rw [mul_assoc]

/-- The value lies between the powers of two that the logarithms give. -/
theorem ratio_bounds {num den : ℕ} (hn : num ≠ 0) (hd : den ≠ 0) :
    (2 : ℚ) ^ ((num.log2 : ℤ) - den.log2 - 1) ≤ num / den ∧
      (num : ℚ) / den < 2 ^ ((num.log2 : ℤ) - den.log2 + 1) := by
  have hnl : (2 : ℚ) ^ num.log2 ≤ num := by exact_mod_cast Nat.log2_self_le hn
  have hnu : (num : ℚ) < 2 ^ (num.log2 + 1) := by exact_mod_cast Nat.lt_log2_self
  have hdl : (2 : ℚ) ^ den.log2 ≤ den := by exact_mod_cast Nat.log2_self_le hd
  have hdu : (den : ℚ) < 2 ^ (den.log2 + 1) := by exact_mod_cast Nat.lt_log2_self
  have hden : (0 : ℚ) < den := by positivity
  constructor
  · rw [le_div_iff₀ hden]
    calc (2 : ℚ) ^ ((num.log2 : ℤ) - den.log2 - 1) * den
        ≤ 2 ^ ((num.log2 : ℤ) - den.log2 - 1) * 2 ^ (den.log2 + 1) := by gcongr
      _ = 2 ^ num.log2 := by
        rw [← zpow_natCast, ← zpow_natCast, ← zpow_add₀ two_ne_zero]
        congr 1
        push_cast
        ring
      _ ≤ num := hnl
  · rw [div_lt_iff₀ hden]
    calc (num : ℚ) < 2 ^ (num.log2 + 1) := hnu
      _ = 2 ^ ((num.log2 : ℤ) - den.log2 + 1) * 2 ^ den.log2 := by
        rw [← zpow_natCast, ← zpow_natCast, ← zpow_add₀ two_ne_zero]
        congr 1
        push_cast
        ring
      _ ≤ 2 ^ ((num.log2 : ℤ) - den.log2 + 1) * den := by gcongr

theorem isExponent_exponentOf {num den : ℕ} (hn : num ≠ 0) (hd : den ≠ 0) :
    IsExponent (num / den) (exponentOf num den) := by
  obtain ⟨hlow, hhigh⟩ := ratio_bounds hn hd
  unfold exponentOf
  simp only [Nat.pow_eq]
  set e : ℤ := max (-1074) ((num.log2 : ℤ) - den.log2 - 53) with he
  have hleast : -1074 ≤ e := le_max_left ..
  split
  case isTrue h =>
    refine ⟨hleast, (lt_scaled_iff (Nat.pos_of_ne_zero hd) e 53).1 h, ?_⟩
    rcases max_choice (-1074) ((num.log2 : ℤ) - den.log2 - 53) with hmax | hmax
    · exact .inl (he.trans hmax)
    · refine .inr (le_trans (le_of_eq ?_) hlow)
      rw [he, hmax]
      congr 1
      ring
  case isFalse h =>
    rw [lt_scaled_iff (Nat.pos_of_ne_zero hd) e 53, not_lt] at h
    refine ⟨by omega, lt_of_lt_of_le hhigh ?_, .inr ?_⟩
    · apply zpow_le_zpow_right₀ (by norm_num)
      have := le_max_right (-1074) ((num.log2 : ℤ) - den.log2 - 53)
      omega
    · rw [show e + 1 + 52 = e + 53 by ring]
      exact h

theorem exponentOf_eq {num den : ℕ} (hn : num ≠ 0) (hd : den ≠ 0) {e : ℤ} (he : IsExponent (num / den) e) :
    exponentOf num den = e := (isExponent_exponentOf hn hd).unique he

theorem roundDiv_mul_left {c : ℕ} (hc : 0 < c) (num den : ℕ) : roundDiv (c * num) (c * den) = roundDiv num den := by
  simp only [roundDiv, Nat.mul_div_mul_left _ _ hc, Nat.mul_mod_mul_left]
  have hlt : 2 * (c * (num % den)) < c * den ↔ 2 * (num % den) < den := by
    rw [Nat.mul_left_comm, Nat.mul_lt_mul_left hc]
  have heq : 2 * (c * (num % den)) = c * den ↔ 2 * (num % den) = den := by
    rw [Nat.mul_left_comm, Nat.mul_right_inj (Nat.pos_iff_ne_zero.1 hc)]
  simp only [hlt, heq]

/-- Equal fractions have the same nearest integer. -/
theorem roundDiv_congr {num den num' den' : ℕ} (hd : 0 < den) (hd' : 0 < den') (h : num * den' = num' * den) :
    roundDiv num den = roundDiv num' den' := by
  rw [← roundDiv_mul_left hd', ← roundDiv_mul_left hd num' den', mul_comm den' num, h, mul_comm num' den,
    mul_comm den' den]

theorem roundDiv_mul_self (m : ℕ) {den : ℕ} (hd : 0 < den) : roundDiv (m * den) den = m := by
  simp [roundDiv, hd]

theorem roundDiv_eq_zero {num den : ℕ} (h : 2 * num < den) : roundDiv num den = 0 := by
  have hlt : num < den := by omega
  simp [roundDiv, Nat.div_eq_of_lt hlt, Nat.mod_eq_of_lt hlt, h]

/-- Equal fractions round to the same number. -/
theorem round_congr (s : Bool) {num den num' den' : ℕ} (hd : den ≠ 0) (hd' : den' ≠ 0)
    (h : num * den' = num' * den) : round s num den = round s num' den' := by
  by_cases hn : num = 0
  · subst hn
    obtain rfl : num' = 0 := by simpa [hd] using h.symm
    rfl
  · have hn' : num' ≠ 0 := by
      rintro rfl
      simp [hn, hd'] at h
    have hratio : (num : ℚ) / den = num' / den' := by
      rw [div_eq_div_iff (by exact_mod_cast hd) (by exact_mod_cast hd')]
      exact_mod_cast h
    have he : exponentOf num den = exponentOf num' den' :=
      exponentOf_eq hn hd (hratio ▸ isExponent_exponentOf hn' hd')
    have hm : ∀ e : ℤ, roundDiv (num * Nat.pow 2 (-e).toNat) (den * Nat.pow 2 e.toNat) =
        roundDiv (num' * Nat.pow 2 (-e).toNat) (den' * Nat.pow 2 e.toNat) := by
      intro e
      have hpow : ∀ n, 0 < Nat.pow 2 n := fun n => Nat.pow_pos (by norm_num)
      apply roundDiv_congr (Nat.mul_pos (Nat.pos_of_ne_zero hd) (hpow _))
        (Nat.mul_pos (Nat.pos_of_ne_zero hd') (hpow _))
      rw [mul_mul_mul_comm, h, mul_mul_mul_comm]
    simp only [round, if_neg hn, if_neg hn', he, hm]

/-- A number in canonical form rounds to itself. -/
theorem round_canonical (s : Bool) {m : ℕ} {e : ℤ} (h : Canonical m e) :
    round s (m * 2 ^ e.toNat) (2 ^ (-e).toNat) = .finite s m e h := by
  obtain ⟨hm, hlow, -, hnormal⟩ := id h
  rw [Nat.pow_eq] at hm
  by_cases hz : m = 0
  · subst hz
    obtain rfl : e = -1074 := hnormal.resolve_left (by norm_num)
    simp [round, zero]
  · have hnum : m * 2 ^ e.toNat ≠ 0 := by positivity
    have hden : 2 ^ (-e).toNat ≠ 0 := by positivity
    have he : exponentOf (m * 2 ^ e.toNat) (2 ^ (-e).toNat) = e := by
      apply exponentOf_eq hnum hden
      rw [dyadic_ratio]
      refine ⟨hlow, ?_, ?_⟩
      · rw [add_comm, zpow_add₀ two_ne_zero]
        gcongr
        exact_mod_cast hm
      · rcases hnormal with hn | hn
        · right
          rw [add_comm, zpow_add₀ two_ne_zero]
          gcongr
          exact_mod_cast hn
        · exact .inl hn
    have hround : roundDiv (m * 2 ^ e.toNat * Nat.pow 2 (-e).toNat) (2 ^ (-e).toNat * Nat.pow 2 e.toNat) = m := by
      rw [Nat.pow_eq, Nat.pow_eq, mul_assoc, mul_comm (2 ^ e.toNat)]
      exact roundDiv_mul_self m (by positivity)
    have hne : m ≠ Nat.pow 2 53 := by
      rw [Nat.pow_eq]
      exact hm.ne
    simp only [round, if_neg hnum, he, hround, if_neg hne, pack]
    exact dif_pos h

theorem roundDiv_le {num den k : ℕ} (h : num < k * den) : roundDiv num den ≤ k := by
  have hq : num / den < k := Nat.div_lt_of_lt_mul (mul_comm k den ▸ h)
  simp only [roundDiv]
  split <;> omega

theorem le_roundDiv {num den k : ℕ} (hd : 0 < den) (h : k * den ≤ num) : k ≤ roundDiv num den := by
  have hq : k ≤ num / den := (Nat.le_div_iff_mul_le hd).2 h
  simp only [roundDiv]
  split <;> omega

/-- The integer nearest to a value, which is even where two are equally near. -/
structure IsNearest (q : ℚ) (k : ℕ) : Prop where
  within : |(k : ℚ) - q| ≤ 1 / 2
  even : |(k : ℚ) - q| = 1 / 2 → k % 2 = 0

theorem isNearest_roundDiv {num den : ℕ} (hd : 0 < den) : IsNearest (num / den) (roundDiv num den) := by
  have hden : (0 : ℚ) < den := by exact_mod_cast hd
  have hsplit : (num : ℚ) / den = (num / den : ℕ) + (num % den : ℕ) / den := by
    rw [eq_comm, ← eq_sub_iff_add_eq', div_eq_iff hden.ne', sub_mul, div_mul_cancel₀ _ hden.ne', eq_sub_iff_add_eq']
    exact_mod_cast Nat.div_add_mod' num den
  have hlow : (0 : ℚ) ≤ (num % den : ℕ) / den := by positivity
  have hhigh : ((num % den : ℕ) : ℚ) / den < 1 := by
    rw [div_lt_one hden]
    exact_mod_cast Nat.mod_lt num hd
  have hhalf : ((num % den : ℕ) : ℚ) / den < 1 / 2 ↔ 2 * (num % den) < den := by
    rw [div_lt_iff₀ hden, one_div_mul_eq_div, lt_div_iff₀' two_pos]
    exact_mod_cast Iff.rfl
  have htie : ((num % den : ℕ) : ℚ) / den = 1 / 2 ↔ 2 * (num % den) = den := by
    rw [div_eq_iff hden.ne', one_div_mul_eq_div, eq_div_iff two_ne_zero, mul_comm]
    exact_mod_cast Iff.rfl
  unfold roundDiv
  dsimp only
  split
  case isTrue hdown =>
    have habs : |((num / den : ℕ) : ℚ) - num / den| = (num % den : ℕ) / den := by
      rw [hsplit, sub_add_cancel_left, abs_neg, abs_of_nonneg hlow]
    refine ⟨?_, fun heq => ?_⟩
    · rw [habs]
      exact hdown.elim (fun hlt => (hhalf.2 hlt).le) fun heq => (htie.2 heq.1).le
    · rw [habs, htie] at heq
      omega
  case isFalse hup =>
    have habs : |((num / den + 1 : ℕ) : ℚ) - num / den| = 1 - (num % den : ℕ) / den := by
      rw [hsplit, Nat.cast_add_one, add_sub_add_left_eq_sub, abs_of_pos (sub_pos.2 hhigh)]
    refine ⟨?_, fun heq => ?_⟩
    · have hge : 1 / 2 ≤ ((num % den : ℕ) : ℚ) / den := not_lt.1 fun hlt => hup (.inl (hhalf.1 hlt))
      rw [habs]
      linarith
    · rw [habs, sub_eq_iff_eq_add, ← sub_eq_iff_eq_add', eq_comm] at heq
      have := htie.1 (heq.trans (by norm_num))
      omega

/-- A value that is well below the largest number rounds to a number: its significand is the nearest integer in units of
the exponent, and where that integer has a bit too many, the number is the power of two that it is. -/
theorem round_eq_finite (s : Bool) {num den : ℕ} (hn : num ≠ 0) (hd : den ≠ 0)
    (h : (num : ℚ) / den < 2 ^ (1023 : ℤ)) :
    ∃ x k, IsExponent (num / den) x ∧ IsNearest (num / den / 2 ^ x) k ∧
      ∃ m e, ∃ hc : Canonical m e, round s num den = .finite s m e hc ∧
        (m = k ∧ e = x ∨ k = 2 ^ 53 ∧ m = 2 ^ 52 ∧ e = x + 1) := by
  obtain ⟨hleast, hbelow, htight⟩ := isExponent_exponentOf hn hd
  set x : ℤ := exponentOf num den with hx
  have hpos : 0 < den := Nat.pos_of_ne_zero hd
  have hmost : x ≤ 970 := by
    rcases htight with hmin | hlow
    · omega
    · have := (zpow_lt_zpow_iff_right₀ (by norm_num : (1 : ℚ) < 2)).1 (lt_of_le_of_lt hlow h)
      omega
  have hm : roundDiv (num * 2 ^ (-x).toNat) (den * 2 ^ x.toNat) ≤ 2 ^ 53 := by
    apply roundDiv_le
    rw [← mul_assoc]
    exact (lt_scaled_iff hpos x 53).2 hbelow
  have hnormal : 2 ^ 52 ≤ roundDiv (num * 2 ^ (-x).toNat) (den * 2 ^ x.toNat) ∨ x = -1074 := by
    refine htight.symm.imp_left fun hlow => le_roundDiv (by positivity) ?_
    rw [← mul_assoc, ← not_lt, lt_scaled_iff hpos x 52]
    exact not_lt.2 hlow
  have hnearest : IsNearest (num / den / 2 ^ x) (roundDiv (num * 2 ^ (-x).toNat) (den * 2 ^ x.toNat)) := by
    rw [← scaled_ratio]
    exact isNearest_roundDiv (by positivity)
  refine ⟨x, _, ⟨hleast, hbelow, htight⟩, hnearest, ?_⟩
  simp only [round, if_neg hn, ← hx, Nat.pow_eq]
  split
  case isTrue hfull =>
    have hc : Canonical (2 ^ 52) (x + 1) := ⟨by norm_num, by omega, by omega, .inl le_rfl⟩
    exact ⟨_, _, hc, dif_pos hc, .inr ⟨hfull, rfl, rfl⟩⟩
  case isFalse hfull =>
    have hc : Canonical _ x := ⟨lt_of_le_of_ne hm hfull, hleast, by omega, hnormal⟩
    exact ⟨_, _, hc, dif_pos hc, .inl ⟨rfl, rfl⟩⟩

theorem isFinite_round (s : Bool) {num den : ℕ} (hd : den ≠ 0) (h : (num : ℚ) / den < 2 ^ (1023 : ℤ)) :
    (round s num den).isFinite = true := by
  by_cases hn : num = 0
  · simp [round, hn, zero, isFinite]
  · obtain ⟨-, -, -, -, m, e, hc, hround, -⟩ := round_eq_finite s hn hd h
    rw [hround]
    rfl

/-- A value past the largest number becomes an infinity. -/
theorem round_of_large (s : Bool) {num den : ℕ} (hd : den ≠ 0) (h : (2 : ℚ) ^ (1024 : ℤ) ≤ num / den) :
    round s num den = .infinite s := by
  have hn : num ≠ 0 := by
    rintro rfl
    simp only [Nat.cast_zero, zero_div] at h
    exact absurd h (not_le.2 (by positivity))
  have hlt : (2 : ℚ) ^ (1024 : ℤ) < 2 ^ (exponentOf num den + 53) :=
    lt_of_le_of_lt h (isExponent_exponentOf hn hd).below
  have he : 1024 < exponentOf num den + 53 := (zpow_lt_zpow_iff_right₀ (by norm_num : (1 : ℚ) < 2)).1 hlt
  have hpack : ∀ m e, 971 < e → pack s m e = .infinite s := by
    intro m e he
    rw [pack, dif_neg]
    intro hc
    have := hc.2.2.1
    omega
  simp only [round, if_neg hn]
  split
  · exact hpack _ _ (by omega)
  · exact hpack _ _ (by omega)

theorem roundDiv_of_small {num den : ℕ} (hd : den ≠ 0) {k : ℕ} (h : (num : ℚ) / den < 2 ^ (-(k + 1 : ℤ))) :
    roundDiv (num * Nat.pow 2 k) den = 0 := by
  have hden : (0 : ℚ) < den := by positivity
  rw [div_lt_iff₀ hden, zpow_neg, inv_mul_eq_div, lt_div_iff₀ (by positivity)] at h
  have hlt : num * 2 ^ (k + 1) < den := by exact_mod_cast h
  apply roundDiv_eq_zero
  calc 2 * (num * 2 ^ k) = num * 2 ^ (k + 1) := by ring
    _ < den := hlt

/-- A value under half of the least number becomes a zero. -/
theorem round_of_small (s : Bool) {num den : ℕ} (hd : den ≠ 0) (h : (num : ℚ) / den < 2 ^ (-1075 : ℤ)) :
    round s num den = zero s := by
  by_cases hn : num = 0
  · simp [round, hn]
  · have he : exponentOf num den = -1074 := by
      apply exponentOf_eq hn hd
      refine ⟨le_rfl, lt_trans h ?_, .inl rfl⟩
      exact (zpow_lt_zpow_iff_right₀ (by norm_num : (1 : ℚ) < 2)).2 (by norm_num)
    have hm : roundDiv (num * Nat.pow 2 (-(-1074 : ℤ)).toNat) (den * Nat.pow 2 (-1074 : ℤ).toNat) = 0 := by
      rw [show Nat.pow 2 (-1074 : ℤ).toNat = 1 from rfl, mul_one]
      exact roundDiv_of_small hd h
    simp only [round, if_neg hn, he, hm]
    rw [if_neg (by norm_num), pack, dif_pos (by decide)]
    rfl

end Trellis.Binary64
