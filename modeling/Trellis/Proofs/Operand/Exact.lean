import Trellis.Proofs.Operand.Bounded

/-!
# Integer arithmetic is exact

Numbers on the operand stack are rounded, but integers are not: up to the bound of the stack every integer is a number
of its own, and an operation on two of them either pushes the exact integer or refuses. A sum or a product past the
bound cannot be rounded back into it. The quotient is rounded before its floor is taken, and rounding it up could take
the floor too far; between integers within the bound this does not happen.
-/
namespace Trellis.Operands

open Binary64

/-- The operation pushes a number that is exactly the integer, and touches nothing below its operands. -/
def Pushes (operator : Operator) (x y : Binary64) (z : ℤ) : Prop :=
  ∀ s, ∃ v : Binary64, v.toRat? = some (z : ℚ) ∧
    calculate operator (.number y :: .number x :: s) = (.ok (.number v), .number v :: s)

/-- The operation takes its operands and fails, because its result may not stand on the stack. -/
def Refuses (operator : Operator) (x y : Binary64) : Prop :=
  ∀ s, ∃ shown, calculate operator (.number y :: .number x :: s) = (.error (.invalidValue shown), s)

variable {operator : Operator} {x y : Binary64} {l r z : ℤ}

theorem pushes_of_toRat? (h : (operator.apply x y).toRat? = some (z : ℚ)) (hz : |z| ≤ 2 ^ 53 - 1) :
    Pushes operator x y z := by
  have hvalid : (Value.number (operator.apply x y)).isValid = true :=
    Value.isValid_iff.2 (.inr ⟨_, z, rfl, h, by exact_mod_cast hz⟩)
  intro s
  exact ⟨_, h, by simp [calculate, Value.fault?_eq_none_iff.2 hvalid]⟩

theorem refuses_of_not_isValid (h : ¬ (Value.number (operator.apply x y)).isValid = true) : Refuses operator x y := by
  intro s
  have hwithin : (operator.apply x y).within Value.bound = false := Bool.eq_false_iff.2 h
  exact ⟨(operator.apply x y).toText, by simp [calculate, Value.fault?, hwithin]⟩

/-- What comes of rounding an integer once is pushed exactly, or not at all. -/
theorem checked_of_roundsTo (h : RoundsTo z (operator.apply x y)) (hlarge : |z| < 2 ^ 106) :
    if |z| ≤ 2 ^ 53 - 1 then Pushes operator x y z else Refuses operator x y := by
  split
  case isTrue hz => exact pushes_of_toRat? (h.exact (by omega)) hz
  case isFalse hz =>
    have hlow : (2 : ℚ) ^ 53 ≤ |(z : ℚ)| := by
      have : 2 ^ 53 ≤ |z| := by omega
      exact_mod_cast this
    have hbits : |(z : ℚ)| < 2 ^ (106 : ℤ) := by exact_mod_cast hlarge
    have hbelow : |(z : ℚ)| < 2 ^ (1023 : ℤ) := lt_trans hbits (zpow_lt_zpow_right₀ (by norm_num) (by norm_num))
    apply refuses_of_not_isValid
    rw [Value.isValid_iff]
    rintro (⟨t, ht⟩ | ⟨_, v, hnumber, hv, hbound⟩)
    · cases ht
    · cases hnumber
      have := h.beyond hlow hbelow hv
      linarith

/-- Division by either zero ends in no finite number. -/
theorem refuses_floorDiv_zero (hx : x.toRat? = some (l : ℚ)) (hy : y.toRat? = some 0) : Refuses .floorDiv x y := by
  obtain ⟨s, m, e, hm, rfl, -⟩ := exists_of_toRat? hx
  obtain ⟨t, n, f, hn, rfl, hzero⟩ := exists_of_toRat? hy
  obtain rfl : n = 0 := by
    have hpow : (2 : ℚ) ^ f ≠ 0 := zpow_ne_zero f two_ne_zero
    cases t <;> simpa [hpow] using hzero.symm
  have hdiv : finite s m e hm / finite t 0 f hn = if m = 0 then nan else infinite (s ^^ t) := rfl
  apply refuses_of_not_isValid
  rw [Operator.apply, hdiv]
  split <;> simp [Binary64.floor, Value.isValid, within]

theorem pushes_floorDiv (hx : x.toRat? = some (l : ℚ)) (hy : y.toRat? = some (r : ℚ)) (hl : |l| ≤ 2 ^ 53 - 1)
    (hr : |r| ≤ 2 ^ 53 - 1) (hr0 : r ≠ 0) : Pushes .floorDiv x y ⌊(l : ℚ) / r⌋ := by
  have hrounds : RoundsTo (l / r) (x / y) := roundsTo_div hx hy (by exact_mod_cast hr0)
  obtain ⟨v, hv, hfloor⟩ := hrounds.floor_ratio (by omega) (by omega) hr0
  have hquotient : |(l : ℚ) / r| ≤ |l| := by
    have hone : 1 ≤ |(r : ℚ)| := by exact_mod_cast Int.one_le_abs hr0
    rw [abs_div, Int.cast_abs]
    exact div_le_self (abs_nonneg _) hone
  obtain ⟨hlow, hhigh⟩ := abs_le.1 hquotient
  have hbound : |⌊(l : ℚ) / r⌋| ≤ |l| := by
    rw [abs_le, Int.le_floor]
    push_cast at hlow ⊢
    refine ⟨hlow, ?_⟩
    have := (Int.floor_le ((l : ℚ) / r)).trans hhigh
    exact_mod_cast this
  apply pushes_of_toRat? _ (hbound.trans hl)
  rw [Operator.apply, toRat?_floor hv, hfloor]

/-- Integers within the bound are added, subtracted and multiplied exactly or not at all, and their quotient has exactly
the floor that it has without rounding. -/
theorem integers_exact (hx : x.toRat? = some (l : ℚ)) (hy : y.toRat? = some (r : ℚ)) (hl : |l| ≤ 2 ^ 53 - 1)
    (hr : |r| ≤ 2 ^ 53 - 1) :
    (if |l + r| ≤ 2 ^ 53 - 1 then Pushes .add x y (l + r) else Refuses .add x y) ∧
      (if |l - r| ≤ 2 ^ 53 - 1 then Pushes .sub x y (l - r) else Refuses .sub x y) ∧
      (if |l * r| ≤ 2 ^ 53 - 1 then Pushes .mul x y (l * r) else Refuses .mul x y) ∧
      (if r = 0 then Refuses .floorDiv x y else Pushes .floorDiv x y ⌊(l : ℚ) / r⌋) := by
  have hadd : RoundsTo ((l + r : ℤ) : ℚ) (x + y) := by
    push_cast
    exact roundsTo_add hx hy
  have hsub : RoundsTo ((l - r : ℤ) : ℚ) (x - y) := by
    push_cast
    exact roundsTo_sub hx hy
  have hmul : RoundsTo ((l * r : ℤ) : ℚ) (x * y) := by
    push_cast
    exact roundsTo_mul hx hy
  have hproduct : |l * r| < 2 ^ 106 := by
    rw [abs_mul]
    exact lt_of_le_of_lt (mul_le_mul hl hr (abs_nonneg r) (by norm_num)) (by norm_num)
  have hsum := abs_add_le l r
  have hdifference := abs_sub l r
  refine ⟨checked_of_roundsTo hadd (by omega), checked_of_roundsTo hsub (by omega),
    checked_of_roundsTo hmul hproduct, ?_⟩
  split
  case isTrue hr0 =>
    subst hr0
    exact refuses_floorDiv_zero hx (by simpa using hy)
  case isFalse hr0 => exact pushes_floorDiv hx hy hl hr hr0

/-- The quotient lies below `-1` by hardly more than half a step between two numbers. By half a step it would be rounded
to `-1`. -/
theorem integers_exact_extremes :
    (ofInt (-9007199254740991)).toRat? = some ((-9007199254740991 : ℤ) : ℚ) ∧
      (ofInt 9007199254740990).toRat? = some ((9007199254740990 : ℤ) : ℚ) ∧
      Pushes .add (ofInt (-9007199254740991)) (ofInt 9007199254740990) (-1) ∧
      Refuses .sub (ofInt (-9007199254740991)) (ofInt 9007199254740990) ∧
      Refuses .mul (ofInt (-9007199254740991)) (ofInt 9007199254740990) ∧
      Pushes .floorDiv (ofInt (-9007199254740991)) (ofInt 9007199254740990) (-2) := by
  have hleft : (ofInt (-9007199254740991)).toRat? = some ((-9007199254740991 : ℤ) : ℚ) :=
    (roundsTo_ofInt _).exact (by norm_num)
  have hright : (ofInt 9007199254740990).toRat? = some ((9007199254740990 : ℤ) : ℚ) :=
    (roundsTo_ofInt _).exact (by norm_num)
  obtain ⟨hadd, hsub, hmul, hdiv⟩ := integers_exact hleft hright (by norm_num) (by norm_num)
  have hfloor : ⌊((-9007199254740991 : ℤ) : ℚ) / (9007199254740990 : ℤ)⌋ = -2 := by norm_num [Int.floor_eq_iff]
  rw [if_pos (by norm_num)] at hadd
  rw [if_neg (by norm_num)] at hsub hmul hdiv
  rw [hfloor] at hdiv
  exact ⟨hleft, hright, hadd, hsub, hmul, hdiv⟩

end Trellis.Operands
