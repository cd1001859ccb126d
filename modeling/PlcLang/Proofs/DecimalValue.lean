import Mathlib.Algebra.Order.Field.Power
import Mathlib.Data.Rat.Cast.Order
import Mathlib.Tactic.Linarith
import PlcLang.Decimal.Order

namespace PlcLang.Decimal

def value (a : Decimal) : ℚ := a.signed * (10 : ℚ) ^ a.exponent

theorem signedAt_eq (a : Decimal) (e : Int) :
    a.signedAt e = a.signed * (tenPow (a.exponent - e).toNat : Int) := by
  cases h : a.negative <;> simp [signedAt, signed, scaleUp_eq, h]

theorem tenPow_cast (n : Nat) : ((tenPow n : Nat) : ℚ) = (10 : ℚ) ^ (n : Int) := by
  rw [tenPow, zpow_natCast, show Nat.pow 10 n = 10 ^ n from rfl]
  push_cast
  rfl

theorem signedAt_mul (a : Decimal) {e : Int} (he : e ≤ a.exponent) :
    (a.signedAt e : ℚ) * (10 : ℚ) ^ e = a.value := by
  have hsum : ((a.exponent - e).toNat : Int) + e = a.exponent := by omega
  rw [signedAt_eq, value, Int.cast_mul, Int.cast_natCast, tenPow_cast, mul_assoc,
    ← zpow_add₀ (by norm_num : (10 : ℚ) ≠ 0), hsum]

theorem value_eq_zero_iff (a : Decimal) : a.value = 0 ↔ a.isZero = true := by
  have hp : (10 : ℚ) ^ a.exponent ≠ 0 := zpow_ne_zero _ (by norm_num)
  rw [value, mul_eq_zero_iff_right hp, isZero, beq_iff_eq]
  cases h : a.negative <;> simp [signed, h]

theorem same_iff (a b : Decimal) :
    a.same b = true ↔ a.signed = b.signed ∧ a.exponent = b.exponent := by
  simp [same]

theorem value_of_same {a b : Decimal} (h : a.same b = true) : a.value = b.value := by
  obtain ⟨hsigned, hexponent⟩ := (same_iff a b).mp h
  rw [value, value, hsigned, hexponent]

theorem abs_value (a : Decimal) : a.abs.value = |a.value| := by
  have hp : (0 : ℚ) < (10 : ℚ) ^ a.exponent := by positivity
  have hc : (0 : ℚ) ≤ (a.coefficient : ℚ) := Nat.cast_nonneg _
  rw [value, value, abs_mul, abs_of_pos hp]
  cases h : a.negative <;> simp [abs, signed, h]

theorem absLt_iff_value (a b : Decimal) : a.absLt b = true ↔ |a.value| < |b.value| := by
  have hp : (0 : ℚ) < (10 : ℚ) ^ (min a.exponent b.exponent) := by positivity
  have ha := signedAt_mul a.abs (min_le_left a.exponent b.exponent)
  have hb := signedAt_mul b.abs (min_le_right a.exponent b.exponent)
  rw [absLt_iff, ← abs_value, ← abs_value, ← ha, ← hb, mul_lt_mul_iff_left₀ hp, Int.cast_lt]

theorem twoPow_sub_cast {m n : Nat} (h : n ≤ m) :
    ((Nat.pow 2 m - Nat.pow 2 n : Nat) : ℚ) = 2 ^ m - 2 ^ n := by
  have hle : Nat.pow 2 n ≤ Nat.pow 2 m := Nat.pow_le_pow_right (by decide) h
  have hcast (k : Nat) : ((Nat.pow 2 k : Nat) : ℚ) = 2 ^ k := by
    rw [show Nat.pow 2 k = 2 ^ k from rfl]
    push_cast
    rfl
  rw [Nat.cast_sub hle, hcast, hcast]

theorem value_of_natural (n : Nat) : (⟨false, n, 0⟩ : Decimal).value = n := by
  simp [value, signed]

/-- A number is in range when its distance to zero is below the first number that rounds to
infinity as a binary floating point number of 64 bits. -/
theorem inRange_iff (a : Decimal) : a.inRange = true ↔ |a.value| < 2 ^ 1024 - 2 ^ 970 := by
  have hover : (overflow : ℚ) = 2 ^ 1024 - 2 ^ 970 := by
    rw [overflow, twoPow_sub_cast (by decide)]
  have hlimit : |(⟨false, overflow, 0⟩ : Decimal).value| = (overflow : ℚ) := by
    rw [value_of_natural]
    exact abs_of_nonneg (Nat.cast_nonneg overflow)
  rw [inRange, absLt_iff_value, hlimit, hover]

end PlcLang.Decimal
