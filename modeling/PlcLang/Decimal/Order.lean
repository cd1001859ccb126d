import PlcLang.Decimal

namespace PlcLang.Decimal

theorem abs_signedAt (a : Decimal) (e : Int) :
    a.abs.signedAt e = (a.coefficient * tenPow (a.exponent - e).toNat : Nat) := by
  simp [abs, signedAt, scaleUp_eq]

theorem abs_signedAt_self (a : Decimal) : a.abs.signedAt a.exponent = a.coefficient := by
  rw [abs_signedAt, Int.sub_self]
  exact congrArg Int.ofNat (Nat.mul_one _)

theorem signedAt_of_negative {a : Decimal} (h : a.negative = true) (e : Int) :
    a.signedAt e = -a.abs.signedAt e := by
  simp [abs, signedAt, h]

theorem signedAt_of_not_negative {a : Decimal} (h : a.negative = false) (e : Int) :
    a.signedAt e = a.abs.signedAt e := by
  simp [abs, signedAt, h]

theorem absLt_iff (a b : Decimal) :
    a.absLt b = true ↔
      a.abs.signedAt (min a.exponent b.exponent) < b.abs.signedAt (min a.exponent b.exponent) := by
  unfold absLt
  by_cases h : b.exponent ≤ a.exponent
  · rw [if_pos h, Int.min_eq_right h, abs_signedAt_self, abs_signedAt, scaledLt_iff]
    exact Int.ofNat_lt.symm
  · have hle : a.exponent ≤ b.exponent := by omega
    rw [if_neg h, Int.min_eq_left hle, abs_signedAt_self, abs_signedAt, Bool.not_eq_true',
      ← Bool.not_eq_true, scaledLt_iff, Int.ofNat_lt]
    omega

theorem abs_signedAt_nonneg (a : Decimal) (e : Int) : 0 ≤ a.abs.signedAt e := by
  rw [abs_signedAt]
  exact Int.natCast_nonneg _

theorem abs_signedAt_eq_zero_iff (a : Decimal) (e : Int) :
    a.abs.signedAt e = 0 ↔ a.isZero = true := by
  have hp := tenPow_pos (a.exponent - e).toNat
  rw [abs_signedAt, isZero, beq_iff_eq, Int.natCast_eq_zero, Nat.mul_eq_zero]
  omega

theorem lt_iff (a b : Decimal) :
    a.lt b = true ↔
      a.signedAt (min a.exponent b.exponent) < b.signedAt (min a.exponent b.exponent) := by
  have ha := abs_signedAt_nonneg a (min a.exponent b.exponent)
  have hb := abs_signedAt_nonneg b (min a.exponent b.exponent)
  unfold lt
  cases hna : a.negative <;> cases hnb : b.negative
  · rw [signedAt_of_not_negative hna, signedAt_of_not_negative hnb]
    exact absLt_iff a b
  · rw [signedAt_of_not_negative hna, signedAt_of_negative hnb]
    constructor
    · intro hf
      exact absurd hf Bool.false_ne_true
    · intro hlt
      omega
  · rw [signedAt_of_negative hna, signedAt_of_not_negative hnb]
    have hza := abs_signedAt_eq_zero_iff a (min a.exponent b.exponent)
    have hzb := abs_signedAt_eq_zero_iff b (min a.exponent b.exponent)
    cases hia : a.isZero <;> cases hib : b.isZero <;> simp_all <;> omega
  · rw [signedAt_of_negative hna, signedAt_of_negative hnb, Int.neg_lt_neg_iff]
    have h := absLt_iff b a
    rwa [Int.min_comm] at h

end PlcLang.Decimal
