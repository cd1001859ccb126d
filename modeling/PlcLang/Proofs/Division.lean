import Mathlib.Algebra.Order.Round
import Mathlib.Data.Rat.Floor
import Mathlib.Tactic.FieldSimp
import Mathlib.Tactic.Ring
import PlcLang.Execution.Arithmetic
import PlcLang.Proofs.DecimalValue

namespace PlcLang

theorem truncDiv_eq_tdiv (a b : Int) : truncDiv a b = a.tdiv b := by
  have hquotient : ((a.natAbs / b.natAbs : Nat) : Int) = |a.tdiv b| := by
    rw [Int.abs_eq_natAbs, Int.natAbs_tdiv]
    rfl
  unfold truncDiv
  rw [hquotient]
  rcases lt_or_ge a 0 with ha | ha <;> rcases lt_or_ge b 0 with hb | hb
  · have hsign := Int.tdiv_nonneg_of_nonpos_of_nonpos ha.le hb.le
    simp [ha, hb, abs_of_nonneg hsign]
  · have hsign := Int.tdiv_nonneg (neg_nonneg.mpr ha.le) hb
    rw [Int.neg_tdiv] at hsign
    simp [ha, hb.not_gt, abs_of_nonpos (neg_nonneg.mp hsign)]
  · have hsign := Int.tdiv_nonpos_of_nonneg_of_nonpos ha hb.le
    simp [ha.not_gt, hb, abs_of_nonpos hsign]
  · have hsign := Int.tdiv_nonneg ha hb
    simp [ha.not_gt, hb.not_gt, abs_of_nonneg hsign]

/-- What `q` times `b` leaves of `a` is smaller than `b`, and on the same side of zero as `a`. -/
structure TruncQuotient (a b q : Int) : Prop where
  small : |a - q * b| < |b|
  side : a - q * b = 0 ∨ (a - q * b).sign = a.sign

theorem truncQuotient_truncDiv {a b : Int} (hb : b ≠ 0) : TruncQuotient a b (truncDiv a b) := by
  have hrest : a - truncDiv a b * b = a.tmod b := by
    rw [Int.tmod_def, truncDiv_eq_tdiv, mul_comm]
  constructor
  · rw [hrest, Int.abs_eq_natAbs, Int.abs_eq_natAbs, Int.natAbs_tmod, Int.ofNat_lt]
    exact Nat.mod_lt _ (Int.natAbs_pos.mpr hb)
  · rw [hrest, ← Int.sign_eq_zero_iff_zero, Int.sign_tmod]
    split
    · exact .inl rfl
    · exact .inr rfl

theorem TruncQuotient.eq_truncDiv {a b q : Int} (h : TruncQuotient a b q) (hb : b ≠ 0) :
    q = truncDiv a b := by
  rw [truncDiv_eq_tdiv]
  have hsum : a - q * b + b * q = a := by ring
  have hsmall := abs_lt.mp h.small
  rw [Int.abs_eq_natAbs b] at hsmall
  rcases le_total 0 a with ha | ha
  · have hrest : 0 ≤ a - q * b := by
      rcases h.side with hzero | hside
      · exact hzero.ge
      · exact Int.sign_nonneg_iff.mp (hside ▸ Int.sign_nonneg_iff.mpr ha)
    exact ((Int.tdiv_tmod_unique ha hb).mpr ⟨hsum, hrest, hsmall.2⟩).1.symm
  · have hrest : a - q * b ≤ 0 := by
      rcases h.side with hzero | hside
      · exact hzero.le
      · exact Int.sign_nonpos_iff.mp (hside ▸ Int.sign_nonpos_iff.mpr ha)
    exact ((Int.tdiv_tmod_unique' ha hb).mpr ⟨hsum, hsmall.1, hrest⟩).1.symm

/-- The integer nearest to a number, the even one where two are equally near. -/
structure NearestEven (x : ℚ) (c : Int) : Prop where
  nearest : ∀ n : Int, |x - c| ≤ |x - n|
  even : ∀ n : Int, n ≠ c → |x - n| = |x - c| → Even c

namespace NearestEven

variable {x : ℚ} {c d : Int}

theorem gap_le (x : ℚ) (c n : Int) : ((|c - n| : Int) : ℚ) ≤ |x - c| + |x - n| := by
  have htriangle := abs_sub_le (c : ℚ) x n
  rw [abs_sub_comm (c : ℚ) x] at htriangle
  exact_mod_cast htriangle

/-- An integer at most one half away is nearest; only at one half can another be as near. -/
theorem of_error (hle : |x - c| ≤ 1 / 2) (heven : |x - c| = 1 / 2 → Even c) : NearestEven x c := by
  have hother {n : Int} (hn : n ≠ c) : 1 ≤ |x - c| + |x - n| := by
    have hone : ((1 : Int) : ℚ) ≤ (|c - n| : Int) :=
      Int.cast_le.mpr (Int.one_le_abs (sub_ne_zero.mpr hn.symm))
    exact le_trans (by exact_mod_cast hone) (gap_le x c n)
  constructor
  · intro n
    by_cases hn : n = c
    · rw [hn]
    · linarith [hother hn]
  · intro n hn heq
    apply heven
    linarith [hother hn]

theorem neg (h : NearestEven x c) : NearestEven (-x) (-c) := by
  have hflip (n : Int) : |-x - n| = |x - (-n : Int)| := by
    rw [← abs_neg, neg_sub', neg_neg, Int.cast_neg]
  constructor
  · intro n
    rw [hflip, hflip, neg_neg]
    exact h.nearest (-n)
  · intro n hn heq
    rw [hflip, hflip, neg_neg] at heq
    exact (h.even (-n) (fun hc => hn (by omega)) heq).neg

/-- Of two that are equally near both would have to be even, and then an integer between them is
nearer. -/
theorem unique (hc : NearestEven x c) (hd : NearestEven x d) : c = d := by
  by_contra hne
  have heq : |x - c| = |x - d| := le_antisymm (hc.nearest d) (hd.nearest c)
  have hceven := hc.even d (Ne.symm hne) heq.symm
  have hdeven := hd.even c hne heq
  have hgap : (2 : Int) ≤ |c - d| :=
    Int.le_of_dvd (abs_pos.mpr (sub_ne_zero.mpr hne)) ((dvd_abs _ _).mpr (hceven.sub hdeven).two_dvd)
  have hfar : ((2 : Int) : ℚ) ≤ |x - c| + |x - d| := le_trans (Int.cast_le.mpr hgap) (gap_le x c d)
  have hnear := le_trans (hc.nearest (round x)) (abs_sub_round x)
  push_cast at hfar
  linarith

end NearestEven

theorem roundHalfEven_error {n d : Nat} (hd : 0 < d) :
    2 * |(n : Int) - roundHalfEven n d * d| ≤ d ∧
      (2 * |(n : Int) - roundHalfEven n d * d| = d → roundHalfEven n d % 2 = 0) := by
  have hsum : (n : Int) = (n / d : Nat) * d + (n % d : Nat) := by
    exact_mod_cast (Nat.div_add_mod' n d).symm
  have hless := Nat.mod_lt n hd
  unfold roundHalfEven
  dsimp only
  generalize n / d = q at *
  generalize n % d = r at *
  have hdown : |(n : Int) - q * d| = r := by
    rw [hsum, add_sub_cancel_left, abs_of_nonneg (Int.natCast_nonneg r)]
  have hup : |(n : Int) - (q + 1 : Nat) * d| = d - r := by
    rw [hsum, Int.natCast_add, Int.natCast_one, add_mul, one_mul, add_sub_add_left_eq_sub,
      abs_of_nonpos (by omega), neg_sub]
  split_ifs
  · rw [hdown]
    omega
  · rw [hup]
    omega
  · rw [hdown]
    omega
  · rw [hup]
    omega

theorem nearestEven_roundHalfEven {n d : Nat} (hd : 0 < d) :
    NearestEven ((n : ℚ) / d) (roundHalfEven n d) := by
  obtain ⟨hle, heven⟩ := roundHalfEven_error (n := n) hd
  have hpos : (0 : ℚ) < d := Nat.cast_pos.mpr hd
  have hscaled : |(n : ℚ) / d - (roundHalfEven n d : Int)| =
      (|(n : Int) - roundHalfEven n d * d| : Int) / d := by
    rw [Int.cast_abs, ← abs_of_pos hpos, ← abs_div, abs_of_pos hpos]
    congr 1
    push_cast
    field_simp
  apply NearestEven.of_error
  · rw [hscaled, div_le_div_iff₀ hpos two_pos, one_mul, mul_comm]
    exact_mod_cast hle
  · intro heq
    rw [hscaled, div_eq_div_iff hpos.ne' two_ne_zero, one_mul, mul_comm] at heq
    exact (Int.even_coe_nat _).mpr (Nat.even_iff.mpr (heven (by exact_mod_cast heq)))

namespace Decimal

variable {a b : Decimal}

theorem tenPow_toNat (e : Int) :
    ((tenPow e.toNat : Nat) : ℚ) / (tenPow (-e).toNat : Nat) = (10 : ℚ) ^ e := by
  rw [tenPow_cast, tenPow_cast, ← zpow_sub₀ (by norm_num : (10 : ℚ) ≠ 0)]
  congr 1
  omega

theorem quotient_eq (hb : b.isZero = false) :
    a.value / b.value / (10 : ℚ) ^ a.exponent =
      (if a.negative = b.negative then 1 else -1) *
        ((scaleUp a.coefficient (-b.exponent).toNat : Nat) /
          (scaleUp b.coefficient b.exponent.toNat : Nat)) := by
  have hdivisor : (b.coefficient : ℚ) ≠ 0 := by
    simpa [isZero] using hb
  have hup : ((tenPow b.exponent.toNat : Nat) : ℚ) ≠ 0 := Nat.cast_ne_zero.mpr (tenPow_pos _).ne'
  have hdown : ((tenPow (-b.exponent).toNat : Nat) : ℚ) ≠ 0 :=
    Nat.cast_ne_zero.mpr (tenPow_pos _).ne'
  have hten : (10 : ℚ) ^ a.exponent ≠ 0 := zpow_ne_zero _ (by norm_num)
  rw [scaleUp_eq, scaleUp_eq, Nat.cast_mul, Nat.cast_mul, value, value, ← tenPow_toNat b.exponent]
  cases ha : a.negative <;> cases hb : b.negative <;> simp [signed, ha, hb] <;> field_simp

theorem signed_div (a b : Decimal) :
    (a.div b).signed = (if a.negative = b.negative then 1 else -1) *
      (roundHalfEven (scaleUp a.coefficient (-b.exponent).toNat)
        (scaleUp b.coefficient b.exponent.toNat) : Int) := by
  unfold div signed
  dsimp only
  generalize roundHalfEven _ _ = q
  by_cases hsign : a.negative = b.negative <;> by_cases hq : q = 0 <;> simp [hsign, hq]

theorem nearestEven_div (a : Decimal) (hb : b.isZero = false) :
    NearestEven (a.value / b.value / (10 : ℚ) ^ a.exponent) (a.div b).signed := by
  have hdivisor : 0 < scaleUp b.coefficient b.exponent.toNat := by
    rw [scaleUp_eq]
    exact Nat.mul_pos (Nat.pos_of_ne_zero (by simpa [isZero] using hb)) (tenPow_pos _)
  have hnearest := nearestEven_roundHalfEven (n := scaleUp a.coefficient (-b.exponent).toNat) hdivisor
  rw [quotient_eq hb, signed_div]
  split_ifs
  · rwa [one_mul, one_mul]
  · rw [neg_one_mul, neg_one_mul]
    exact hnearest.neg

end Decimal

namespace BinOp

/-- Where the divisor is not zero, there is a quotient. That of two integers is the only one that
leaves less than the divisor, on the side of the dividend. That of two decimals has the digits of the
dividend behind the point, and its coefficient is the integer nearest to the exact one, or the even
one of two; it is no negative zero. -/
theorem divisions_rounded :
    (∀ a b : Int, b ≠ 0 → ∃ q, div.integers a b = .ok q ∧
      ∀ p, TruncQuotient a b p ↔ p = q) ∧
    ∀ a b : Decimal, b.isZero = false → ∃ q, div.decimals a b = .ok q ∧
      q.exponent = a.exponent ∧ (q.isZero = true → q.negative = false) ∧
      ∀ c, NearestEven (a.value / b.value / (10 : ℚ) ^ a.exponent) c ↔ c = q.signed := by
  constructor
  · intro a b hb
    refine ⟨truncDiv a b, ?_, ?_⟩
    · simp only [integers, if_neg hb]
      rfl
    · intro p
      constructor
      · exact fun hp => hp.eq_truncDiv hb
      · rintro rfl
        exact truncQuotient_truncDiv hb
  · intro a b hb
    have hnearest := Decimal.nearestEven_div a hb
    refine ⟨a.div b, ?_, rfl, ?_, ?_⟩
    · simp only [decimals, hb]
      rfl
    · intro hzero
      simp only [Decimal.isZero, beq_iff_eq] at hzero
      simp only [Decimal.div] at hzero ⊢
      simp [hzero]
    · intro c
      constructor
      · exact fun hc => hc.unique hnearest
      · rintro rfl
        exact hnearest

/-- The exact quotients are -3.5, of which the fraction goes, and -0.25, which lies in the middle. -/
theorem negative_halves_rounded :
    div.integers (-7) 2 = .ok (-3) ∧ (∀ p, TruncQuotient (-7) 2 p ↔ p = -3) ∧
    div.decimals ⟨true, 5, -1⟩ ⟨false, 2, 0⟩ = .ok ⟨true, 2, -1⟩ ∧
    ∀ c, NearestEven ((⟨true, 5, -1⟩ : Decimal).value / (⟨false, 2, 0⟩ : Decimal).value /
      (10 : ℚ) ^ (-1 : Int)) c ↔ c = -2 := by
  obtain ⟨q, hq, htrunc⟩ := divisions_rounded.1 (-7) 2 (by decide)
  obtain ⟨d, hd, -, -, hnearest⟩ :=
    divisions_rounded.2 ⟨true, 5, -1⟩ ⟨false, 2, 0⟩ (by decide)
  cases hq
  cases hd
  exact ⟨rfl, htrunc, rfl, hnearest⟩

end BinOp

end PlcLang
