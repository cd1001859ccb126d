import PlcLang.Proofs.DecimalValue
import PlcLang.Proofs.RunValues

namespace PlcLang

namespace Decimal

theorem ofSigned_value (n e : Int) (negativeZero : Bool) :
    (ofSigned n e negativeZero).value = n * (10 : ℚ) ^ e := by
  have hsigned : (ofSigned n e negativeZero).signed = n := by
    by_cases hzero : n = 0
    · simp [ofSigned, signed, hzero]
    · simp only [ofSigned, signed, if_neg hzero, decide_eq_true_eq]
      split_ifs <;> omega
  rw [value, hsigned]
  rfl

theorem neg_value (a : Decimal) : a.neg.value = -a.value := by
  have hsigned : a.neg.signed = -a.signed := by
    cases h : a.negative <;> simp [neg, signed, h]
  rw [value, hsigned, Int.cast_neg, neg_mul]
  rfl

theorem add_value (a b : Decimal) : (a.add b).value = a.value + b.value := by
  have ha := signedAt_mul a (min_le_left a.exponent b.exponent)
  have hb := signedAt_mul b (min_le_right a.exponent b.exponent)
  rw [add, ofSigned_value, Int.cast_add, add_mul, ha, hb]

theorem sub_value (a b : Decimal) : (a.sub b).value = a.value - b.value := by
  rw [sub, add_value, neg_value, sub_eq_add_neg]

theorem mul_value (a b : Decimal) : (a.mul b).value = a.value * b.value := by
  have hsigned : (a.mul b).signed = a.signed * b.signed := by
    cases ha : a.negative <;> cases hb : b.negative <;> simp [mul, signed, ha, hb]
  have hexponent : (a.mul b).exponent = a.exponent + b.exponent := rfl
  rw [value, hsigned, hexponent, zpow_add₀ (by norm_num), Int.cast_mul, value, value,
    mul_mul_mul_comm]

theorem lt_iff_value (a b : Decimal) : a.lt b = true ↔ a.value < b.value := by
  have hp : (0 : ℚ) < (10 : ℚ) ^ (min a.exponent b.exponent) := by positivity
  have ha := signedAt_mul a (min_le_left a.exponent b.exponent)
  have hb := signedAt_mul b (min_le_right a.exponent b.exponent)
  rw [lt_iff, ← ha, ← hb, mul_lt_mul_iff_left₀ hp, Int.cast_lt]

/-- At one scale the numbers are equal if the signed coefficients are, which leaves out the sign of a
zero. -/
theorem same_iff_value (a b : Decimal) :
    a.same b = true ↔ a.value = b.value ∧ a.exponent = b.exponent := by
  have hp : (10 : ℚ) ^ b.exponent ≠ 0 := zpow_ne_zero _ (by norm_num)
  rw [same_iff]
  refine and_congr_left fun hexponent => ?_
  rw [value, value, hexponent, mul_left_inj' hp, Int.cast_inj]

end Decimal

namespace Expr

variable {rounds depth scope : Nat} {left right : Expr} {v w : Value} {s t u : Store}

theorem eval_strict {op : BinOp} (hand : op ≠ .and) (hor : op ≠ .or) (info : Info)
    (hleft : left.eval rounds depth scope s = (.ok v, t))
    (hright : right.eval rounds depth scope t = (.ok w, u)) :
    Expr.eval rounds (depth + 1) scope (.binary info op left right) s =
      Run.operate depth info.offset op v w u := by
  have hstrict : Expr.eval rounds (depth + 1) scope (.binary info op left right) = (do
      let v ← left.eval rounds depth scope
      let w ← right.eval rounds depth scope
      Run.operate depth info.offset op v w) := by
    cases op with
    | and => exact absurd rfl hand
    | or => exact absurd rfl hor
    | _ => simp only [Expr.eval]
  rw [hstrict, Run.bind_apply, hleft]
  change (right.eval rounds depth scope >>= _) t = _
  rw [Run.bind_apply, hright]
  rfl

theorem eval_depth_pos {e : Expr} (h : e.eval rounds depth scope s = (.ok v, t)) :
    ∃ n, depth = n + 1 := by
  cases depth with
  | zero =>
      rw [Expr.eval] at h
      cases h
  | succ n => exact ⟨n, rfl⟩

end Expr

namespace Decimal

/-- The operators make of two decimals what they make of the numbers that these stand for, and leave
the store so. -/
structure Exact (a b : Decimal) (result : BinOp → Except Stop Value × Store) (s : Store) :
    Prop where
  sum : ∃ c, result .add = (.ok (.decimal c), s) ∧ c.value = a.value + b.value ∧
    c.exponent = min a.exponent b.exponent
  difference : ∃ c, result .sub = (.ok (.decimal c), s) ∧ c.value = a.value - b.value ∧
    c.exponent = min a.exponent b.exponent
  product : ∃ c, result .mul = (.ok (.decimal c), s) ∧ c.value = a.value * b.value ∧
    c.exponent = a.exponent + b.exponent
  less : result .lt = (.ok (.boolean (a.value < b.value)), s)
  greater : result .gt = (.ok (.boolean (b.value < a.value)), s)
  /-- One number is below the other, or they are one number, and only one of these holds. -/
  order : ∃ o : Ordering, result .lt = (.ok (.boolean (o = .lt)), s) ∧
    result .gt = (.ok (.boolean (o = .gt)), s) ∧ (a.value = b.value ↔ o = .eq)
  equal : result .eq = (.ok (.boolean (a.value = b.value ∧ a.exponent = b.exponent)), s)

variable {a b : Decimal} {result result' : BinOp → Except Stop Value × Store} {s : Store}

theorem Exact.congr (h : a.Exact b result s)
    (heq : ∀ op, op ≠ .and → op ≠ .or → result' op = result op) : a.Exact b result' s where
  sum := heq .add nofun nofun ▸ h.sum
  difference := heq .sub nofun nofun ▸ h.difference
  product := heq .mul nofun nofun ▸ h.product
  less := (heq .lt nofun nofun).trans h.less
  greater := (heq .gt nofun nofun).trans h.greater
  order := by
    rw [heq .lt nofun nofun, heq .gt nofun nofun]
    exact h.order
  equal := (heq .eq nofun nofun).trans h.equal

theorem exact_operate (a b : Decimal) (depth offset : Nat) (s : Store) :
    a.Exact b (fun op => Run.operate (depth + 1) offset op (.decimal a) (.decimal b) s) s := by
  have hless (c d : Decimal) : c.lt d = decide (c.value < d.value) := by
    rw [Bool.eq_iff_iff, lt_iff_value, decide_eq_true_iff]
  have hlt : Run.operate (depth + 1) offset .lt (.decimal a) (.decimal b) s =
      (.ok (.boolean (a.value < b.value)), s) := by
    rw [← hless]
    rfl
  have hgt : Run.operate (depth + 1) offset .gt (.decimal a) (.decimal b) s =
      (.ok (.boolean (b.value < a.value)), s) := by
    rw [← hless]
    rfl
  refine ⟨⟨a.add b, rfl, add_value a b, rfl⟩, ⟨a.sub b, rfl, sub_value a b, rfl⟩,
    ⟨a.mul b, rfl, mul_value a b, rfl⟩, hlt, hgt, ⟨compare a.value b.value, ?_, ?_, ?_⟩, ?_⟩
  · simp only [hlt, compare_lt_iff_lt]
  · simp only [hgt, compare_gt_iff_gt]
  · exact compare_eq_iff_eq.symm
  · have hequal : a.same b = decide (a.value = b.value ∧ a.exponent = b.exponent) := by
      rw [Bool.eq_iff_iff, same_iff_value, decide_eq_true_iff]
    rw [← hequal]
    rfl

end Decimal

namespace BinOp

/-- On two decimals, `+`, `-` and `*` give the exact sum, difference and product, at the smaller
exponent or at the sum of both; `<` and `>` compare the numbers, and `==` the scales as well. So do the
expressions whose operands have these values. -/
theorem decimals_exact (a b : Decimal) :
    (∀ depth offset s,
      a.Exact b (fun op => Run.operate (depth + 1) offset op (.decimal a) (.decimal b) s) s) ∧
    ∀ rounds depth scope info left right s t u,
      Expr.eval rounds depth scope left s = (.ok (.decimal a), t) →
      Expr.eval rounds depth scope right t = (.ok (.decimal b), u) →
      a.Exact b (fun op => Expr.eval rounds (depth + 1) scope (.binary info op left right) s) u := by
  refine ⟨Decimal.exact_operate a b, ?_⟩
  intro rounds depth scope info left right s t u hleft hright
  obtain ⟨n, rfl⟩ := Expr.eval_depth_pos hleft
  refine (Decimal.exact_operate a b n info.offset u).congr fun op hand hor => ?_
  exact Expr.eval_strict hand hor info hleft hright

theorem zeros_exact :
    let half : Expr := .literal ⟨0, none⟩ (.decimal ⟨false, 5, -1⟩)
    let left : Expr := .literal ⟨0, none⟩ (.decimal ⟨true, 0, -1⟩)
    let right : Expr := .binary ⟨0, none⟩ .sub half half
    Expr.eval 0 2 Store.root left Store.initial = (.ok (.decimal ⟨true, 0, -1⟩), Store.initial) ∧
    Expr.eval 0 2 Store.root right Store.initial = (.ok (.decimal ⟨false, 0, -1⟩), Store.initial) ∧
    (⟨true, 0, -1⟩ : Decimal).Exact ⟨false, 0, -1⟩
      (fun op => Expr.eval 0 3 Store.root (.binary ⟨0, none⟩ op left right) Store.initial)
      Store.initial := by
  intro half left right
  have hleft : Expr.eval 0 2 Store.root left Store.initial =
      (.ok (.decimal ⟨true, 0, -1⟩), Store.initial) := rfl
  have hright : Expr.eval 0 2 Store.root right Store.initial =
      (.ok (.decimal ⟨false, 0, -1⟩), Store.initial) := rfl
  have hexact := (decimals_exact _ _).2 0 2 Store.root ⟨0, none⟩ left right _ _ _ hleft hright
  exact ⟨hleft, hright, hexact⟩

end BinOp

end PlcLang
