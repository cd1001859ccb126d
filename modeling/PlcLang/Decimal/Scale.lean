namespace PlcLang

def tenPow (n : Nat) : Nat := Nat.pow 10 n

theorem tenPow_pos (k : Nat) : 0 < tenPow k := Nat.pow_pos (by decide)

theorem lt_tenPow_of_log2_lt {n k : Nat} (h : n.log2 < k) : n < tenPow k :=
  Nat.lt_of_lt_of_le Nat.lt_log2_self
    (Nat.le_trans (Nat.pow_le_pow_right (by decide) h) (Nat.pow_le_pow_left (by decide) k))

def scaleUp (n k : Nat) : Nat := if n = 0 then 0 else n * tenPow k

theorem scaleUp_eq (n k : Nat) : scaleUp n k = n * tenPow k := by
  unfold scaleUp
  split
  · next h => rw [h, Nat.zero_mul]
  · rfl

def scaleDown (n k : Nat) : Nat := if n.log2 < k then 0 else n / tenPow k

theorem scaleDown_eq (n k : Nat) : scaleDown n k = n / tenPow k := by
  unfold scaleDown
  split
  · next h => exact (Nat.div_eq_of_lt (lt_tenPow_of_log2_lt h)).symm
  · rfl

def scaledLt (n k m : Nat) : Bool :=
  if n = 0 then decide (0 < m) else if m.log2 < k then false else decide (n * tenPow k < m)

theorem scaledLt_iff (n k m : Nat) : scaledLt n k m = true ↔ n * tenPow k < m := by
  unfold scaledLt
  split
  · next h => rw [h, Nat.zero_mul, decide_eq_true_iff]
  · next hn =>
    split
    · next h =>
      have hm := lt_tenPow_of_log2_lt h
      have hle := Nat.le_mul_of_pos_left (tenPow k) (Nat.pos_of_ne_zero hn)
      constructor
      · intro hf; exact absurd hf Bool.false_ne_true
      · intro hl; omega
    · exact decide_eq_true_iff

/-- The nearest natural number to `n / d`, the even one of two equally near. -/
def roundHalfEven (n d : Nat) : Nat :=
  let q := n / d
  let r := n % d
  if 2 * r < d then q
  else if d < 2 * r then q + 1
  else if q % 2 = 0 then q else q + 1

end PlcLang
