import PlcLang.Proofs.DecimalScale
import PlcLang.Proofs.DecimalValue
import PlcLang.Proofs.LiteralTexts

namespace PlcLang

open Lexeme

namespace Lexeme

variable {ds es : List Char}

theorem Whole.append (h : Whole ds) (hne : ds ≠ ['0']) (hes : ∀ c ∈ es, Digit c) :
    Whole (ds ++ es) := by
  cases h with
  | zero => exact absurd rfl hne
  | digits hd hzero hds =>
      exact .digits hd hzero (List.forall_mem_append.mpr ⟨hds, hes⟩)

theorem Whole.take (h : Whole ds) {k : Nat} (hk : 0 < k) : Whole (ds.take k) := by
  obtain ⟨k, rfl⟩ := Nat.exists_eq_succ_of_ne_zero hk.ne'
  cases h with
  | zero =>
      rw [List.take_of_length_le (by simp)]
      exact .zero
  | digits hd hzero hds => exact .digits hd hzero fun c hc => hds c (List.mem_of_mem_take hc)

theorem whole_digit {n : Nat} (h : n < 10) : Whole [n.digitChar] := by
  have hdigits : ∀ n < 10, n ≠ 0 → Digit n.digitChar ∧ n.digitChar ≠ '0' := by decide
  by_cases hzero : n = 0
  · rw [hzero]
    exact .zero
  · obtain ⟨hdigit, hne⟩ := hdigits n h hzero
    exact .digits hdigit hne (List.forall_mem_nil _)

theorem toDigits_eq_zero_iff {n : Nat} : Nat.toDigits 10 n = ['0'] ↔ n = 0 := by
  constructor
  · intro h
    rw [← Nat.ofDigitChars_ten_toDigits (n := n), h]
    rfl
  · rintro rfl
    exact Nat.toDigits_zero 10

theorem whole_toDigits (n : Nat) : Whole (Nat.toDigits 10 n) := by
  induction n using Nat.strong_induction_on with
  | _ n ih =>
      by_cases hlt : n < 10
      · rw [Nat.toDigits_of_lt_base hlt]
        exact whole_digit hlt
      · have hlast := whole_digit (Nat.mod_lt n (by decide : 10 > 0))
        rw [Nat.toDigits_of_base_le (by decide) (by omega)]
        refine (ih (n / 10) (by omega)).append ?_ hlast.digits_of.2
        rw [Ne, toDigits_eq_zero_iff]
        omega

theorem Whole.splitDigits (h : Whole ds) (n : Nat) : Whole (Decimal.splitDigits ds n).1 := by
  simp only [Decimal.splitDigits, List.splitAt_eq]
  by_cases hlt : n < ds.length
  · rw [show n + 1 - ds.length = 0 by omega, List.replicate_zero, List.nil_append]
    exact h.take (by omega)
  · obtain ⟨k, hk⟩ : ∃ k, n + 1 - ds.length = k + 1 := ⟨n - ds.length, by omega⟩
    have hone : (List.replicate (k + 1) '0' ++ ds).length - n = 1 := by
      rw [List.length_append, List.length_replicate]
      omega
    rw [hk, hone]
    exact .zero

theorem signedWhole_minus (negative : Bool) (h : Whole ds) :
    SignedWhole (Decimal.minus negative ++ ds) := by
  cases negative with
  | true => exact .negative h
  | false => exact .plain h

end Lexeme

namespace Decimal

variable {d : Decimal}

theorem whole_digits (d : Decimal) : Whole d.digits := by
  rw [digits_eq]
  exact whole_toDigits _

theorem natOfDigits_append_zeros (ds : List Char) (k : Nat) :
    natOfDigits (ds ++ List.replicate k '0') = natOfDigits ds * tenPow k := by
  have hzeros := @Nat.ofDigitChars_replicate_zero 10 (natOfDigits ds) k
  rw [mul_comm] at hzeros
  exact Nat.ofDigitChars_append 0 |>.trans hzeros

theorem truncate_of_whole (negative : Bool) (n : Nat) :
    (⟨negative, n, 0⟩ : Decimal).truncate = (⟨negative, n, 0⟩ : Decimal).signed := by
  have hscale : scaleUp n 0 = n := (scaleUp_eq n 0).trans (Nat.mul_one n)
  simp [truncate, signed, hscale]

/-- An exponent that is not below zero adds zeros to the digits, unless the number is zero. -/
def whole (d : Decimal) : List Char :=
  d.digits ++ List.replicate (if d.isZero then 0 else d.exponent.toNat) '0'

theorem whole_toList (h : 0 ≤ d.exponent) : d.positional.toList = minus d.negative ++ d.whole := by
  simp [positional, h, whole, minus, signText]

theorem isWhole (d : Decimal) : Whole d.whole := by
  unfold whole
  split
  · rw [List.replicate_zero, List.append_nil]
    exact d.whole_digits
  · next hzero =>
      refine d.whole_digits.append ?_ ?_
      · rw [digits_eq, Ne, toDigits_eq_zero_iff]
        simpa [isZero] using hzero
      · intro c hc
        rw [List.eq_of_mem_replicate hc]
        decide

theorem natOfDigits_whole (h : 0 ≤ d.exponent) :
    ((⟨d.negative, natOfDigits d.whole, 0⟩ : Decimal).signed : ℚ) = d.value := by
  have hexponent : (d.exponent.toNat : Int) = d.exponent := Int.toNat_of_nonneg h
  rw [whole, natOfDigits_append_zeros, natOfDigits_digits, value]
  cases hzero : d.isZero with
  | true =>
      have hcoefficient : d.coefficient = 0 := eq_of_beq hzero
      simp [signed, hcoefficient]
  | false =>
      have hten := tenPow_cast d.exponent.toNat
      rw [hexponent] at hten
      cases hnegative : d.negative <;> simp [signed, hnegative, hten]

def unsignedZero (d : Decimal) : Decimal := if d.isZero then d.abs else d

theorem toText_eq (d : Decimal) : d.toText = d.unsignedZero.positional := by
  unfold toText unsignedZero
  split <;> rfl

theorem unsignedZero_same (d : Decimal) : d.unsignedZero.same d = true := by
  rw [same_iff, unsignedZero]
  split
  · next hzero =>
      have hcoefficient : d.coefficient = 0 := eq_of_beq hzero
      simp [abs, signed, hcoefficient]
  · exact ⟨rfl, rfl⟩

end Decimal

theorem Literal.ReadBack.unique {v w : Literal} {kind kind' : TokenKind} {text : String}
    (hv : v.ReadBack kind text) (hw : w.ReadBack kind' text) : v = w := by
  cases hv.tree.symm.trans hw.tree
  rfl

theorem Value.integer_toList (n : Int) :
    (Value.integer n).scalarText.toList =
      Decimal.minus (decide (n < 0)) ++ Nat.toDigits 10 n.natAbs := by
  cases n with
  | ofNat m => exact Nat.toList_repr
  | negSucc m =>
      have hnegative : decide (Int.negSucc m < 0) = true := decide_eq_true (Int.negSucc_lt_zero m)
      rw [hnegative]
      change ("-" ++ (m + 1).repr).toList = '-' :: Nat.toDigits 10 (m + 1)
      rw [String.toList_append, Nat.toList_repr]
      rfl

namespace Literal

open Decimal

variable {d : Decimal} {text : String} {negative : Bool} {ds : List Char}

theorem readBack_of_whole (h : Whole ds) (htext : text.toList = minus negative ++ ds) :
    (integer (⟨negative, natOfDigits ds, 0⟩ : Decimal).signed).ReadBack .integer text := by
  have hspells : Spells ⟨.integer, text, 0⟩ _ := .integer rfl (ofText?_integer h htext)
  rw [truncate_of_whole] at hspells
  refine hspells.readBack ?_
  rw [htext]
  exact .integer (signedWhole_minus negative h) stops_nil

theorem integer_readBack (n : Int) :
    (integer n).ReadBack .integer (Value.integer n).scalarText := by
  have hread := readBack_of_whole (whole_toDigits _) (Value.integer_toList n)
  have hvalue : (⟨decide (n < 0), natOfDigits (Nat.toDigits 10 n.natAbs), 0⟩ : Decimal).signed = n := by
    have hdigits : natOfDigits (Nat.toDigits 10 n.natAbs) = n.natAbs := Nat.ofDigitChars_ten_toDigits
    simp only [signed, hdigits, decide_eq_true_eq]
    split_ifs <;> omega
  rwa [hvalue] at hread

theorem positional_readBack (h : d.exponent < 0) : (decimal d).ReadBack .decimal d.positional := by
  have hfractional : d.Fractional := by
    unfold Fractional
    omega
  have htext := positional_toList hfractional
  have hlength := (splitDigits_length d.digits (-d.exponent).toNat).2
  have hdigits := natOfDigits_splitDigits d (-d.exponent).toNat
  have hwhole := (whole_digits d).splitDigits (-d.exponent).toNat
  have hfraction : ∀ c ∈ (splitDigits d.digits (-d.exponent).toNat).2, Digit c := fun c hc =>
    digit_of_mem_splitDigits (List.mem_append_right _ hc)
  generalize (splitDigits d.digits (-d.exponent).toNat).1 = whole at *
  generalize (splitDigits d.digits (-d.exponent).toNat).2 = fraction at *
  have hread : ofText? d.positional = some d := by
    rw [ofText?_decimal hwhole htext hfraction, hdigits]
    congr
    omega
  refine Spells.readBack (.decimal rfl hread) ?_
  have hne : fraction ≠ [] := by
    rw [← List.length_pos_iff]
    omega
  rw [htext]
  exact .decimal (signedWhole_minus d.negative hwhole) hne hfraction stops_nil

theorem positional_readBack_integer (h : 0 ≤ d.exponent) :
    ∃ n : Int, (integer n).ReadBack .integer d.positional ∧ (n : ℚ) = d.value :=
  ⟨_, readBack_of_whole d.isWhole (whole_toList h), natOfDigits_whole h⟩

theorem text_readBack (h : d.exponent < 0) :
    (decimal d.unsignedZero).ReadBack .decimal (Value.decimal d).scalarText := by
  have hexponent := ((same_iff _ _).mp d.unsignedZero_same).2
  change ReadBack _ _ d.toText
  rw [toText_eq]
  exact positional_readBack (hexponent ▸ h)

theorem text_readBack_integer (h : 0 ≤ d.exponent) :
    ∃ n : Int, (integer n).ReadBack .integer (Value.decimal d).scalarText ∧ (n : ℚ) = d.value := by
  have hexponent := ((same_iff _ _).mp d.unsignedZero_same).2
  change ∃ n : Int, (integer n).ReadBack .integer d.toText ∧ _
  rw [toText_eq, ← value_of_same d.unsignedZero_same]
  exact positional_readBack_integer (hexponent ▸ h)

theorem same_of_text_eq {a b : Decimal} (ha : a.exponent < 0) (hb : b.exponent < 0)
    (h : (Value.decimal a).scalarText = (Value.decimal b).scalarText) : a.same b = true := by
  have hread := text_readBack ha
  rw [h] at hread
  have hliteral := hread.unique (text_readBack hb)
  have heq : a.unsignedZero = b.unsignedZero := by
    injection hliteral
  obtain ⟨hsigned, hexponent⟩ := (same_iff _ _).mp a.unsignedZero_same
  obtain ⟨hsigned', hexponent'⟩ := (same_iff _ _).mp b.unsignedZero_same
  rw [heq] at hsigned hexponent
  exact (same_iff a b).mpr ⟨hsigned.symm.trans hsigned', hexponent.symm.trans hexponent'⟩

/-- The text of a number is one numeral, which is read back as the number: an integer, and a decimal
with digits behind the point, the sign of a zero included where it is emitted and left out where it
is shown. A decimal without such digits has the text of the integer that it is. -/
theorem numbers_read_back :
    (∀ n : Int, (integer n).ReadBack .integer (Value.integer n).scalarText) ∧
    (∀ d : Decimal, d.exponent < 0 →
      (∃ text, (decimal d).java = .ok text ∧ (decimal d).ReadBack .decimal text) ∧
      ∃ c, (decimal c).ReadBack .decimal (Value.decimal d).scalarText ∧
        (Value.decimal c).scalarEqual (.decimal d) = true) ∧
    (∀ d : Decimal, 0 ≤ d.exponent → ∃ n : Int,
      (integer n).ReadBack .integer (Value.decimal d).scalarText ∧ (n : ℚ) = d.value) ∧
    ∀ a b : Decimal, a.exponent < 0 → b.exponent < 0 →
      (Value.decimal a).scalarText = (Value.decimal b).scalarText →
      (Value.decimal a).scalarEqual (.decimal b) = true := by
  refine ⟨integer_readBack, ?_, fun d h => text_readBack_integer h, ?_⟩
  · intro d h
    exact ⟨⟨_, rfl, positional_readBack h⟩, d.unsignedZero, text_readBack h, d.unsignedZero_same⟩
  · exact fun a b => same_of_text_eq

/-- A negative zero, a decimal shorter than its digits behind the point, and one with zeros in front
of the point. -/
theorem small_numbers_read_back :
    (integer (-20)).ReadBack .integer "-20" ∧
    (∃ text, (decimal ⟨true, 0, -2⟩).java = .ok text ∧
      (decimal ⟨true, 0, -2⟩).ReadBack .decimal text) ∧
    (∃ c, (decimal c).ReadBack .decimal "0.00" ∧
      (Value.decimal c).scalarEqual (.decimal ⟨true, 0, -2⟩) = true) ∧
    (∃ text, (decimal ⟨true, 15, -3⟩).java = .ok text ∧
      (decimal ⟨true, 15, -3⟩).ReadBack .decimal text) ∧
    (∃ n : Int, (integer n).ReadBack .integer "1200" ∧ (n : ℚ) = (⟨false, 12, 2⟩ : Decimal).value) ∧
    (Value.decimal ⟨false, 0, -1⟩).scalarEqual (.decimal ⟨true, 0, -1⟩) = true := by
  obtain ⟨hinteger, hdecimal, hwhole, htexts⟩ := numbers_read_back
  have hzero := (hdecimal ⟨true, 0, -2⟩ (by decide)).2
  have hshort := (hdecimal ⟨true, 15, -3⟩ (by decide)).1
  have hlong := hwhole ⟨false, 12, 2⟩ (by decide)
  have hzeroText : (Value.decimal ⟨true, 0, -2⟩).scalarText = "0.00" := rfl
  have hlongText : (Value.decimal ⟨false, 12, 2⟩).scalarText = "1200" := rfl
  rw [hzeroText] at hzero
  rw [hlongText] at hlong
  exact ⟨hinteger (-20), (hdecimal ⟨true, 0, -2⟩ (by decide)).1, hzero, hshort, hlong,
    htexts _ _ (by decide) (by decide) rfl⟩

end Literal

end PlcLang
