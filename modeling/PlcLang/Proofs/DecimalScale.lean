import PlcLang.Proofs.ReadableLiterals
import PlcLang.Value

namespace PlcLang

open Lexeme

namespace Decimal

variable {a b d : Decimal}

/-- The last digit of the number stands behind the point. -/
def Fractional (d : Decimal) : Prop := d.exponent ≤ -1

theorem Fractional.add (ha : a.Fractional) : (a.add b).Fractional :=
  Int.le_trans (Int.min_le_left a.exponent b.exponent) ha

theorem Fractional.sub (ha : a.Fractional) : (a.sub b).Fractional := ha.add

theorem Fractional.mul (ha : a.Fractional) (hb : b.Fractional) : (a.mul b).Fractional := by
  unfold Fractional at *
  change a.exponent + b.exponent ≤ -1
  omega

theorem Fractional.div (ha : a.Fractional) : (a.div b).Fractional := ha

theorem Fractional.of_numeral {text : String} (h : Is .decimal text.toList [])
    (hd : ofText? text = some d) : d.Fractional := by
  generalize hcs : text.toList = cs at h
  cases h with
  | @decimal ds fs _ hds hne hfs _ =>
      obtain ⟨negative, es, hes, rfl⟩ := hds.exists_minus
      cases (ofText?_decimal hes hcs hfs).symm.trans hd
      have hpos := List.length_pos_iff.mpr hne
      change -(fs.length : Int) ≤ -1
      omega

/-- Positional notation of the number, as digits before and behind the point: the digits of the
coefficient, with zeros in front of them if needed, as many behind the point as the exponent asks
for, and a minus in front of all if the number is below zero. -/
inductive Positional (d : Decimal) : List Char → Prop
  | mk {whole fraction : List Char} : whole ≠ [] → (∀ c ∈ whole ++ fraction, Digit c) →
      natOfDigits (whole ++ fraction) = d.coefficient → (fraction.length : Int) = -d.exponent →
      Positional d ((if d.isZero then [] else d.signText) ++ whole ++ '.' :: fraction)

theorem natOfDigits_zeros (n : Nat) (ds : List Char) :
    natOfDigits (List.replicate n '0' ++ ds) = natOfDigits ds := by
  induction n with
  | zero => rfl
  | succ n ih => exact ih

theorem digits_eq (d : Decimal) : d.digits = Nat.toDigits 10 d.coefficient := Nat.toList_repr

theorem natOfDigits_digits (d : Decimal) : natOfDigits d.digits = d.coefficient := by
  rw [digits_eq]
  exact Nat.ofDigitChars_toDigits (by decide) (by decide)

theorem digit_of_mem_digits {c : Char} (h : c ∈ d.digits) : Digit c := by
  rw [digits_eq] at h
  exact (isDigit_char_iff c).mp (Nat.isDigit_of_mem_toDigits (by decide) (by decide) h)

theorem splitDigits_append (ds : List Char) (n : Nat) :
    (splitDigits ds n).1 ++ (splitDigits ds n).2 = List.replicate (n + 1 - ds.length) '0' ++ ds := by
  simp only [splitDigits, List.splitAt_eq, List.take_append_drop]

theorem splitDigits_length (ds : List Char) (n : Nat) :
    (splitDigits ds n).1 ≠ [] ∧ (splitDigits ds n).2.length = n := by
  have hpadded : n < (List.replicate (n + 1 - ds.length) '0' ++ ds).length := by
    rw [List.length_append, List.length_replicate]
    omega
  simp only [splitDigits, List.splitAt_eq]
  constructor
  · rw [← List.length_pos_iff, List.length_take]
    omega
  · rw [List.length_drop]
    omega

theorem digit_of_mem_splitDigits {n : Nat} {c : Char}
    (h : c ∈ (splitDigits d.digits n).1 ++ (splitDigits d.digits n).2) : Digit c := by
  rw [splitDigits_append] at h
  obtain hc | hc := List.mem_append.mp h
  · rw [List.eq_of_mem_replicate hc]
    decide
  · exact digit_of_mem_digits hc

theorem natOfDigits_splitDigits (d : Decimal) (n : Nat) :
    natOfDigits ((splitDigits d.digits n).1 ++ (splitDigits d.digits n).2) = d.coefficient := by
  rw [splitDigits_append, natOfDigits_zeros, natOfDigits_digits]

theorem positional_toList (h : d.Fractional) :
    d.positional.toList = d.signText ++ (splitDigits d.digits (-d.exponent).toNat).1 ++
      '.' :: (splitDigits d.digits (-d.exponent).toNat).2 := by
  have hneg : ¬ 0 ≤ d.exponent := by
    unfold Fractional at h
    omega
  simp [Decimal.positional, hneg]

theorem Fractional.positional (h : d.Fractional) : d.Positional d.toText.toList := by
  obtain ⟨hwhole, hfraction⟩ := splitDigits_length d.digits (-d.exponent).toNat
  have htext : d.toText.toList = (if d.isZero then [] else d.signText) ++
      (splitDigits d.digits (-d.exponent).toNat).1 ++
      '.' :: (splitDigits d.digits (-d.exponent).toNat).2 := by
    rw [toText]
    split
    · have habs : d.abs.Fractional := h
      rw [positional_toList habs]
      rfl
    · rw [positional_toList h]
  rw [htext]
  refine .mk hwhole (fun c hc => digit_of_mem_splitDigits hc) (natOfDigits_splitDigits d _) ?_
  unfold Fractional at h
  omega

end Decimal

def Value.Fractional (v : Value) : Prop := ∀ d, v = .decimal d → d.Fractional

namespace Heap

variable {h : Heap} {v : Value} {text : String}

/-- The text says the value, where all decimals are in positional notation. -/
inductive Spells (h : Heap) : Value → String → Prop
  | decimal {d : Decimal} {text : String} : d.Positional text.toList → Spells h (.decimal d) text
  | plain {v : Value} : (∀ d, v ≠ .decimal d) → (∀ a, v ≠ .list a) → Spells h v v.scalarText
  | list {a : Nat} {parts : List String} : List.Forall₂ (Spells h) (h.elements a).toList parts →
      Spells h (.list a) ("[" ++ ", ".intercalate parts ++ "]")

theorem forall₂_of_mapM {α β : Type} {f : α → Option β} {R : α → β → Prop} {as : List α}
    {bs : List β} (hR : ∀ a ∈ as, ∀ b, f a = some b → R a b) (h : as.mapM f = some bs) :
    List.Forall₂ R as bs := by
  induction as generalizing bs with
  | nil =>
      cases h
      exact .nil
  | cons a as ih =>
      obtain ⟨ha, hR⟩ := List.forall_mem_cons.mp hR
      rw [List.mapM_cons] at h
      obtain ⟨b, hb, h⟩ := Option.bind_eq_some_iff.mp h
      obtain ⟨bs', hbs, h⟩ := Option.bind_eq_some_iff.mp h
      cases h
      exact .cons (ha b hb) (ih hR hbs)

theorem spells_of_text? {n : Nat} (hh : ∀ a, ∀ w ∈ h.elements a, w.Fractional)
    (hv : v.Fractional) (htext : h.text? n v = some text) : h.Spells v text := by
  induction n generalizing v text with
  | zero => cases htext
  | succ n ih =>
      cases v with
      | decimal d =>
          cases htext
          exact .decimal (hv d rfl).positional
      | list a =>
          obtain ⟨parts, hparts, h⟩ := Option.bind_eq_some_iff.mp htext
          cases h
          refine .list (forall₂_of_mapM (fun w hw part hpart => ?_) hparts)
          exact ih (hh a w (Array.mem_toList_iff.mp hw)) hpart
      | _ =>
          cases htext
          exact .plain nofun nofun

end Heap

end PlcLang
