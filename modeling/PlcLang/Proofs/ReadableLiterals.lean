import Mathlib.Data.List.TakeDrop
import PlcLang.Proofs.FirstTokens

namespace PlcLang

open Lexeme

theorem Lexeme.isDigit_char_iff (c : Char) : c.isDigit = true ↔ Digit c := by
  simp [Char.isDigit, Digit, Char.le_def]

theorem Lexeme.Whole.digits_of {ds : List Char} (h : Whole ds) : ds ≠ [] ∧ ∀ c ∈ ds, Digit c := by
  cases h with
  | zero =>
    refine ⟨by simp, ?_⟩
    simp only [List.mem_singleton, forall_eq]
    decide
  | digits hd _ hds =>
    refine ⟨by simp, ?_⟩
    intro c hc
    rcases List.mem_cons.1 hc with rfl | hc
    · exact hd
    · exact hds c hc

namespace Decimal

theorem span_digits {ds rest : List Char} (hds : ∀ c ∈ ds, Digit c) (hrest : Stops Digit rest) :
    (ds ++ rest).span Char.isDigit = (ds, rest) := by
  have hdigit : ∀ c ∈ ds, c.isDigit = true := fun c hc => (isDigit_char_iff c).2 (hds c hc)
  have hstop : rest.takeWhile Char.isDigit = [] ∧ rest.dropWhile Char.isDigit = rest := by
    cases rest with
    | nil => simp
    | cons c cs =>
      have hc : ¬ c.isDigit = true := fun h => hrest c rfl ((isDigit_char_iff c).1 h)
      simp [hc]
  rw [List.span_eq_takeWhile_dropWhile, List.takeWhile_append_of_pos hdigit,
    List.dropWhile_append_of_pos hdigit, hstop.1, hstop.2, List.append_nil]

/-- The sign in front of a number, which has none if it is not below zero. -/
def minus (negative : Bool) : List Char := if negative then ['-'] else []

theorem readSign_minus {ds : List Char} (negative : Bool) (h : Whole ds) (rest : List Char) :
    readSign (minus negative ++ ds ++ rest) = (negative, ds ++ rest) := by
  cases negative with
  | true => rfl
  | false =>
    obtain ⟨c, cs, rfl, hc⟩ := h.exists_cons
    have hsign : c ≠ '-' ∧ c ≠ '+' := by
      constructor <;> (rintro rfl; exact absurd hc (by decide))
    change readSign (c :: (cs ++ rest)) = (false, c :: (cs ++ rest))
    unfold readSign
    split
    · rename_i heq
      exact absurd (List.cons.inj heq).1 hsign.1
    · rename_i heq
      exact absurd (List.cons.inj heq).1 hsign.2
    · rfl

variable {text : String} {negative : Bool} {ds fs : List Char}

theorem ofText?_integer (h : Whole ds) (htext : text.toList = minus negative ++ ds) :
    ofText? text = some ⟨negative, natOfDigits ds, 0⟩ := by
  obtain ⟨hne, hds⟩ := h.digits_of
  have hsign := readSign_minus negative h []
  have hspan := span_digits hds stops_nil
  simp only [List.append_nil] at hsign hspan
  simp only [ofText?, htext, hsign, hspan, readFraction, readExponent?]
  simp [hne]

theorem ofText?_decimal (h : Whole ds) (htext : text.toList = minus negative ++ ds ++ '.' :: fs)
    (hfs : ∀ c ∈ fs, Digit c) :
    ofText? text = some ⟨negative, natOfDigits (ds ++ fs), -fs.length⟩ := by
  obtain ⟨hne, hds⟩ := h.digits_of
  have hsign := readSign_minus negative h ('.' :: fs)
  have hspan := span_digits hds (stops_digit_point fs)
  have hfraction := span_digits hfs stops_nil
  rw [List.append_nil] at hfraction
  simp only [ofText?, htext, hsign, hspan, readFraction, hfraction, readExponent?]
  simp [hne]

end Decimal

theorem Lexeme.SignedWhole.exists_minus {ds : List Char} (h : SignedWhole ds) :
    ∃ negative es, Whole es ∧ ds = Decimal.minus negative ++ es := by
  cases h with
  | plain h => exact ⟨false, _, h, rfl⟩
  | negative h => exact ⟨true, _, h, rfl⟩

namespace Escape

theorem decodeOnto_quotable {quote : Char} {cs : List Char} (h : Quotable quote cs) :
    ∃ c, ∀ done rest, decodeOnto done (cs ++ rest) = decodeOnto (c :: done) rest := by
  cases h with
  | @plain c _ hslash _ _ =>
    refine ⟨c, fun done rest => ?_⟩
    rw [List.singleton_append, decodeOnto]
    exact fun _ _ hc => absurd hc hslash
  | @escape c hc =>
    have hchar : ∃ d, char? c = some d := by
      simp only [Escaped, List.mem_cons, List.not_mem_nil, or_false] at hc
      rcases hc with rfl | rfl | rfl | rfl | rfl | rfl | rfl <;> exact ⟨_, rfl⟩
    obtain ⟨d, hd⟩ := hchar
    refine ⟨d, fun done rest => ?_⟩
    rw [List.cons_append, List.singleton_append, decodeOnto, hd]
    rfl

theorem decodeOnto_parts {quote : Char} {parts : List (List Char)} (done : List Char)
    (h : ∀ cs ∈ parts, Quotable quote cs) :
    ∃ cs, cs.length = parts.length ∧ decodeOnto done parts.flatten = some (done.reverse ++ cs) := by
  induction parts generalizing done with
  | nil => exact ⟨[], rfl, by rw [List.flatten_nil, decodeOnto, List.append_nil]⟩
  | cons part parts ih =>
    obtain ⟨hpart, hparts⟩ := List.forall_mem_cons.mp h
    obtain ⟨c, hc⟩ := decodeOnto_quotable hpart
    obtain ⟨cs, hlength, hcs⟩ := ih (c :: done) hparts
    refine ⟨c :: cs, congrArg (· + 1) hlength, ?_⟩
    rw [List.flatten_cons, hc, hcs, List.reverse_cons, List.append_assoc, List.singleton_append]

theorem literalBody_eq {text : String} {quote : Char} {body : List Char}
    (htext : text.toList = quote :: body ++ [quote]) :
    Expr.literalBody text = String.ofList body := by
  simp [Expr.literalBody, htext]

theorem decode_literalBody {text : String} {quote : Char} {parts : List (List Char)}
    (htext : text.toList = quote :: parts.flatten ++ [quote])
    (h : ∀ cs ∈ parts, Quotable quote cs) :
    ∃ cs, cs.length = parts.length ∧
      decode (Expr.literalBody text) = some (String.ofList cs) := by
  obtain ⟨cs, hlength, hcs⟩ := decodeOnto_parts [] h
  refine ⟨cs, hlength, ?_⟩
  rw [literalBody_eq htext, decode, String.toList_ofList, hcs]
  rfl

end Escape

theorem Expr.literal?_ne_error {t : Token} (hwf : t.WellFormed) (e : ParseError) :
    literal? t ≠ some (.error e) := by
  intro h
  by_cases hname : t.kind = .identifier
  · simp only [literal?, hname] at h
    split at h
    · cases h
    split at h
    · cases h
    split at h <;> cases h
  · rw [literal?_of_kind hwf hname] at h
    unfold Token.WellFormed at hwf
    generalize hcs : t.text.toList = cs at hwf
    generalize t.kind = kind at hwf h hname
    cases hwf with
    | name _ _ _ | atName _ _ _ => exact hname rfl
    | integer hds _ =>
      obtain ⟨negative, es, hes, rfl⟩ := hds.exists_minus
      simp [numeral, Decimal.ofText?_integer hes hcs] at h
    | decimal hds _ hfs _ =>
      obtain ⟨negative, es, hes, rfl⟩ := hds.exists_minus
      simp [numeral, Decimal.ofText?_decimal hes hcs hfs] at h
    | @character cs _ hquotable =>
      have htext : t.text.toList = '\'' :: [cs].flatten ++ ['\''] := by simpa using hcs
      obtain ⟨v, -, hv⟩ := Escape.decode_literalBody htext (by simpa using hquotable)
      simp [unescaped, hv] at h
    | string hparts =>
      obtain ⟨v, -, hv⟩ := Escape.decode_literalBody hcs hparts
      simp [unescaped, hv] at h
    | double _ | single _ _ _ _ _ _ => cases h

end PlcLang
