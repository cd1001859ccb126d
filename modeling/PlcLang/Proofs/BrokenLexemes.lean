import PlcLang.Proofs.LexerExact

namespace PlcLang

namespace Lexeme

def LineEnd (c : Char) : Prop := c = '\n' ∨ c = '\r'

/-- The characters begin a lexeme, and cannot be the beginning of one if that is the next character,
or if the text ends there. -/
inductive Breaks : LexCause → List Char → Option Char → Prop
  | letterAfterAt {next : Option Char} : (∀ c ∈ next, ¬ Letter c) → Breaks .letterAfterAt ['@'] next
  | leadingZero {zero : List Char} {c : Char} : zero ∈ [['0'], ['-', '0']] → Digit c →
      Breaks .leadingZero zero (some c)
  | digitAfterPoint {ds : List Char} {next : Option Char} : SignedWhole ds →
      (∀ c ∈ next, ¬ Digit c) → Breaks .digitAfterPoint (ds ++ ['.']) next
  | emptyCharacter : Breaks .emptyCharacter ['\''] (some '\'')
  | noCharacter {next : Option Char} : (∀ c ∈ next, LineEnd c) → Breaks .openCharacter ['\''] next
  | openCharacter {cs : List Char} {next : Option Char} : Quotable '\'' cs →
      (∀ c ∈ next, c ≠ '\'') → Breaks .openCharacter ('\'' :: cs) next
  | characterEscape {next : Option Char} : (∀ c ∈ next, ¬ Escaped c) →
      Breaks .badEscape ['\'', '\\'] next
  | openString {parts : List (List Char)} {next : Option Char} :
      (∀ cs ∈ parts, Quotable '"' cs) → (∀ c ∈ next, LineEnd c) →
      Breaks .openString ('"' :: parts.flatten) next
  | stringEscape {parts : List (List Char)} {next : Option Char} :
      (∀ cs ∈ parts, Quotable '"' cs) → (∀ c ∈ next, ¬ Escaped c) →
      Breaks .badEscape ('"' :: parts.flatten ++ ['\\']) next

theorem fraction_break {n : Nat} {rest : List Char} (h : Stops Digit rest) :
    fraction n ('.' :: rest) = ⟨n + 1, .error .digitAfterPoint⟩ := by
  rw [fraction, if_pos ((count_eq_zero isDigit_iff).mpr h)]

theorem closeCharacter_break {n : Nat} {rest : List Char} (h : ∀ c ∈ rest.head?, c ≠ '\'') :
    closeCharacter n rest = ⟨n, .error .openCharacter⟩ := by
  unfold closeCharacter
  split
  · exact absurd rfl (h '\'' rfl)
  · rfl

theorem character_lineEnd {rest : List Char} (h : ∀ c ∈ rest.head?, LineEnd c) :
    character rest = ⟨1, .error .openCharacter⟩ := by
  cases rest with
  | nil => rfl
  | cons c cs =>
      rcases h c rfl with rfl | rfl <;> rfl

theorem character_escape {rest : List Char} (h : ∀ c ∈ rest.head?, ¬ Escaped c) :
    character ('\\' :: rest) = ⟨2, .error .badEscape⟩ := by
  cases rest with
  | nil => rfl
  | cons c cs =>
      change (if Escape.isEscape c = true then _ else _) = _
      rw [if_neg fun hc => h c rfl ((isEscape_iff c).mp hc)]

theorem string_lineEnd {n : Nat} {rest : List Char} (h : ∀ c ∈ rest.head?, LineEnd c) :
    string n rest = ⟨n, .error .openString⟩ := by
  cases rest with
  | nil => rw [string]
  | cons c cs =>
      rcases h c rfl with rfl | rfl <;> simp [string, isLineEnd]

theorem string_slash {n : Nat} {rest : List Char} (h : ∀ c ∈ rest.head?, ¬ Escaped c) :
    string n ('\\' :: rest) = ⟨n + 1, .error .badEscape⟩ := by
  cases rest with
  | nil => rw [string]
  | cons c cs => rw [string, if_neg fun hc => h c rfl ((isEscape_iff c).mp hc)]

theorem Breaks.read_append {cause : LexCause} {begun rest : List Char}
    (h : Breaks cause begun rest.head?) : read (begun ++ rest) = ⟨begun.length, .error cause⟩ := by
  generalize hnext : rest.head? = next at h
  cases h with
  | letterAfterAt hletter =>
      cases rest with
      | nil => rfl
      | cons c cs =>
          have hc : ¬ isLetter c = true := fun hc => hletter c hnext.symm ((isLetter_iff c).mp hc)
          change (if isLetter c then _ else _) = _
          rw [if_neg hc]
          rfl
  | @leadingZero zero c hzero hc =>
      obtain ⟨cs, rfl⟩ := List.head?_eq_some_iff.mp hnext
      simp only [List.mem_cons, List.not_mem_nil, or_false] at hzero
      rcases hzero with rfl | rfl
      · exact number_zero hc cs
      · exact number_zero hc cs
  | digitAfterPoint hds hdigit =>
      subst hnext
      rw [List.append_assoc, List.singleton_append, read_signedWhole hds (stops_digit_point rest),
        fraction_break hdigit, List.length_append, List.length_singleton]
  | emptyCharacter =>
      obtain ⟨cs, rfl⟩ := List.head?_eq_some_iff.mp hnext
      rfl
  | noCharacter hline =>
      subst hnext
      exact character_lineEnd hline
  | @openCharacter cs _ hcs hquote =>
      subst hnext
      change character (cs ++ rest) = _
      rw [character_quotable hcs, closeCharacter_break hquote, List.length_cons]
  | characterEscape hescape =>
      subst hnext
      exact character_escape hescape
  | @openString parts _ hparts hline =>
      subst hnext
      change string 1 (parts.flatten ++ rest) = _
      rw [string_parts hparts, string_lineEnd hline, List.length_cons, Nat.add_comm]
  | @stringEscape parts _ hparts hescape =>
      subst hnext
      rw [List.append_assoc, List.singleton_append]
      change string 1 (parts.flatten ++ '\\' :: rest) = _
      rw [string_parts hparts, string_slash hescape, List.length_append, List.length_cons,
        List.length_singleton, Nat.add_comm 1]

theorem fraction_error {n m : Nat} {cs : List Char} {cause : LexCause}
    (h : fraction n cs = ⟨m, .error cause⟩) :
    ∃ rest, cs = '.' :: rest ∧ m = n + 1 ∧ cause = .digitAfterPoint ∧ Stops Digit rest := by
  unfold fraction at h
  split at h
  · next rest =>
      split at h
      · next hcount =>
          cases h
          exact ⟨rest, rfl, rfl, rfl, (count_eq_zero isDigit_iff).mp hcount⟩
      · cases h
  · cases h

theorem number_error {sign : List Char} {m : Nat} {c : Char} {cs : List Char} {cause : LexCause}
    (hsign : sign = [] ∨ sign = ['-']) (hc : Digit c)
    (h : number sign.length (c :: cs) = ⟨m, .error cause⟩) :
    ∃ begun rest, sign ++ c :: cs = begun ++ rest ∧ begun.length = m ∧
      Breaks cause begun rest.head? := by
  obtain ⟨d, rest, rfl, rfl, hd, hzero⟩ | ⟨ds, rest, heq, hwhole, hrest, hnumber⟩ :=
    number_cases hc sign.length cs
  · cases hzero.symm.trans h
    refine ⟨sign ++ ['0'], d :: rest, by simp, by simp, .leadingZero ?_ hd⟩
    rcases hsign with rfl | rfl <;> simp
  · obtain ⟨rest, rfl, rfl, rfl, hdigit⟩ := fraction_error (hnumber.symm.trans h)
    refine ⟨sign ++ ds ++ ['.'], rest, by simp [heq], by simp [Nat.add_assoc], ?_⟩
    refine .digitAfterPoint ?_ hdigit
    rcases hsign with rfl | rfl
    · exact .plain hwhole
    · exact .negative hwhole

theorem closeCharacter_error {n m : Nat} {rest : List Char} {cause : LexCause}
    (h : closeCharacter n rest = ⟨m, .error cause⟩) :
    m = n ∧ cause = .openCharacter ∧ ∀ c ∈ rest.head?, c ≠ '\'' := by
  unfold closeCharacter at h
  split at h
  · cases h
  · next hquote =>
      cases h
      refine ⟨rfl, rfl, ?_⟩
      rintro c hc rfl
      obtain ⟨cs, rfl⟩ := List.head?_eq_some_iff.mp hc
      exact hquote cs rfl

theorem character_error {m : Nat} {cs : List Char} {cause : LexCause}
    (h : character cs = ⟨m, .error cause⟩) :
    ∃ begun rest, '\'' :: cs = begun ++ rest ∧ begun.length = m ∧
      Breaks cause begun rest.head? := by
  unfold character at h
  split at h
  · next cs =>
      cases h
      exact ⟨['\''], '\'' :: cs, rfl, rfl, .emptyCharacter⟩
  · next c cs =>
      split at h
      · next hc =>
          obtain ⟨rfl, rfl, hquote⟩ := closeCharacter_error h
          have hescape : Quotable '\'' ['\\', c] := .escape ((isEscape_iff c).mp hc)
          exact ⟨['\'', '\\', c], cs, rfl, rfl, .openCharacter hescape hquote⟩
      · next hc =>
          cases h
          refine ⟨['\'', '\\'], c :: cs, rfl, rfl, .characterEscape ?_⟩
          rintro _ ⟨⟩ hescaped
          exact hc ((isEscape_iff c).mpr hescaped)
  · cases h
    exact ⟨['\'', '\\'], [], rfl, rfl, .characterEscape nofun⟩
  · next c cs hquote hslash hlone =>
      split at h
      · next hline =>
          cases h
          refine ⟨['\''], c :: cs, rfl, rfl, .noCharacter ?_⟩
          rintro _ ⟨⟩
          exact (isLineEnd_iff c).mp hline
      · next hline =>
          obtain ⟨rfl, rfl, hopen⟩ := closeCharacter_error h
          have hplain := quotable_plain hquote hslash hlone hline
          exact ⟨['\'', c], cs, rfl, rfl, .openCharacter hplain hopen⟩
  · cases h
    exact ⟨['\''], [], rfl, rfl, .noCharacter nofun⟩

theorem string_error {n m : Nat} {cs : List Char} {cause : LexCause}
    (h : string n cs = ⟨m, .error cause⟩) :
    ∃ parts slash rest, (∀ cs ∈ parts, Quotable '"' cs) ∧
      cs = List.flatten parts ++ (slash ++ rest) ∧ m = n + parts.flatten.length + slash.length ∧
      (slash = [] ∧ cause = .openString ∧ (∀ c ∈ rest.head?, LineEnd c) ∨
        slash = ['\\'] ∧ cause = .badEscape ∧ ∀ c ∈ rest.head?, ¬ Escaped c) := by
  have hnone : ∀ cs ∈ ([] : List (List Char)), Quotable '"' cs := List.forall_mem_nil _
  fun_induction string n cs with
  | case1 => cases h
  | case2 n c cs hc ih =>
      obtain ⟨parts, slash, rest, hparts, rfl, rfl, hend⟩ := ih h
      have hescape : Quotable '"' ['\\', c] := .escape ((isEscape_iff c).mp hc)
      have hall := List.forall_mem_cons.mpr ⟨hescape, hparts⟩
      exact ⟨['\\', c] :: parts, slash, rest, hall, by simp, by simp; omega, hend⟩
  | case3 n c cs hc =>
      cases h
      refine ⟨[], ['\\'], c :: cs, hnone, rfl, rfl, .inr ⟨rfl, rfl, ?_⟩⟩
      rintro _ ⟨⟩ hescaped
      exact hc ((isEscape_iff c).mpr hescaped)
  | case4 n =>
      cases h
      exact ⟨[], ['\\'], [], hnone, rfl, rfl, .inr ⟨rfl, rfl, stops_nil⟩⟩
  | case5 n c cs _ _ _ hline =>
      cases h
      refine ⟨[], [], c :: cs, hnone, rfl, rfl, .inl ⟨rfl, rfl, ?_⟩⟩
      rintro _ ⟨⟩
      exact (isLineEnd_iff c).mp hline
  | case6 n c cs hquote hslash hlone hline ih =>
      obtain ⟨parts, slash, rest, hparts, heq, rfl, hend⟩ := ih h
      have hplain := quotable_plain hquote hslash hlone hline
      have hall := List.forall_mem_cons.mpr ⟨hplain, hparts⟩
      exact ⟨[c] :: parts, slash, rest, hall, by simp [heq], by simp; omega, hend⟩
  | case7 n =>
      cases h
      exact ⟨[], [], [], hnone, rfl, rfl, .inl ⟨rfl, rfl, by simp⟩⟩

theorem read_error {cs : List Char} {n : Nat} {cause : LexCause}
    (h : read cs = ⟨n, .error cause⟩) :
    ∃ begun rest, cs = begun ++ rest ∧ begun.length = n ∧ Breaks cause begun rest.head? := by
  cases cs with
  | nil => cases h
  | cons c cs =>
      by_cases hplain : c ∈ ['@', '\'', '"']
      · simp only [List.mem_cons, List.not_mem_nil, or_false] at hplain
        rcases hplain with rfl | rfl | rfl
        · cases cs with
          | nil =>
              cases h
              exact ⟨['@'], [], rfl, rfl, .letterAfterAt nofun⟩
          | cons c cs =>
              change (if isLetter c then _ else _) = _ at h
              split at h
              · cases h
              · next hc =>
                  cases h
                  refine ⟨['@'], c :: cs, rfl, rfl, .letterAfterAt ?_⟩
                  rintro _ ⟨⟩ hletter
                  exact hc ((isLetter_iff c).mpr hletter)
        · exact character_error h
        · obtain ⟨parts, slash, rest, hparts, rfl, rfl, hend⟩ := string_error h
          refine ⟨'"' :: parts.flatten ++ slash, rest, by simp, by simp; omega, ?_⟩
          rcases hend with ⟨rfl, rfl, hline⟩ | ⟨rfl, rfl, hescape⟩
          · rw [List.append_nil]
            exact .openString hparts hline
          · exact .stringEscape hparts hescape
      · rw [read_cons hplain] at h
        split at h
        · cases h
        · split at h
          · next hc => exact number_error (.inl rfl) ((isDigit_iff c).mp hc) h
          · split at h
            · next hminus =>
                simp only [Bool.and_eq_true, beq_iff_eq] at hminus
                obtain ⟨rfl, hd⟩ := hminus
                cases cs with
                | nil => cases hd
                | cons d cs => exact number_error (.inr rfl) ((isDigit_iff d).mp hd) h
            · split at h <;> cases h

/-- What is begun can be finished, though not by that next character. -/
theorem Breaks.exists_is {cause : LexCause} {begun : List Char} {next : Option Char}
    (h : Breaks cause begun next) : ∃ more kind, Is kind (begun ++ more) [] := by
  have hletter : Quotable '\'' ['a'] := .plain (by decide) (by decide) (by decide) (by decide)
  have hescape {quote : Char} : Quotable quote ['\\', 'n'] := .escape (by decide)
  cases h with
  | letterAfterAt _ =>
      exact ⟨['a'], .identifier, .atName (by decide) (List.forall_mem_nil _) stops_nil⟩
  | leadingZero hzero _ =>
      simp only [List.mem_cons, List.not_mem_nil, or_false] at hzero
      rcases hzero with rfl | rfl
      · exact ⟨[], .integer, .integer (.plain .zero) stops_nil⟩
      · exact ⟨[], .integer, .integer (.negative .zero) stops_nil⟩
  | digitAfterPoint hds _ =>
      have hzero : ∀ c ∈ ['0'], Digit c := List.forall_mem_singleton.mpr (by decide)
      refine ⟨['0'], .decimal, ?_⟩
      rw [List.append_assoc]
      exact .decimal hds (List.cons_ne_nil _ _) hzero stops_nil
  | emptyCharacter => exact ⟨['a', '\''], .character, .character hletter⟩
  | noCharacter _ => exact ⟨['a', '\''], .character, .character hletter⟩
  | openCharacter hcs _ => exact ⟨['\''], .character, .character hcs⟩
  | characterEscape _ => exact ⟨['n', '\''], .character, .character hescape⟩
  | openString hparts _ => exact ⟨['"'], .string, .string hparts⟩
  | @stringEscape parts _ hparts _ =>
      have hall : ∀ cs ∈ parts ++ [['\\', 'n']], Quotable '"' cs :=
        List.forall_mem_append.mpr ⟨hparts, List.forall_mem_singleton.mpr hescape⟩
      refine ⟨['n', '"'], .string, ?_⟩
      have hstring : Is .string _ [] := .string hall
      simpa using hstring

theorem Breaks.ne_nil {cause : LexCause} {begun : List Char} {next : Option Char}
    (h : Breaks cause begun next) : begun ≠ [] := by
  cases h with
  | leadingZero hzero _ =>
      rintro rfl
      simp at hzero
  | digitAfterPoint => exact List.append_ne_nil_of_right_ne_nil _ (List.cons_ne_nil _ _)
  | _ => exact List.cons_ne_nil _ _

end Lexeme

end PlcLang
