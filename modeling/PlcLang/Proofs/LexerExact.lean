import Mathlib.Data.List.TakeWhile
import PlcLang.Proofs.LexicalRules
import PlcLang.Token.Cursor

namespace PlcLang

namespace Lexeme

theorem isBlank_iff (c : Char) : isBlank c = true ↔ Blank c := by
  simp [isBlank, Blank, or_assoc]

theorem isLetter_iff (c : Char) : isLetter c = true ↔ Letter c := by
  simp [isLetter, Letter]

theorem isDigit_iff (c : Char) : isDigit c = true ↔ Digit c := by
  simp [isDigit, Digit]

theorem isRest_iff (c : Char) : isRest c = true ↔ NameRest c := by
  simp [isRest, NameRest, isLetter_iff, isDigit_iff, or_assoc]

theorem isLineEnd_iff (c : Char) : isLineEnd c = true ↔ c = '\n' ∨ c = '\r' := by
  simp [isLineEnd]

theorem isEscape_iff (c : Char) : Escape.isEscape c = true ↔ Escaped c := by
  unfold Escape.isEscape Escape.char?
  split <;> simp_all [Escaped]

theorem isDouble_iff (c d : Char) : isDouble c d = true ↔ (c, d) ∈ doubles := by
  simp [isDouble, doubles, or_assoc]

theorem stops_iff {P : Char → Prop} {p : Char → Bool} (hp : ∀ c, p c = true ↔ P c)
    {rest : List Char} : Stops P rest ↔ rest.head?.any p = false := by
  cases rest with
  | nil => simp [Stops]
  | cons c cs => simp [Stops, ← hp]

theorem stops_nil {P : Char → Prop} : Stops P [] := by simp [Stops]

theorem count_append {P : Char → Prop} {p : Char → Bool} (hp : ∀ c, p c = true ↔ P c)
    {cs rest : List Char} (hcs : ∀ c ∈ cs, P c) (hrest : Stops P rest) :
    count p (cs ++ rest) = cs.length := by
  have htake : rest.takeWhile p = [] := by
    cases rest with
    | nil => rfl
    | cons c cs => exact List.takeWhile_cons_of_neg fun h => hrest c rfl ((hp c).mp h)
  rw [count, List.takeWhile_append_of_pos fun c hc => (hp c).mpr (hcs c hc), htake, List.append_nil]

theorem exists_count {P : Char → Prop} {p : Char → Bool} (hp : ∀ c, p c = true ↔ P c)
    (cs : List Char) :
    ∃ ds rest, cs = ds ++ rest ∧ ds.length = count p cs ∧ (∀ c ∈ ds, P c) ∧ Stops P rest := by
  refine ⟨cs.takeWhile p, cs.dropWhile p, List.takeWhile_append_dropWhile.symm, rfl, ?_, ?_⟩
  · intro c hc
    exact (hp c).mp (List.mem_takeWhile_imp hc)
  · intro c hc hP
    have hne : cs.dropWhile p ≠ [] := by
      intro hnil
      rw [hnil] at hc
      cases hc
    have hhead := List.head_dropWhile_not p hne
    rw [List.head?_eq_some_head hne, Option.mem_some_iff] at hc
    rw [hc, (hp c).mpr hP] at hhead
    cases hhead

theorem count_eq_zero {P : Char → Prop} {p : Char → Bool} (hp : ∀ c, p c = true ↔ P c)
    {cs : List Char} : count p cs = 0 ↔ Stops P cs := by
  constructor
  · intro h
    obtain ⟨ds, rest, rfl, hlen, -, hrest⟩ := exists_count hp cs
    rw [h] at hlen
    rw [List.eq_nil_of_length_eq_zero hlen]
    exact hrest
  · intro h
    have hnil : ∀ c ∈ ([] : List Char), P c := by simp
    exact count_append hp hnil h

theorem fraction_of_stops {n : Nat} {rest : List Char} (h : Stops (· = '.') rest) :
    fraction n rest = ⟨n, .ok .integer⟩ := by
  unfold fraction
  split
  · exact absurd rfl (h '.' rfl)
  · rfl

theorem fraction_point {n : Nat} {fs rest : List Char} (hne : fs ≠ []) (hfs : ∀ c ∈ fs, Digit c)
    (hrest : Stops Digit rest) :
    fraction n ('.' :: (fs ++ rest)) = ⟨n + 1 + fs.length, .ok .decimal⟩ := by
  have hcount := count_append isDigit_iff hfs hrest
  rw [fraction, hcount, if_neg]
  exact fun h => hne (List.eq_nil_of_length_eq_zero h)

theorem fraction_sound {n m : Nat} {cs : List Char} {kind : TokenKind}
    (h : fraction n cs = ⟨m, .ok kind⟩) :
    kind = .integer ∧ m = n ∧ Stops (· = '.') cs ∨
      ∃ fs rest, kind = .decimal ∧ m = n + 1 + fs.length ∧ cs = '.' :: (fs ++ rest) ∧ fs ≠ [] ∧
        (∀ c ∈ fs, Digit c) ∧ Stops Digit rest := by
  unfold fraction at h
  split at h
  · next cs =>
      split at h
      · cases h
      · next hcount =>
          cases h
          obtain ⟨fs, rest, hcs, hlen, hfs, hrest⟩ := exists_count isDigit_iff cs
          refine .inr ⟨fs, rest, rfl, by rw [hlen], by rw [hcs], ?_, hfs, hrest⟩
          rintro rfl
          exact hcount hlen.symm
  · next hpoint =>
      cases h
      refine .inl ⟨rfl, rfl, ?_⟩
      intro c hc hpt
      subst hpt
      cases cs with
      | nil => cases hc
      | cons d ds =>
          cases hc
          exact hpoint ds rfl

theorem number_append {n : Nat} {ds rest : List Char} (hds : Whole ds) (hrest : Stops Digit rest) :
    number n (ds ++ rest) = fraction (n + ds.length) rest := by
  cases hds with
  | zero =>
      change (if count isDigit rest = 0 then _ else _) = _
      rw [if_pos ((count_eq_zero isDigit_iff).mpr hrest)]
      rfl
  | @digits d ds hd hzero hds =>
      have hall : ∀ c ∈ d :: ds, Digit c := List.forall_mem_cons.mpr ⟨hd, hds⟩
      have hcount := count_append isDigit_iff hall hrest
      unfold number
      split
      · next heq =>
          cases heq
          exact absurd rfl hzero
      · rw [hcount, List.drop_left]

theorem number_zero {n : Nat} {c : Char} (hc : Digit c) (cs : List Char) :
    number n ('0' :: c :: cs) = ⟨n + 1, .error .leadingZero⟩ := by
  have hcount := count_pos ((isDigit_iff c).mpr hc) cs
  change (if count isDigit (c :: cs) = 0 then _ else _) = _
  rw [if_neg (by omega)]

/-- A number has a whole part, unless a digit stands behind a leading zero. -/
theorem number_cases {c : Char} (hc : Digit c) (n : Nat) (cs : List Char) :
    (∃ d rest, c = '0' ∧ cs = d :: rest ∧ Digit d ∧
      number n (c :: cs) = ⟨n + 1, .error .leadingZero⟩) ∨
    ∃ ds rest, c :: cs = ds ++ rest ∧ Whole ds ∧ Stops Digit rest ∧
      number n (c :: cs) = fraction (n + ds.length) rest := by
  by_cases hzero : c = '0'
  · subst hzero
    cases cs with
    | nil => exact .inr ⟨['0'], [], rfl, .zero, stops_nil, number_append .zero stops_nil⟩
    | cons d rest =>
        by_cases hd : Digit d
        · exact .inl ⟨d, rest, rfl, rfl, hd, number_zero hd rest⟩
        · have hrest : Stops Digit (d :: rest) := by
            rintro _ ⟨⟩
            exact hd
          exact .inr ⟨['0'], d :: rest, rfl, .zero, hrest, number_append .zero hrest⟩
  · obtain ⟨ds, rest, rfl, -, hds, hrest⟩ := exists_count isDigit_iff cs
    have hwhole : Whole (c :: ds) := .digits hc hzero hds
    exact .inr ⟨c :: ds, rest, rfl, hwhole, hrest, number_append hwhole hrest⟩

theorem number_sound {n m : Nat} {c : Char} {cs : List Char} {kind : TokenKind} (hc : Digit c)
    (h : number n (c :: cs) = ⟨m, .ok kind⟩) :
    ∃ ds rest, c :: cs = ds ++ rest ∧ Whole ds ∧ Stops Digit rest ∧
      fraction (n + ds.length) rest = ⟨m, .ok kind⟩ := by
  obtain ⟨_, _, _, _, _, herror⟩ | ⟨ds, rest, heq, hwhole, hrest, hnumber⟩ := number_cases hc n cs
  · cases herror.symm.trans h
  · exact ⟨ds, rest, heq, hwhole, hrest, hnumber.symm.trans h⟩

theorem Whole.exists_cons {ds : List Char} (h : Whole ds) : ∃ d es, ds = d :: es ∧ Digit d := by
  cases h with
  | zero => exact ⟨'0', [], rfl, by simp [Digit]⟩
  | @digits d ds hd => exact ⟨d, ds, rfl, hd⟩

theorem quotable_plain {quote c : Char} {cs : List Char} (hquote : c ≠ quote)
    (hslash : ∀ d ds, c = '\\' → cs = d :: ds → False) (hlone : c = '\\' → cs = [] → False)
    (hline : ¬ isLineEnd c = true) : Quotable quote [c] := by
  rw [isLineEnd_iff, not_or] at hline
  refine .plain hquote ?_ hline.1 hline.2
  intro hc
  cases cs with
  | nil => exact hlone hc rfl
  | cons d ds => exact hslash d ds hc rfl

theorem closeCharacter_sound {n m : Nat} {cs : List Char} {kind : TokenKind}
    (h : closeCharacter n cs = ⟨m, .ok kind⟩) :
    ∃ rest, cs = '\'' :: rest ∧ m = n + 1 ∧ kind = .character := by
  unfold closeCharacter at h
  split at h
  · next rest =>
      cases h
      exact ⟨rest, rfl, rfl, rfl⟩
  · cases h

theorem character_quotable {cs : List Char} (h : Quotable '\'' cs) (rest : List Char) :
    character (cs ++ rest) = closeCharacter (cs.length + 1) rest := by
  cases h with
  | @plain c hquote hslash hn hr =>
      have hline : ¬ isLineEnd c = true := by simp [isLineEnd, hn, hr]
      change character (c :: rest) = _
      unfold character
      split
      · next heq => cases heq; exact absurd rfl hquote
      · next heq => cases heq; exact absurd rfl hslash
      · next heq => cases heq; exact absurd rfl hslash
      · next heq => cases heq; rw [if_neg hline]; rfl
      · next heq => cases heq
  | @escape c hc =>
      change (if Escape.isEscape c = true then closeCharacter 3 rest else _) = _
      rw [if_pos ((isEscape_iff c).mpr hc)]
      rfl

theorem character_append {cs rest : List Char} (h : Quotable '\'' cs) :
    character (cs ++ '\'' :: rest) = ⟨cs.length + 2, .ok .character⟩ :=
  character_quotable h ('\'' :: rest)

theorem character_sound {m : Nat} {cs : List Char} {kind : TokenKind}
    (h : character cs = ⟨m, .ok kind⟩) :
    ∃ ds rest, cs = ds ++ '\'' :: rest ∧ Quotable '\'' ds ∧ m = ds.length + 2 ∧
      kind = .character := by
  unfold character at h
  split at h
  · cases h
  · next c cs =>
      split at h
      · next hc =>
          obtain ⟨rest, rfl, rfl, rfl⟩ := closeCharacter_sound h
          exact ⟨['\\', c], rest, rfl, .escape ((isEscape_iff c).mp hc), rfl, rfl⟩
      · cases h
  · cases h
  · next c cs hquote hslash hlone =>
      split at h
      · cases h
      · next hline =>
          obtain ⟨rest, rfl, rfl, rfl⟩ := closeCharacter_sound h
          exact ⟨[c], rest, rfl, quotable_plain hquote hslash hlone hline, rfl, rfl⟩
  · cases h

theorem string_plain {n : Nat} {c : Char} (hquote : c ≠ '"') (hslash : c ≠ '\\')
    (hline : ¬ isLineEnd c = true) (cs : List Char) : string n (c :: cs) = string (n + 1) cs := by
  rw [string]
  · rw [if_neg hline]
  · exact hquote
  · exact fun _ _ hc => absurd hc hslash
  · exact fun hc => absurd hc hslash

theorem string_escape {n : Nat} {c : Char} (hc : Escaped c) (cs : List Char) :
    string n ('\\' :: c :: cs) = string (n + 2) cs := by
  rw [string, if_pos ((isEscape_iff c).mpr hc)]

theorem string_parts {parts : List (List Char)} (h : ∀ cs ∈ parts, Quotable '"' cs) (n : Nat)
    (rest : List Char) :
    string n (parts.flatten ++ rest) = string (n + parts.flatten.length) rest := by
  induction parts generalizing n with
  | nil => rfl
  | cons cs parts ih =>
      obtain ⟨hcs, hparts⟩ := List.forall_mem_cons.mp h
      rw [List.flatten_cons, List.append_assoc, List.length_append]
      cases hcs with
      | @plain c hquote hslash hn hr =>
          have hline : ¬ isLineEnd c = true := by simp [isLineEnd, hn, hr]
          rw [List.singleton_append, string_plain hquote hslash hline, ih hparts,
            List.length_singleton, Nat.add_assoc]
      | @escape c hc =>
          rw [List.cons_append, List.singleton_append, string_escape hc, ih hparts, Nat.add_assoc]
          rfl

theorem string_append {parts : List (List Char)} (h : ∀ cs ∈ parts, Quotable '"' cs) (n : Nat)
    (rest : List Char) :
    string n (parts.flatten ++ '"' :: rest) = ⟨n + parts.flatten.length + 1, .ok .string⟩ := by
  rw [string_parts h, string]

theorem string_sound {n m : Nat} {cs : List Char} {kind : TokenKind}
    (h : string n cs = ⟨m, .ok kind⟩) :
    ∃ parts rest, cs = List.flatten parts ++ '"' :: rest ∧ (∀ cs ∈ parts, Quotable '"' cs) ∧
      m = n + parts.flatten.length + 1 ∧ kind = .string := by
  fun_induction string n cs with
  | case1 n rest =>
      cases h
      exact ⟨[], rest, rfl, by simp, rfl, rfl⟩
  | case2 n c cs hc ih =>
      obtain ⟨parts, rest, rfl, hparts, rfl, rfl⟩ := ih h
      refine ⟨['\\', c] :: parts, rest, by simp, ?_, ?_, rfl⟩
      · exact List.forall_mem_cons.mpr ⟨.escape ((isEscape_iff c).mp hc), hparts⟩
      · simp only [List.flatten_cons, List.length_append, List.length_cons, List.length_nil]
        omega
  | case3 => cases h
  | case4 => cases h
  | case5 => cases h
  | case6 n c cs hquote hslash hlone hline ih =>
      obtain ⟨parts, rest, rfl, hparts, rfl, rfl⟩ := ih h
      have hplain := quotable_plain hquote hslash hlone hline
      refine ⟨[c] :: parts, rest, by simp, List.forall_mem_cons.mpr ⟨hplain, hparts⟩, ?_, rfl⟩
      simp only [List.flatten_cons, List.length_append, List.length_singleton]
      omega
  | case7 => cases h

theorem Letter.plain {c : Char} (h : Letter c) : c ∉ ['@', '\'', '"'] := by
  intro hc
  simp only [List.mem_cons, List.not_mem_nil, or_false] at hc
  rcases hc with rfl | rfl | rfl <;> revert h <;> simp [Letter]

theorem Digit.plain {c : Char} (h : Digit c) : c ∉ ['@', '\'', '"'] := by
  intro hc
  simp only [List.mem_cons, List.not_mem_nil, or_false] at hc
  rcases hc with rfl | rfl | rfl <;> revert h <;> simp [Digit]

theorem Letter.not_blank {c : Char} (h : Letter c) : ¬ Blank c := by
  intro hc
  simp only [Blank, List.mem_cons, List.not_mem_nil, or_false] at hc
  rcases hc with rfl | rfl | rfl | rfl | rfl <;> revert h <;> simp [Letter]

theorem Digit.not_blank {c : Char} (h : Digit c) : ¬ Blank c := by
  intro hc
  simp only [Blank, List.mem_cons, List.not_mem_nil, or_false] at hc
  rcases hc with rfl | rfl | rfl | rfl | rfl <;> revert h <;> simp [Digit]

theorem Blank.not_rest {c : Char} (h : Blank c) : ¬ NameRest c := by
  rintro (hl | hd | rfl | rfl)
  · exact hl.not_blank h
  · exact hd.not_blank h
  · exact absurd h (by decide)
  · exact absurd h (by decide)

theorem Digit.not_letter {c : Char} (h : Digit c) : ¬ Letter c := by
  simp only [Digit, Letter, Char.le_def, UInt32.le_iff_toNat_le] at *
  intro hl
  rcases hl with hl | hl
  · exact absurd (Nat.le_trans hl.1 h.2) (by decide)
  · exact absurd (Nat.le_trans hl.1 h.2) (by decide)

theorem read_cons {c : Char} (h : c ∉ ['@', '\'', '"']) (cs : List Char) :
    read (c :: cs) =
      if isLetter c then ⟨1 + count isRest cs, .ok .identifier⟩
      else if isDigit c then number 0 (c :: cs)
      else if c == '-' && cs.head?.any isDigit then number 1 cs
      else if cs.head?.any (isDouble c) then ⟨2, .ok .operator⟩
      else ⟨1, .ok .operator⟩ := by
  rw [read]
  · exact fun hc => h (by simp [hc])
  · exact fun hc => h (by simp [hc])
  · exact fun hc => h (by simp [hc])

theorem not_blank_of_error {c : Char} {cs : List Char} {n : Nat} {cause : LexCause}
    (h : read (c :: cs) = ⟨n, .error cause⟩) : ¬ Blank c := by
  intro hc
  simp only [Blank, List.mem_cons, List.not_mem_nil, or_false] at hc
  have hoperator : read (c :: cs) = if cs.head?.any (isDouble c) then ⟨2, .ok .operator⟩
      else ⟨1, .ok .operator⟩ := by
    rcases hc with rfl | rfl | rfl | rfl | rfl <;> rfl
  rw [hoperator] at h
  split at h <;> cases h

theorem read_signedWhole {ds rest : List Char} (h : SignedWhole ds) (hrest : Stops Digit rest) :
    read (ds ++ rest) = fraction ds.length rest := by
  cases h with
  | plain h =>
      obtain ⟨d, es, hds, hd⟩ := h.exists_cons
      have hletter : ¬ isLetter d = true := fun hl => hd.not_letter ((isLetter_iff d).mp hl)
      have hnumber := number_append (n := 0) h hrest
      rw [Nat.zero_add] at hnumber
      rw [← hnumber, hds, List.cons_append, read_cons hd.plain, if_neg hletter,
        if_pos ((isDigit_iff d).mpr hd)]
  | @negative ds h =>
      obtain ⟨d, es, hds, hd⟩ := h.exists_cons
      have hnumber := number_append (n := 1) h hrest
      rw [List.length_cons, Nat.add_comm, ← hnumber, hds, List.cons_append, read_cons (by decide),
        if_neg (by decide), if_neg (by decide), if_pos]
      simp [(isDigit_iff d).mpr hd]

theorem stops_digit_point (rest : List Char) : Stops Digit ('.' :: rest) := by
  intro c hc
  cases hc
  simp [Digit]

theorem Is.read_append {kind : TokenKind} {lexeme rest : List Char} (h : Is kind lexeme rest) :
    read (lexeme ++ rest) = ⟨lexeme.length, .ok kind⟩ := by
  cases h with
  | @name c cs _ hc hcs hrest =>
      rw [List.cons_append, read_cons hc.plain, if_pos ((isLetter_iff c).mpr hc),
        count_append isRest_iff hcs hrest, List.length_cons, Nat.add_comm]
  | @atName c cs _ hc hcs hrest =>
      change (if isLetter c then Reading.mk (2 + count isRest (cs ++ rest)) _ else _) = _
      rw [if_pos ((isLetter_iff c).mpr hc), count_append isRest_iff hcs hrest, List.length_cons,
        List.length_cons, Nat.add_comm]
  | integer hds hrest =>
      rw [read_signedWhole hds fun c hc hd => hrest c hc (.inl hd)]
      exact fraction_of_stops fun c hc hpoint => hrest c hc (.inr hpoint)
  | @decimal ds fs _ hds hne hfs hrest =>
      rw [List.append_assoc, List.cons_append, read_signedWhole hds (stops_digit_point _),
        fraction_point hne hfs hrest, List.length_append, List.length_cons, Nat.add_assoc,
        Nat.add_comm 1]
  | @character cs _ hcs =>
      rw [List.append_assoc, List.cons_append, List.singleton_append]
      change Lexeme.character _ = _
      rw [character_append hcs, List.length_append, List.length_cons, List.length_singleton]
  | @string parts _ hparts =>
      rw [List.append_assoc, List.cons_append, List.singleton_append]
      change Lexeme.string 1 _ = _
      rw [string_append hparts, List.length_append, List.length_cons, List.length_singleton,
        Nat.add_comm 1]
  | @double c d _ hcd =>
      simp only [doubles, List.mem_cons, Prod.mk.injEq, List.not_mem_nil, or_false] at hcd
      rcases hcd with ⟨rfl, rfl⟩ | ⟨rfl, rfl⟩ | ⟨rfl, rfl⟩ | ⟨rfl, rfl⟩ <;> rfl
  | @single c _ hblank hletter hdigit hplain hdouble hminus =>
      have hnumber : ¬ (c == '-' && rest.head?.any isDigit) = true := by
        intro h
        simp only [Bool.and_eq_true, beq_iff_eq] at h
        rw [(stops_iff isDigit_iff).mp (hminus h.1)] at h
        exact absurd h.2 Bool.false_ne_true
      have hpair := (stops_iff (isDouble_iff c)).mp hdouble
      rw [List.singleton_append, read_cons hplain, if_neg (fun h => hletter ((isLetter_iff c).mp h)),
        if_neg (fun h => hdigit ((isDigit_iff c).mp h)), if_neg hnumber, hpair]
      rfl

/-- A lexeme remains one in front of a rest that starts with the same character or with a blank, or
is empty. -/
theorem Is.before {kind : TokenKind} {lexeme rest rest' : List Char} (h : Is kind lexeme rest)
    (hrest : ∀ c ∈ rest'.head?, c ∈ rest.head? ∨ Blank c) : Is kind lexeme rest' := by
  have hstops {P : Char → Prop} (hblank : ∀ c, Blank c → ¬ P c) (hP : Stops P rest) :
      Stops P rest' := fun c hc => (hrest c hc).elim (hP c) (hblank c)
  have hdigit (c : Char) (hc : Blank c) : ¬ Digit c := fun hd => hd.not_blank hc
  cases h with
  | name hc hcs hend => exact .name hc hcs (hstops (fun _ => Blank.not_rest) hend)
  | atName hc hcs hend => exact .atName hc hcs (hstops (fun _ => Blank.not_rest) hend)
  | integer hds hend =>
      refine .integer hds (hstops ?_ hend)
      rintro c hc (hd | rfl)
      · exact hdigit c hc hd
      · exact absurd hc (by decide)
  | decimal hds hne hfs hend => exact .decimal hds hne hfs (hstops hdigit hend)
  | character hcs => exact .character hcs
  | string hparts => exact .string hparts
  | double hcd => exact .double hcd
  | single hblank hletter hd hc hdouble hminus =>
      refine .single hblank hletter hd hc (hstops ?_ hdouble) fun h => hstops hdigit (hminus h)
      intro c hc hcd
      simp only [doubles, List.mem_cons, Prod.mk.injEq, List.not_mem_nil, or_false] at hcd
      rcases hcd with ⟨-, rfl⟩ | ⟨-, rfl⟩ | ⟨-, rfl⟩ | ⟨-, rfl⟩ <;> exact absurd hc (by decide)

theorem is_of_fraction {ds rest : List Char} {m : Nat} {kind : TokenKind} (hds : SignedWhole ds)
    (hrest : Stops Digit rest) (h : fraction ds.length rest = ⟨m, .ok kind⟩) :
    ∃ lexeme rest', ds ++ rest = lexeme ++ rest' ∧ lexeme.length = m ∧ Is kind lexeme rest' := by
  obtain ⟨rfl, rfl, hpoint⟩ | ⟨fs, rest', rfl, rfl, rfl, hne, hfs, hrest'⟩ := fraction_sound h
  · refine ⟨ds, rest, rfl, rfl, .integer hds ?_⟩
    rintro c hc (hd | hd)
    · exact hrest c hc hd
    · exact hpoint c hc hd
  · refine ⟨ds ++ '.' :: fs, rest', by simp, ?_, .decimal hds hne hfs hrest'⟩
    simp only [List.length_append, List.length_cons]
    omega

theorem read_sound {c : Char} {cs : List Char} {n : Nat} {kind : TokenKind} (hblank : ¬ Blank c)
    (h : read (c :: cs) = ⟨n, .ok kind⟩) :
    ∃ lexeme rest, c :: cs = lexeme ++ rest ∧ lexeme.length = n ∧ Is kind lexeme rest := by
  by_cases hplain : c ∈ ['@', '\'', '"']
  · simp only [List.mem_cons, List.not_mem_nil, or_false] at hplain
    rcases hplain with rfl | rfl | rfl
    · cases cs with
      | nil => cases h
      | cons c cs =>
          change (if isLetter c then _ else _) = _ at h
          split at h
          · next hc =>
              cases h
              obtain ⟨ds, rest, hcs, hlen, hds, hrest⟩ := exists_count isRest_iff cs
              refine ⟨'@' :: c :: ds, rest, by simp [hcs], ?_, .atName ((isLetter_iff c).mp hc) hds hrest⟩
              simp only [List.length_cons, hlen]
              omega
          · cases h
    · obtain ⟨ds, rest, rfl, hds, rfl, rfl⟩ := character_sound h
      exact ⟨'\'' :: ds ++ ['\''], rest, by simp, by simp, .character hds⟩
    · obtain ⟨parts, rest, rfl, hparts, rfl, rfl⟩ := string_sound h
      refine ⟨'"' :: parts.flatten ++ ['"'], rest, by simp, ?_, .string hparts⟩
      simp only [List.length_append, List.length_cons, List.length_nil]
      omega
  · rw [read_cons hplain] at h
    split at h
    · next hc =>
        cases h
        obtain ⟨ds, rest, hcs, hlen, hds, hrest⟩ := exists_count isRest_iff cs
        refine ⟨c :: ds, rest, by simp [hcs], ?_, .name ((isLetter_iff c).mp hc) hds hrest⟩
        rw [List.length_cons, hlen, Nat.add_comm]
    · next hletter =>
        split at h
        · next hc =>
            obtain ⟨ds, rest, heq, hds, hrest, hfraction⟩ := number_sound ((isDigit_iff c).mp hc) h
            rw [Nat.zero_add] at hfraction
            rw [heq]
            exact is_of_fraction (.plain hds) hrest hfraction
        · next hdigit =>
            split at h
            · next hminus =>
                simp only [Bool.and_eq_true, beq_iff_eq] at hminus
                obtain ⟨rfl, hd⟩ := hminus
                cases cs with
                | nil => cases hd
                | cons d cs =>
                    obtain ⟨ds, rest, heq, hds, hrest, hfraction⟩ :=
                      number_sound ((isDigit_iff d).mp hd) h
                    rw [heq]
                    rw [Nat.add_comm] at hfraction
                    exact is_of_fraction (.negative hds) hrest hfraction
            · next hminus =>
                split at h
                · next hdouble =>
                    cases h
                    cases cs with
                    | nil => cases hdouble
                    | cons d cs => exact ⟨[c, d], cs, rfl, rfl, .double ((isDouble_iff c d).mp hdouble)⟩
                · next hdouble =>
                    cases h
                    refine ⟨[c], cs, rfl, rfl, .single hblank ?_ ?_ hplain ?_ ?_⟩
                    · exact fun hl => hletter ((isLetter_iff c).mpr hl)
                    · exact fun hd => hdigit ((isDigit_iff c).mpr hd)
                    · exact (stops_iff (isDouble_iff c)).mpr (Bool.not_eq_true _ ▸ hdouble)
                    · rintro rfl
                      refine (stops_iff isDigit_iff).mpr ?_
                      simpa using hminus

end Lexeme

namespace Cursor

def fresh (rest : List Char) (index : Nat) : Cursor := ⟨rest, [], index, 0⟩

theorem advanceBy_eq {n : Nat} {rest : List Char} (h : n ≤ rest.length) (pending : List Char)
    (index length : Nat) :
    advanceBy n ⟨rest, pending, index, length⟩ =
      ⟨rest.drop n, (rest.take n).reverse ++ pending, index + n, length + n⟩ := by
  induction n generalizing rest pending index length with
  | zero => simp [advanceBy]
  | succ n ih =>
      cases rest with
      | nil => simp at h
      | cons c cs =>
          rw [advanceBy, advance, ih (Nat.le_of_succ_le_succ h)]
          simp only [List.drop_succ_cons, List.take_succ_cons, List.reverse_cons, List.append_assoc,
            List.singleton_append, Nat.add_assoc, Nat.add_comm 1 n]

theorem token_fresh {cs : List Char} {n : Nat} {kind : TokenKind} (index : Nat)
    (h : Lexeme.read cs = ⟨n, .ok kind⟩) (hn : n ≤ cs.length) :
    (fresh cs index).token =
      (.ok ⟨kind, String.ofList (cs.take n), index⟩, fresh (cs.drop n) (index + n)) := by
  unfold token
  simp only [fresh, h, advanceBy_eq hn, finish, window, skip, List.append_nil, List.reverse_reverse,
    Nat.zero_add, Nat.add_sub_cancel]

theorem advanceBy_index (n : Nat) (c : Cursor) : (c.advanceBy n).index = c.index + n := by
  induction n generalizing c with
  | zero => rfl
  | succ n ih =>
      have hnext : c.advance.index = c.index + 1 := by
        unfold advance
        split <;> rfl
      rw [advanceBy, ih, hnext, Nat.add_assoc, Nat.add_comm 1]

theorem token_fresh_error {cs : List Char} {n : Nat} {cause : LexCause} (index : Nat)
    (h : Lexeme.read cs = ⟨n, .error cause⟩) :
    ∃ next, (fresh cs index).token = (.error ⟨cause, index + n⟩, next) := by
  unfold token
  rw [show (fresh cs index).rest = cs from rfl, h]
  refine ⟨(fresh cs index).advanceBy n, ?_⟩
  simp only [finish, advanceBy_index, fresh]

theorem tokens_nil (done : List Token) (index : Nat) :
    (fresh [] index).tokens done = .ok done.reverse := by
  rw [tokens, dif_pos (show (fresh [] index).rest = [] from rfl)]

theorem tokens_blank {c : Char} (hc : Lexeme.Blank c) (cs : List Char) (done : List Token)
    (index : Nat) : (fresh (c :: cs) index).tokens done = (fresh cs (index + 1)).tokens done := by
  have hsees : (fresh (c :: cs) index).sees [Lexeme.isBlank] = true := by
    simp [fresh, sees, peek, (Lexeme.isBlank_iff c).mpr hc]
  rw [tokens, dif_neg (show (fresh (c :: cs) index).rest ≠ [] from List.cons_ne_nil c cs),
    if_pos hsees]
  rfl

theorem tokens_lexeme {c : Char} (hc : ¬ Lexeme.Blank c) (cs : List Char) (done : List Token)
    (index : Nat) :
    (fresh (c :: cs) index).tokens done =
      match (fresh (c :: cs) index).token with
      | (.ok t, next) => next.tokens (t :: done)
      | (.error e, _) => .error e := by
  have hsees : ¬ (fresh (c :: cs) index).sees [Lexeme.isBlank] = true := by
    simp [fresh, sees, peek, Lexeme.isBlank_iff, hc]
  rw [tokens, dif_neg (show (fresh (c :: cs) index).rest ≠ [] from List.cons_ne_nil c cs),
    if_neg hsees]
  split <;> simp_all

theorem tokens_error {cs : List Char} {n : Nat} {cause : LexCause}
    (h : Lexeme.read cs = ⟨n, .error cause⟩) (done : List Token) (index : Nat) :
    (fresh cs index).tokens done = .error ⟨cause, index + n⟩ := by
  cases cs with
  | nil => cases h
  | cons c cs =>
      obtain ⟨next, htoken⟩ := token_fresh_error index h
      rw [tokens_lexeme (Lexeme.not_blank_of_error h), htoken]

end Cursor

namespace Lexeme

theorem SignedWhole.exists_cons {ds : List Char} (h : SignedWhole ds) :
    ∃ c cs, ds = c :: cs ∧ ¬ Blank c := by
  cases h with
  | plain h =>
      obtain ⟨d, es, rfl, hd⟩ := h.exists_cons
      exact ⟨d, es, rfl, hd.not_blank⟩
  | @negative ds h => exact ⟨'-', ds, rfl, by simp [Blank]⟩

theorem Is.exists_cons {kind : TokenKind} {lexeme rest : List Char} (h : Is kind lexeme rest) :
    ∃ c cs, lexeme = c :: cs ∧ ¬ Blank c := by
  cases h with
  | @name c cs _ hc => exact ⟨c, cs, rfl, hc.not_blank⟩
  | @atName c cs => exact ⟨'@', c :: cs, rfl, by simp [Blank]⟩
  | integer hds => exact hds.exists_cons
  | @decimal ds fs _ hds =>
      obtain ⟨c, cs, rfl, hc⟩ := hds.exists_cons
      exact ⟨c, cs ++ '.' :: fs, rfl, hc⟩
  | character => exact ⟨'\'', _, rfl, by simp [Blank]⟩
  | string => exact ⟨'"', _, rfl, by simp [Blank]⟩
  | @double c d _ hcd =>
      refine ⟨c, [d], rfl, ?_⟩
      simp only [doubles, List.mem_cons, Prod.mk.injEq, List.not_mem_nil, or_false] at hcd
      rcases hcd with ⟨rfl, _⟩ | ⟨rfl, _⟩ | ⟨rfl, _⟩ | ⟨rfl, _⟩ <;> simp [Blank]
  | @single c _ hblank => exact ⟨c, [], rfl, hblank⟩

end Lexeme

theorem Cursor.tokens_is {kind : TokenKind} {lexeme rest : List Char}
    (h : Lexeme.Is kind lexeme rest) (done : List Token) (index : Nat) :
    (fresh (lexeme ++ rest) index).tokens done =
      (fresh rest (index + lexeme.length)).tokens (⟨kind, String.ofList lexeme, index⟩ :: done) := by
  obtain ⟨c, cs, hcons, hc⟩ := h.exists_cons
  have htoken := token_fresh index h.read_append (by simp)
  have hstep := tokens_lexeme hc (cs ++ rest) done index
  rw [List.take_left, List.drop_left] at htoken
  rw [← List.cons_append, ← hcons, htoken] at hstep
  exact hstep

namespace Token

/-- The tokens are spelled by the characters that stand in front of the rest. -/
inductive SpelledBefore (rest : List Char) : Nat → List Char → List Token → Prop
  | nil {offset : Nat} : SpelledBefore rest offset [] []
  | blank {offset : Nat} {c : Char} {cs : List Char} {ts : List Token} : Lexeme.Blank c →
      SpelledBefore rest (offset + 1) cs ts → SpelledBefore rest offset (c :: cs) ts
  | lexeme {offset : Nat} {kind : TokenKind} {lexeme cs : List Char} {ts : List Token} :
      Lexeme.Is kind lexeme (cs ++ rest) → SpelledBefore rest (offset + lexeme.length) cs ts →
      SpelledBefore rest offset (lexeme ++ cs) (⟨kind, String.ofList lexeme, offset⟩ :: ts)

theorem SpelledBefore.tokens_eq {rest : List Char} {offset : Nat} {cs : List Char}
    {ts : List Token} (h : SpelledBefore rest offset cs ts) (done : List Token) :
    (Cursor.fresh (cs ++ rest) offset).tokens done =
      (Cursor.fresh rest (offset + cs.length)).tokens (ts.reverse ++ done) := by
  induction h generalizing done with
  | nil => rfl
  | blank hc _ ih =>
      rw [List.cons_append, Cursor.tokens_blank hc, ih, List.length_cons, Nat.add_assoc,
        Nat.add_comm 1]
  | lexeme hlexeme _ ih =>
      rw [List.append_assoc, Cursor.tokens_is hlexeme, ih, List.length_append, Nat.add_assoc,
        List.reverse_cons, List.append_assoc, List.singleton_append]

theorem SpelledBefore.blanks {rest blanks : List Char} (hblanks : ∀ c ∈ blanks, Lexeme.Blank c)
    {offset : Nat} {cs : List Char} {ts : List Token}
    (h : SpelledBefore rest (offset + blanks.length) cs ts) :
    SpelledBefore rest offset (blanks ++ cs) ts := by
  induction blanks generalizing offset with
  | nil => exact h
  | cons c blanks ih =>
      obtain ⟨hc, hblanks⟩ := List.forall_mem_cons.mp hblanks
      rw [List.length_cons, Nat.add_comm blanks.length, ← Nat.add_assoc] at h
      exact .blank hc (ih hblanks h)

theorem Spelled.blank {c : Char} (hc : Lexeme.Blank c) {offset : Nat} {cs : List Char}
    {ts : List Token} (h : Spelled (offset + 1) cs ts) : Spelled offset (c :: cs) ts := by
  cases h with
  | nil hblanks => exact .nil (List.forall_mem_cons.mpr ⟨hc, hblanks⟩)
  | @cons _ blanks lexeme rest kind ts hblanks hlexeme hrest =>
      have hoffset : offset + 1 + blanks.length = offset + (c :: blanks).length := by
        rw [List.length_cons]
        omega
      rw [hoffset] at hrest ⊢
      exact .cons (List.forall_mem_cons.mpr ⟨hc, hblanks⟩) hlexeme hrest

theorem spelledBefore_nil {offset : Nat} {cs : List Char} {ts : List Token} :
    SpelledBefore [] offset cs ts ↔ Spelled offset cs ts := by
  constructor
  · intro h
    induction h with
    | nil => exact .nil (List.forall_mem_nil _)
    | blank hc _ ih => exact ih.blank hc
    | lexeme hlexeme _ ih =>
        rw [List.append_nil] at hlexeme
        exact .cons (List.forall_mem_nil _) hlexeme ih
  · intro h
    induction h with
    | @nil offset blanks hblanks =>
        have hall : SpelledBefore [] offset (blanks ++ []) [] := .blanks hblanks .nil
        rwa [List.append_nil] at hall
    | cons hblanks hlexeme _ ih =>
        rw [List.append_assoc]
        refine .blanks hblanks (.lexeme ?_ ih)
        rwa [List.append_nil]

theorem Spelled.tokens_eq {offset : Nat} {cs : List Char} {ts : List Token}
    (h : Spelled offset cs ts) (done : List Token) :
    (Cursor.fresh cs offset).tokens done = .ok (done.reverse ++ ts) := by
  have hbefore := (spelledBefore_nil.mpr h).tokens_eq done
  rwa [List.append_nil, Cursor.tokens_nil, List.reverse_append, List.reverse_reverse] at hbefore

/-- Every text spells tokens up to its end, or up to where no lexeme can be read. -/
theorem exists_spelledBefore (offset : Nat) (cs : List Char) :
    ∃ front rest ts, cs = front ++ rest ∧ SpelledBefore rest offset front ts ∧
      (rest = [] ∨ ∃ n cause, Lexeme.read rest = ⟨n, .error cause⟩) := by
  -- Each round leaves a shorter rest: a blank takes one character, a lexeme at least one.
  induction hlen : cs.length using Nat.strong_induction_on generalizing cs offset with
  | h n ih =>
      subst hlen
      cases cs with
      | nil => exact ⟨[], [], [], rfl, .nil, .inl rfl⟩
      | cons c cs =>
          by_cases hc : Lexeme.Blank c
          · obtain ⟨front, rest, ts, rfl, hfront, hend⟩ :=
              ih cs.length (Nat.lt_succ_self _) (offset + 1) cs rfl
            exact ⟨c :: front, rest, ts, rfl, .blank hc hfront, hend⟩
          · cases hread : Lexeme.read (c :: cs) with
            | mk taken outcome =>
                cases outcome with
                | error cause => exact ⟨[], c :: cs, [], rfl, .nil, .inr ⟨taken, cause, hread⟩⟩
                | ok kind =>
                    obtain ⟨lexeme, rest, heq, -, hlexeme⟩ := Lexeme.read_sound hc hread
                    have hshort : rest.length < (c :: cs).length := by
                      obtain ⟨d, ds, rfl, _⟩ := hlexeme.exists_cons
                      rw [heq, List.length_append, List.length_cons]
                      omega
                    obtain ⟨front, rest, ts, rfl, hfront, hend⟩ :=
                      ih rest.length hshort (offset + lexeme.length) rest rfl
                    exact ⟨lexeme ++ front, rest, _, by rw [heq, List.append_assoc],
                      .lexeme hlexeme hfront, hend⟩

theorem spelled_of_tokens {cs : List Char} {offset : Nat} {done ts : List Token}
    (h : (Cursor.fresh cs offset).tokens done = .ok ts) :
    ∃ us, ts = done.reverse ++ us ∧ Spelled offset cs us := by
  obtain ⟨front, rest, us, rfl, hfront, rfl | ⟨n, cause, hread⟩⟩ := exists_spelledBefore offset cs
  · have hspelled := spelledBefore_nil.mp hfront
    rw [List.append_nil] at h ⊢
    exact ⟨us, Except.ok.inj (h.symm.trans (hspelled.tokens_eq done)), hspelled⟩
  · rw [hfront.tokens_eq, Cursor.tokens_error hread] at h
    cases h

theorem Spelled.lexed {offset : Nat} {cs : List Char} {ts : List Token}
    (h : Spelled offset cs ts) : ∀ t ∈ ts, t.WellFormed := by
  induction h with
  | nil _ => exact nofun
  | @cons offset blanks lexeme rest kind ts _ hlexeme _ ih =>
      refine List.forall_mem_cons.mpr ⟨?_, ih⟩
      rw [WellFormed, String.toList_ofList]
      exact hlexeme.before nofun

theorem lexed_of_listOfText {text : String} {ts : List Token} (h : listOfText text = .ok ts) :
    ∀ t ∈ ts, t.WellFormed := by
  obtain ⟨us, hts, hus⟩ := spelled_of_tokens h
  rw [hts]
  exact hus.lexed

theorem listOfText_lexeme {kind : TokenKind} {text : String}
    (h : Lexeme.Is kind text.toList []) : listOfText text = .ok [⟨kind, text, 0⟩] := by
  have htokens := Cursor.tokens_is h [] 0
  rw [List.append_nil, Cursor.tokens_nil, String.ofList_toList] at htokens
  exact htokens

def isWellFormed (t : Token) : Bool :=
  match t.text.toList with
  | [] => false
  | c :: cs =>
    !Lexeme.isBlank c &&
      match Lexeme.read (c :: cs) with
      | ⟨n, .ok kind⟩ => n == cs.length + 1 && kind == t.kind
      | _ => false

theorem isWellFormed_iff (t : Token) : t.isWellFormed = true ↔ t.WellFormed := by
  constructor
  · intro h
    unfold isWellFormed at h
    split at h
    · cases h
    · next c cs htext =>
        simp only [Bool.and_eq_true, Bool.not_eq_true'] at h
        obtain ⟨hblank, h⟩ := h
        have hc : ¬ Lexeme.Blank c := by
          rw [← Lexeme.isBlank_iff, hblank]
          decide
        split at h
        · next n kind hread =>
            simp only [Bool.and_eq_true, beq_iff_eq] at h
            obtain ⟨hn, hkind⟩ := h
            obtain ⟨lexeme, rest, heq, hlen, his⟩ := Lexeme.read_sound hc hread
            have hrest : rest = [] := by
              have hlength := congrArg List.length heq
              rw [List.length_append, List.length_cons] at hlength
              exact List.length_eq_zero_iff.1 (by omega)
            rw [hrest, List.append_nil] at heq
            rw [WellFormed, htext, heq, ← hkind, ← hrest]
            exact his
        · cases h
  · intro h
    obtain ⟨c, cs, htext, hblank⟩ := h.exists_cons
    have hread := h.read_append
    have hc : Lexeme.isBlank c = false := by
      rw [← Bool.not_eq_true, Lexeme.isBlank_iff]
      exact hblank
    rw [List.append_nil, htext] at hread
    simp [isWellFormed, htext, hread, hc]

instance (t : Token) : Decidable t.WellFormed := decidable_of_iff _ t.isWellFormed_iff

/-- The lexer computes the lexical grammar: the tokens of a text are those that it spells, and there
are none if it spells none. -/
theorem listOfText_eq_ok_iff (text : String) (ts : List Token) :
    listOfText text = .ok ts ↔ Spelled 0 text.toList ts := by
  constructor
  · intro h
    obtain ⟨us, hts, hus⟩ := spelled_of_tokens h
    rwa [show ts = us from hts]
  · intro h
    exact h.tokens_eq []

end Token

end PlcLang
