import PlcLang.Proofs.BrokenLexemes

namespace PlcLang

namespace Token

/-- What a text spells depends on no more than one character of the rest, and on none that is
blank. -/
theorem SpelledBefore.before {rest rest' : List Char} {offset : Nat} {cs : List Char}
    {ts : List Token} (h : SpelledBefore rest offset cs ts)
    (hrest : ∀ c ∈ rest'.head?, c ∈ rest.head? ∨ Lexeme.Blank c) :
    SpelledBefore rest' offset cs ts := by
  induction h with
  | nil => exact .nil
  | blank hc _ ih => exact .blank hc ih
  | @lexeme offset kind lexeme cs ts hlexeme _ ih =>
      refine .lexeme (hlexeme.before ?_) ih
      -- Only the last lexeme has the rest behind it.
      cases cs with
      | nil => exact hrest
      | cons c cs => exact fun d hd => .inl hd

theorem SpelledBefore.before_begun {begun rest : List Char} (hbegun : begun ≠ []) {offset : Nat}
    {cs : List Char} {ts : List Token} (h : SpelledBefore (begun ++ rest) offset cs ts)
    (rest' : List Char) : SpelledBefore (begun ++ rest') offset cs ts := by
  refine h.before fun c hc => .inl ?_
  obtain ⟨d, ds, rfl⟩ := List.exists_cons_of_ne_nil hbegun
  exact hc

/-- Behind the tokens, the text begins a lexeme that breaks where the error is. -/
inductive Broken (offset : Nat) : List Char → LexError → Prop
  | intro {front begun rest : List Char} {ts : List Token} {cause : LexCause} :
      SpelledBefore (begun ++ rest) offset front ts → Lexeme.Breaks cause begun rest.head? →
      Broken offset (front ++ begun ++ rest) ⟨cause, offset + (front ++ begun).length⟩

theorem Broken.tokens_eq {offset : Nat} {cs : List Char} {e : LexError} (h : Broken offset cs e)
    (done : List Token) : (Cursor.fresh cs offset).tokens done = .error e := by
  cases h with
  | intro hfront hbreaks =>
      rw [List.append_assoc, hfront.tokens_eq, Cursor.tokens_error hbreaks.read_append,
        List.length_append, Nat.add_assoc]

theorem broken_of_tokens {offset : Nat} {cs : List Char} {done : List Token} {e : LexError}
    (h : (Cursor.fresh cs offset).tokens done = .error e) : Broken offset cs e := by
  obtain ⟨front, rest, ts, rfl, hfront, rfl | ⟨n, cause, hread⟩⟩ := exists_spelledBefore offset cs
  · rw [hfront.tokens_eq, Cursor.tokens_nil] at h
    cases h
  · obtain ⟨begun, rest, rfl, -, hbreaks⟩ := Lexeme.read_error hread
    have hbroken := Broken.intro hfront hbreaks
    rw [List.append_assoc] at hbroken
    rwa [Except.error.inj (h.symm.trans (hbroken.tokens_eq done))]

theorem Broken.offset_le {cs : List Char} {e : LexError} (h : Broken 0 cs e) :
    e.offset ≤ cs.length := by
  cases h with
  | intro =>
      rw [Nat.zero_add]
      exact (List.prefix_append _ _).length_le

theorem listOfText_eq_error_iff (text : String) (e : LexError) :
    listOfText text = .error e ↔ Broken 0 text.toList e :=
  ⟨broken_of_tokens, fun h => h.tokens_eq []⟩

/-- Some text that starts like this has tokens. -/
def Extendable (cs : List Char) : Prop :=
  ∃ text ts, cs <+: text.toList ∧ listOfText text = .ok ts

theorem Extendable.shorten {cs ds : List Char} (h : Extendable ds) (hstart : cs <+: ds) :
    Extendable cs := by
  obtain ⟨text, ts, hds, hts⟩ := h
  exact ⟨text, ts, hstart.trans hds, hts⟩

theorem Broken.extendable {cs : List Char} {e : LexError} (h : Broken 0 cs e) :
    Extendable (cs.take e.offset) := by
  cases h with
  | @intro front begun rest ts cause hfront hbreaks =>
      obtain ⟨more, kind, hlexeme⟩ := hbreaks.exists_is
      have hbefore := hfront.before_begun hbreaks.ne_nil more
      obtain ⟨us, hus⟩ : ∃ us, (Cursor.fresh (front ++ (begun ++ more)) 0).tokens [] = .ok us := by
        rw [hbefore.tokens_eq, ← List.append_nil (begun ++ more), Cursor.tokens_is hlexeme,
          Cursor.tokens_nil]
        exact ⟨_, rfl⟩
      refine ⟨String.ofList (front ++ begun ++ more), us, ?_, ?_⟩
      · rw [Nat.zero_add, List.take_left, String.toList_ofList]
        exact List.prefix_append _ _
      · rw [listOfText, Cursor.ofText, String.toList_ofList, List.append_assoc]
        exact hus

theorem Broken.reread {cs cs' : List Char} {e : LexError} (h : Broken 0 cs e)
    (hlen : e.offset < cs.length) (hstart : cs.take (e.offset + 1) <+: cs') : Broken 0 cs' e := by
  cases h with
  | @intro front begun rest ts cause hfront hbreaks =>
      cases rest with
      | nil =>
          rw [List.append_nil, Nat.zero_add] at hlen
          exact absurd hlen (Nat.lt_irrefl _)
      | cons c rest =>
          obtain ⟨more, rfl⟩ := hstart
          have hbefore := hfront.before_begun hbreaks.ne_nil (c :: more)
          have hbroken : Broken 0 (front ++ begun ++ c :: more) _ := .intro hbefore hbreaks
          have htake : (front ++ begun ++ c :: rest).take (0 + (front ++ begun).length + 1) =
              front ++ begun ++ [c] := by
            rw [Nat.zero_add, List.take_length_add_append]
            rfl
          rwa [htake, List.append_assoc, List.singleton_append]

/-- The error of a text without tokens stands in the text or at its end. A prefix of the text is one
of a text with tokens if it ends there or before; and all texts that go one character further with
this one have the very same error. -/
theorem error_offsets_exact {text : String} {e : LexError} (h : listOfText text = .error e) :
    e.offset ≤ text.length ∧
      (∀ n ≤ text.length, Extendable (text.toList.take n) ↔ n ≤ e.offset) ∧
      (e.offset < text.length → ∀ text' : String,
        text.toList.take (e.offset + 1) <+: text'.toList → listOfText text' = .error e) := by
  have hbroken := (listOfText_eq_error_iff text e).mp h
  rw [← String.length_toList]
  have hsame : e.offset < text.toList.length → ∀ text' : String,
      text.toList.take (e.offset + 1) <+: text'.toList → listOfText text' = .error e :=
    fun hlt text' hstart => (listOfText_eq_error_iff text' e).mpr (hbroken.reread hlt hstart)
  refine ⟨hbroken.offset_le, fun n hn => ⟨?_, ?_⟩, hsame⟩
  · rintro ⟨text', ts, hstart, hts⟩
    by_contra hlater
    have hshorter : text.toList.take (e.offset + 1) <+: text.toList.take n :=
      List.take_prefix_take_left (by omega)
    have herror := hsame (by omega) text' (hshorter.trans hstart)
    cases hts.symm.trans herror
  · intro hle
    exact hbroken.extendable.shorten (List.take_prefix_take_left hle)

/-- An unknown escape in a string behind two tokens: all up to the backslash can be continued, and
the next character is wrong whatever follows it. -/
theorem unknown_escape_offset_exact :
    let text := "s = \"a\\q\" + 1"
    let e : LexError := ⟨.badEscape, 7⟩
    listOfText text = .error e ∧
      (∀ n ≤ text.length, Extendable (text.toList.take n) ↔ n ≤ 7) ∧
      listOfText "s = \"a\\quit" = .error e := by
  intro text e
  have h : listOfText text = .error e := by decide +kernel
  obtain ⟨-, hstart, hsame⟩ := error_offsets_exact h
  exact ⟨h, hstart, hsame (by decide) _ (by decide)⟩

end Token

end PlcLang
