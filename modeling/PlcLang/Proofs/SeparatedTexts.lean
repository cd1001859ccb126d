import PlcLang.Proofs.MalformedTexts

namespace PlcLang

def Token.shift (n : Nat) (t : Token) : Token := { t with offset := t.offset + n }

def LexError.shift (n : Nat) (e : LexError) : LexError := { e with offset := e.offset + n }

def Lexeme.Separator (blanks : String) : Prop := blanks ≠ "" ∧ ∀ c ∈ blanks.toList, Blank c

namespace Token

/-- The texts of the tokens, in order, with a separator between any two neighbours. -/
inductive Rejoined : List Token → String → Prop
  | nil : Rejoined [] ""
  | single (t : Token) : Rejoined [t] t.text
  | cons (t : Token) {u : Token} {ts : List Token} {blanks joined : String} :
      Lexeme.Separator blanks → Rejoined (u :: ts) joined →
      Rejoined (t :: u :: ts) (t.text ++ blanks ++ joined)

theorem SpelledBefore.shift {rest : List Char} {offset : Nat} {cs : List Char} {ts : List Token}
    (h : SpelledBefore rest offset cs ts) (n : Nat) :
    SpelledBefore rest (offset + n) cs (ts.map (Token.shift n)) := by
  induction h with
  | nil => exact .nil
  | blank hc _ ih =>
      rw [Nat.add_right_comm] at ih
      exact .blank hc ih
  | lexeme hlexeme _ ih =>
      rw [Nat.add_right_comm] at ih
      exact .lexeme hlexeme ih

theorem Broken.shift {offset : Nat} {cs : List Char} {e : LexError} (h : Broken offset cs e)
    (n : Nat) : Broken (offset + n) cs (e.shift n) := by
  cases h with
  | intro hfront hbreaks =>
      have hbroken := Broken.intro (hfront.shift n) hbreaks
      rwa [Nat.add_right_comm] at hbroken

theorem tokens_shift (text : String) (done : List Token) (n : Nat) :
    (Cursor.fresh text.toList n).tokens done =
      match listOfText text with
      | .ok us => .ok (done.reverse ++ us.map (shift n))
      | .error e => .error (e.shift n) := by
  cases htext : listOfText text with
  | error e =>
      have hbroken := (broken_of_tokens htext).shift n
      rw [Nat.zero_add] at hbroken
      exact hbroken.tokens_eq done
  | ok us =>
      obtain ⟨_, rfl, hspelled⟩ := spelled_of_tokens htext
      have hshifted := (spelledBefore_nil.mpr hspelled).shift n
      rw [Nat.zero_add] at hshifted
      exact (spelledBefore_nil.mp hshifted).tokens_eq done

theorem listOfText_append {text blanks : String} {ts : List Token} (h : listOfText text = .ok ts)
    (hblanks : Lexeme.Separator blanks) (text' : String) :
    listOfText (text ++ blanks ++ text') =
      match listOfText text' with
      | .ok us => .ok (ts ++ us.map (shift (text.length + blanks.length)))
      | .error e => .error (e.shift (text.length + blanks.length)) := by
  obtain ⟨_, rfl, hspelled⟩ := spelled_of_tokens h
  -- To the last lexeme, a blank behind it is the same as the end of the text.
  have hfront : SpelledBefore (blanks.toList ++ text'.toList) 0 text.toList ts := by
    refine (spelledBefore_nil.mpr hspelled).before fun c hc => .inr ?_
    obtain ⟨b, bs, hcons⟩ := List.exists_cons_of_ne_nil (mt String.toList_eq_nil_iff.mp hblanks.1)
    rw [hcons] at hc
    cases hc
    exact hblanks.2 c (hcons ▸ List.mem_cons_self)
  have hgap : SpelledBefore text'.toList text.length (blanks.toList ++ []) [] :=
    .blanks hblanks.2 .nil
  rw [List.append_nil] at hgap
  calc listOfText (text ++ blanks ++ text')
      = (Cursor.fresh (text.toList ++ (blanks.toList ++ text'.toList)) 0).tokens [] := by
        rw [← List.append_assoc, ← String.toList_append, ← String.toList_append]
        rfl
    _ = (Cursor.fresh (blanks.toList ++ text'.toList) text.length).tokens ts.reverse := by
        rw [hfront.tokens_eq, Nat.zero_add, String.length_toList, List.append_nil]
    _ = (Cursor.fresh text'.toList (text.length + blanks.length)).tokens ts.reverse := by
        rw [hgap.tokens_eq, String.length_toList]
        rfl
    _ = _ := by rw [tokens_shift, List.reverse_reverse]

theorem Rejoined.listOfText_eq {ts : List Token} {joined : String} (h : Rejoined ts joined)
    (hts : ∀ t ∈ ts, t.WellFormed) :
    ∃ us, listOfText joined = .ok us ∧
      us.map (fun t => (t.kind, t.text)) = ts.map fun t => (t.kind, t.text) := by
  induction h with
  | nil => exact ⟨[], Cursor.tokens_nil [] 0, rfl⟩
  | single t =>
      have ht : t.WellFormed := List.forall_mem_singleton.mp hts
      exact ⟨_, listOfText_lexeme ht, rfl⟩
  | @cons t u ts blanks joined hblanks _ ih =>
      obtain ⟨ht, hrest⟩ := List.forall_mem_cons.mp hts
      obtain ⟨us, hus, hsame⟩ := ih hrest
      refine ⟨⟨t.kind, t.text, 0⟩ :: us.map (shift (t.text.length + blanks.length)), ?_, ?_⟩
      · rw [listOfText_append (listOfText_lexeme ht) hblanks, hus]
        rfl
      · rw [List.map_cons, List.map_map, List.map_cons, ← hsame]
        rfl

/-- Behind a text with tokens and a separator, every text has the tokens that it has alone, or the
error that it has alone, as much further back as the text and the separator are long. So the texts
of the tokens, put together with any separators, have tokens of the same kinds and texts. -/
theorem separated_texts {text : String} {ts : List Token} (h : listOfText text = .ok ts) :
    (∀ blanks text' : String, Lexeme.Separator blanks →
      listOfText (text ++ blanks ++ text') =
        match listOfText text' with
        | .ok us => .ok (ts ++ us.map (shift (text.length + blanks.length)))
        | .error e => .error (e.shift (text.length + blanks.length))) ∧
    ∀ joined : String, Rejoined ts joined →
      ∃ us, listOfText joined = .ok us ∧
        us.map (fun t => (t.kind, t.text)) = ts.map fun t => (t.kind, t.text) :=
  ⟨fun _ text' hblanks => listOfText_append h hblanks text',
    fun _ hjoined => hjoined.listOfText_eq (lexed_of_listOfText h)⟩

/-- A name and half of an operator, with a separator in front of the other half: a literal behind it
keeps its token, one that is malformed its error, and the operator remains in two. -/
theorem halves_separated :
    let ts : List Token := [⟨.identifier, "a", 0⟩, ⟨.operator, "=", 1⟩, ⟨.operator, "=", 3⟩]
    listOfText "a= =" = .ok ts ∧ Lexeme.Separator "\n " ∧
      listOfText ("a= =" ++ "\n " ++ "1.5") = .ok (ts ++ [⟨.decimal, "1.5", 6⟩]) ∧
      listOfText ("a= =" ++ "\n " ++ "1.") = .error ⟨.digitAfterPoint, 8⟩ ∧
      ∃ us, listOfText "a\t= \r=" = .ok us ∧
        us.map (fun t => (t.kind, t.text)) = ts.map fun t => (t.kind, t.text) := by
  intro ts
  have h : listOfText "a= =" = .ok ts := by decide +kernel
  have hseparator : Lexeme.Separator "\n " := by simp [Lexeme.Separator, Lexeme.Blank]
  obtain ⟨happend, hrejoin⟩ := separated_texts h
  have hnumber : listOfText "1.5" = .ok [⟨.decimal, "1.5", 0⟩] := by decide +kernel
  have herror : listOfText "1." = .error ⟨.digitAfterPoint, 2⟩ := by decide +kernel
  have hok := happend "\n " "1.5" hseparator
  have hfail := happend "\n " "1." hseparator
  rw [hnumber] at hok
  rw [herror] at hfail
  have htab : Lexeme.Separator "\t" := by simp [Lexeme.Separator, Lexeme.Blank]
  have hreturn : Lexeme.Separator " \r" := by simp [Lexeme.Separator, Lexeme.Blank]
  have hjoined : Rejoined ts ("a" ++ "\t" ++ ("=" ++ " \r" ++ "=")) :=
    .cons _ htab (.cons _ hreturn (.single _))
  exact ⟨h, hseparator, hok, hfail, hrejoin _ hjoined⟩

end Token

end PlcLang
