import Mathlib.Data.List.Chain
import PlcLang.Proofs.JavaLines

namespace PlcLang

namespace Java

def signs : List Char := [' ', ',', '(', ')', '[', ']', '\x7b', '\x7d']

def delimiters : List Char := signs ++ ['\'', '"']

/-- The characters that end a name or a number. -/
def Delimiter (c : Char) : Prop := c ∈ delimiters

instance (c : Char) : Decidable (Delimiter c) := inferInstanceAs (Decidable (c ∈ _))

theorem delimiter_of_sign {c : Char} (h : c ∈ signs) : Delimiter c :=
  List.mem_append_left ['\'', '"'] h

-- There is an instance as well that goes through all characters.
instance decidableForallMem {P : Char → Prop} [DecidablePred P] (cs : List Char) :
    Decidable (∀ c ∈ cs, P c) :=
  List.decidableBAll P cs

/-- The characters are one name, one number or one literal between quotes. -/
inductive Atomic : List Char → Prop
  | plain {cs : List Char} : cs ≠ [] → (∀ c ∈ cs, ¬ Delimiter c) → Atomic cs
  | quoted {quote : Char} {parts : List (List Char)} : quote = '\'' ∨ quote = '"' →
      (∀ part ∈ parts, Lexeme.Quotable quote part) → Atomic (quote :: parts.flatten ++ [quote])

abbrev Delimited (rest : List Char) : Prop := Lexeme.Stops (fun c => ¬ Delimiter c) rest

theorem span_unique {P : Char → Prop} {cs ds rest rest' : List Char} (hcs : ∀ c ∈ cs, P c)
    (hds : ∀ c ∈ ds, P c) (hrest : Lexeme.Stops P rest) (hrest' : Lexeme.Stops P rest')
    (heq : cs ++ rest = ds ++ rest') : cs = ds ∧ rest = rest' := by
  induction cs generalizing ds with
  | nil =>
      cases ds with
      | nil => exact ⟨rfl, heq⟩
      | cons d ds =>
          obtain rfl : rest = _ := heq
          exact absurd (hds d List.mem_cons_self) (hrest d rfl)
  | cons c cs ih =>
      cases ds with
      | nil =>
          obtain rfl : _ = rest' := heq
          exact absurd (hcs c List.mem_cons_self) (hrest' c rfl)
      | cons d ds =>
          rw [List.cons_append, List.cons_append, List.cons.injEq] at heq
          obtain ⟨rfl, heq⟩ := heq
          obtain ⟨_, hcs⟩ := List.forall_mem_cons.mp hcs
          obtain ⟨_, hds⟩ := List.forall_mem_cons.mp hds
          obtain ⟨rfl, rfl⟩ := ih hcs hds heq
          exact ⟨rfl, rfl⟩

theorem part_unique {quote : Char} {part part' rest rest' : List Char}
    (h : Lexeme.Quotable quote part) (h' : Lexeme.Quotable quote part')
    (heq : part ++ rest = part' ++ rest') : part = part' ∧ rest = rest' := by
  cases h with
  | plain _ hslash =>
      cases h' with
      | plain =>
          obtain ⟨rfl, hrest⟩ := List.cons.inj heq
          exact ⟨rfl, hrest⟩
      | escape => exact absurd (List.cons.inj heq).1 hslash
  | escape =>
      cases h' with
      | plain _ hslash => exact absurd (List.cons.inj heq).1.symm hslash
      | escape =>
          obtain ⟨rfl, hrest⟩ := List.cons.inj (List.cons.inj heq).2
          exact ⟨rfl, hrest⟩

theorem part_ne_quote {quote : Char} (hquote : quote ≠ '\\') {part rest rest' : List Char}
    (h : Lexeme.Quotable quote part) : part ++ rest ≠ quote :: rest' := by
  intro heq
  cases h with
  | plain hne => exact hne (List.cons.inj heq).1
  | escape => exact hquote (List.cons.inj heq).1.symm

/-- A literal ends with the first quote that no backslash stands before. -/
theorem quoted_unique {quote : Char} (hquote : quote ≠ '\\') {parts parts' : List (List Char)}
    {rest rest' : List Char} (h : ∀ part ∈ parts, Lexeme.Quotable quote part)
    (h' : ∀ part ∈ parts', Lexeme.Quotable quote part)
    (heq : parts.flatten ++ quote :: rest = parts'.flatten ++ quote :: rest') :
    parts = parts' ∧ rest = rest' := by
  induction parts generalizing parts' with
  | nil =>
      cases parts' with
      | nil => exact ⟨rfl, (List.cons.inj heq).2⟩
      | cons part parts' =>
          rw [List.flatten_cons, List.append_assoc] at heq
          exact absurd heq.symm (part_ne_quote hquote (h' part List.mem_cons_self))
  | cons part parts ih =>
      cases parts' with
      | nil =>
          rw [List.flatten_cons, List.append_assoc] at heq
          exact absurd heq (part_ne_quote hquote (h part List.mem_cons_self))
      | cons part' parts' =>
          obtain ⟨hpart, hparts⟩ := List.forall_mem_cons.mp h
          obtain ⟨hpart', hparts'⟩ := List.forall_mem_cons.mp h'
          rw [List.flatten_cons, List.flatten_cons, List.append_assoc, List.append_assoc] at heq
          obtain ⟨rfl, hrest⟩ := part_unique hpart hpart' heq
          obtain ⟨rfl, rfl⟩ := ih hparts hparts' hrest
          exact ⟨rfl, rfl⟩

theorem Atomic.unique {cs ds rest rest' : List Char} (h : Atomic cs) (h' : Atomic ds)
    (hrest : Delimited rest) (hrest' : Delimited rest') (heq : cs ++ rest = ds ++ rest') :
    cs = ds ∧ rest = rest' := by
  have hfirst {cs ds rest : List Char} {quote : Char} (hne : cs ≠ [])
      (hcs : ∀ c ∈ cs, ¬ Delimiter c) (hquote : quote = '\'' ∨ quote = '"') :
      cs ++ rest ≠ quote :: ds := by
    intro heq
    obtain ⟨c, cs, rfl⟩ := List.exists_cons_of_ne_nil hne
    refine hcs c List.mem_cons_self ((List.cons.inj heq).1 ▸ ?_)
    obtain rfl | rfl := hquote <;> decide
  cases h with
  | plain hne hcs =>
      cases h' with
      | plain _ hds => exact span_unique hcs hds hrest hrest' heq
      | quoted hquote => exact absurd heq (hfirst hne hcs hquote)
  | @quoted quote parts hquote hparts =>
      cases h' with
      | plain hne hds => exact absurd heq.symm (hfirst hne hds hquote)
      | quoted _ hparts' =>
          simp only [List.cons_append, List.append_assoc, List.nil_append,
            List.cons.injEq] at heq
          obtain ⟨rfl, heq⟩ := heq
          have hslash : quote ≠ '\\' := by obtain rfl | rfl := hquote <;> decide
          obtain ⟨rfl, rfl⟩ := quoted_unique hslash hparts hparts' heq
          exact ⟨rfl, rfl⟩

namespace Piece

/-- Atoms are names and literals, and operators are those of the ladder. -/
def Clear : Piece → Prop
  | atom text => Atomic text.toList
  | operator op => ∃ rung, OnRung rung op
  | _ => True

def IsAtom : Piece → Prop
  | atom _ => True
  | _ => False

variable {p q : Piece}

theorem sign_head (hp : ¬ p.IsAtom) : ∃ c cs, p.text.toList = c :: cs ∧ c ∈ signs := by
  cases p with
  | atom => exact absurd trivial hp
  | operator op =>
      refine ⟨' ', op.symbol.toList ++ [' '], ?_, by decide⟩
      simp [text]
  | comma => exact ⟨',', [' '], rfl, by decide⟩
  | opening b =>
      cases b with
      | round => exact ⟨'(', [], rfl, by decide⟩
      | square => exact ⟨'[', [], rfl, by decide⟩
      | curly => exact ⟨'\x7b', [], rfl, by decide⟩
  | closing b =>
      cases b with
      | round => exact ⟨')', [], rfl, by decide⟩
      | square => exact ⟨']', [], rfl, by decide⟩
      | curly => exact ⟨'\x7d', [], rfl, by decide⟩

theorem atomic_head {cs : List Char} (h : Atomic cs) : ∃ c ds, cs = c :: ds ∧ c ∉ signs := by
  cases h with
  | plain hne hcs =>
      obtain ⟨c, cs, rfl⟩ := List.exists_cons_of_ne_nil hne
      exact ⟨c, cs, rfl, fun hc => hcs c List.mem_cons_self (delimiter_of_sign hc)⟩
  | quoted hquote _ =>
      refine ⟨_, _, rfl, ?_⟩
      obtain rfl | rfl := hquote <;> decide

theorem symbol_unique {op op' : BinOp} {rest rest' : List Char} (hop : ∃ rung, OnRung rung op)
    (hop' : ∃ rung, OnRung rung op')
    (heq : op.symbol.toList ++ ' ' :: rest = op'.symbol.toList ++ ' ' :: rest') :
    op = op' ∧ rest = rest' := by
  have hblank {op : BinOp} (hop : ∃ rung, OnRung rung op) : ∀ c ∈ op.symbol.toList, c ≠ ' ' := by
    obtain ⟨rung, hop⟩ := hop
    cases op with
    | pow | other => cases onRung_iff.mp hop
    | _ => decide
  have hstops (rest : List Char) : Lexeme.Stops (· ≠ ' ') (' ' :: rest) := by
    rintro c ⟨⟩
    exact not_not.mpr rfl
  obtain ⟨hsame, hrest⟩ := span_unique (hblank hop) (hblank hop') (hstops _) (hstops _) heq
  have hnamed {op : BinOp} (hop : ∃ rung, OnRung rung op) : BinOp.ofSymbol op.symbol = op := by
    obtain ⟨rung, hop⟩ := hop
    cases op with
    | pow | other => cases onRung_iff.mp hop
    | _ => rfl
  refine ⟨?_, (List.cons.inj hrest).2⟩
  rw [← hnamed hop, ← hnamed hop', String.toList_inj.mp hsame]

theorem sign_unique {rest rest' : List Char} (hp : ¬ p.IsAtom) (hq : ¬ q.IsAtom) (h : p.Clear)
    (h' : q.Clear) (heq : p.text.toList ++ rest = q.text.toList ++ rest') :
    p = q ∧ rest = rest' := by
  cases p with
  | atom => exact absurd trivial hp
  | operator op =>
      cases q with
      | atom => exact absurd trivial hq
      | operator op' =>
          simp only [text, String.toList_append, List.append_assoc] at heq
          obtain ⟨rfl, hrest⟩ := symbol_unique h h' (List.cons.inj heq).2
          exact ⟨rfl, hrest⟩
      | comma => simp [text] at heq
      | opening b | closing b => cases b <;> simp [text] at heq
  | comma =>
      cases q with
      | atom => exact absurd trivial hq
      | comma => exact ⟨rfl, by simpa [text] using heq⟩
      | operator => simp [text] at heq
      | opening b | closing b => cases b <;> simp [text] at heq
  | opening b =>
      cases q with
      | atom => exact absurd trivial hq
      | opening b' => cases b <;> cases b' <;> simp_all [text]
      | closing b' => cases b <;> cases b' <;> simp [text] at heq
      | operator | comma => cases b <;> simp [text] at heq
  | closing b =>
      cases q with
      | atom => exact absurd trivial hq
      | closing b' => cases b <;> cases b' <;> simp_all [text]
      | opening b' => cases b <;> cases b' <;> simp [text] at heq
      | operator | comma => cases b <;> simp [text] at heq

theorem unique {rest rest' : List Char} (h : p.Clear) (h' : q.Clear)
    (hrest : p.IsAtom → Delimited rest) (hrest' : q.IsAtom → Delimited rest')
    (heq : p.text.toList ++ rest = q.text.toList ++ rest') : p = q ∧ rest = rest' := by
  have hkinds {p q : Piece} {rest rest' : List Char} (h : p.Clear) (hp : p.IsAtom)
      (hq : ¬ q.IsAtom) : p.text.toList ++ rest ≠ q.text.toList ++ rest' := by
    intro heq
    cases p with
    | atom s =>
        obtain ⟨c, cs, hc, hplain⟩ := atomic_head h
        obtain ⟨d, ds, hd, hsign⟩ := sign_head hq
        rw [hd, text, hc] at heq
        exact hplain ((List.cons.inj heq).1 ▸ hsign)
    | _ => exact hp
  by_cases hp : p.IsAtom
  · by_cases hq : q.IsAtom
    · cases p with
      | atom s =>
          cases q with
          | atom s' =>
              obtain ⟨hsame, hrests⟩ := Atomic.unique h h' (hrest hp) (hrest' hq) heq
              exact ⟨congrArg atom (String.toList_inj.mp hsame), hrests⟩
          | _ => exact hq.elim
      | _ => exact hp.elim
    · exact absurd heq (hkinds h hp hq)
  · by_cases hq : q.IsAtom
    · exact absurd heq.symm (hkinds h' hq hp)
    · exact sign_unique hp hq h h' heq

end Piece

abbrev Separated (ps : List Piece) : Prop := ps.IsChain fun p q => ¬ (p.IsAtom ∧ q.IsAtom)

theorem Separated.behind {ps : List Piece} {p : Piece} (h : Separated ps) (hp : ¬ p.IsAtom) :
    Separated (p :: ps) :=
  List.isChain_cons.mpr ⟨fun _ _ hboth => hp hboth.1, h⟩

end Java

open Java

namespace Lexeme

theorem Letter.not_delimiter {c : Char} (h : Letter c) : ¬ Delimiter c := by
  have hall : ∀ d ∈ delimiters, ¬ Letter d := by decide
  exact fun hc => hall c hc h

theorem Digit.not_delimiter {c : Char} (h : Digit c) : ¬ Delimiter c := by
  have hall : ∀ d ∈ delimiters, ¬ Digit d := by decide
  exact fun hc => hall c hc h

theorem NameRest.not_delimiter {c : Char} (h : NameRest c) : ¬ Delimiter c := by
  obtain h | h | rfl | rfl := h
  · exact h.not_delimiter
  · exact h.not_delimiter
  · decide
  · decide

theorem SignedWhole.atomic {ds : List Char} (h : SignedWhole ds) :
    ds ≠ [] ∧ ∀ c ∈ ds, ¬ Delimiter c := by
  cases h with
  | plain h => exact ⟨h.digits_of.1, fun c hc => (h.digits_of.2 c hc).not_delimiter⟩
  | negative h =>
      refine ⟨nofun, List.forall_mem_cons.mpr ⟨by decide, fun c hc => ?_⟩⟩
      exact (h.digits_of.2 c hc).not_delimiter

theorem Is.atomic {kind : TokenKind} {lexeme rest : List Char} (h : Is kind lexeme rest)
    (hkind : kind ≠ .operator) : Atomic lexeme := by
  cases h with
  | name hc hcs =>
      refine .plain nofun (List.forall_mem_cons.mpr ⟨hc.not_delimiter, ?_⟩)
      exact fun d hd => (hcs d hd).not_delimiter
  | atName hc hcs =>
      refine .plain nofun (List.forall_mem_cons.mpr ⟨by decide, ?_⟩)
      exact List.forall_mem_cons.mpr ⟨hc.not_delimiter, fun d hd => (hcs d hd).not_delimiter⟩
  | integer hds => exact .plain hds.atomic.1 hds.atomic.2
  | decimal hds _ hfs =>
      refine .plain (by simp) (List.forall_mem_append.mpr ⟨hds.atomic.2, ?_⟩)
      exact List.forall_mem_cons.mpr ⟨by decide, fun c hc => (hfs c hc).not_delimiter⟩
  | @character cs _ hcs =>
      have hparts := Atomic.quoted (.inl rfl) (List.forall_mem_singleton.mpr hcs)
      rwa [List.flatten_singleton] at hparts
  | string hparts => exact .quoted (.inr rfl) hparts
  | double | single => exact absurd rfl hkind

end Lexeme

theorem Literal.ReadBack.atomic {value : Literal} {kind : TokenKind} {text : String}
    (h : value.ReadBack kind text) (hkind : kind ≠ .operator) : Atomic text.toList :=
  (Token.lexed_of_listOfText h.token _ (List.mem_singleton_self _)).atomic hkind

theorem Literal.atomic (value : Literal) : Atomic value.javaText.toList := by
  have hquoted {quote : Char} (hquote : quote = '\'' ∨ quote = '"') (s : String) :
      Atomic (quoted quote s).toList := by
    rw [quoted_toList, List.flatMap_def]
    exact .quoted hquote (List.forall_mem_map.mpr fun c _ => quotable_escapeChar hquote c)
  cases value with
  | nil => exact .plain (by decide) (by decide)
  | boolean b => cases b <;> exact .plain (by decide) (by decide)
  | integer n => exact (integer_readBack n).atomic nofun
  | decimal d =>
      obtain h | h := lt_or_ge d.exponent 0
      · exact (positional_readBack h).atomic nofun
      · obtain ⟨n, hread, _⟩ := positional_readBack_integer h
        exact hread.atomic nofun
  | character s => exact hquoted (.inl rfl) s
  | string s => exact hquoted (.inr rfl) s

namespace Java

variable {α β : Type} {x : Result α}

def OnlyLong (x : Result α) : Prop := ∀ failure, x = .error failure → failure = .longNumeral

theorem OnlyLong.pure (a : α) : OnlyLong (Pure.pure a : Result α) := nofun

theorem OnlyLong.bind {f : α → Result β} (hx : OnlyLong x) (hf : ∀ a, OnlyLong (f a)) :
    OnlyLong (x >>= f) := by
  intro failure h
  cases x with
  | error why =>
      cases h
      exact hx failure rfl
  | ok a => exact hf a failure h

end Java

namespace Expr

/-- No name in the expression has a delimiter in it. -/
def Plain (e : Expr) : Prop :=
  ∀ n, (Node.expr e).Has n → ∀ w ∈ n.javaNames, Atomic w.toList

theorem exists_onRung {op : BinOp} (h : (precedence? op).isSome) : ∃ rung, OnRung rung op := by
  cases op with
  | pow | other => cases h
  | _ => exact ⟨_, onRung_iff.mpr rfl⟩

theorem Writes.clear {e : Expr} {piece : Piece} (h : e.Writes piece) (hplain : e.Plain) :
    piece.Clear := by
  cases h with
  | literal => exact Literal.atomic _
  | name hhas hw => exact hplain _ hhas _ hw
  | power => exact .plain (by decide) (by decide)
  | operator hop => exact exists_onRung hop
  | comma | opening | closing => trivial

end Expr

end PlcLang
