import PlcLang.Java
import PlcLang.Proofs.SourceErrors

namespace PlcLang

open Rule Lexeme PlcLang.Parser

namespace Expr

theorem ofText_of_within {text : String} {ts : List Token} {e : Expr}
    (hts : Token.listOfText text = .ok ts) (h : Within parseDepth ts e) : ofText text = .ok e := by
  have hlexed := Token.lexed_of_listOfText hts
  have htokens : (Input.ofTokens ts).tokens = ts ++ [] := by
    rw [Input.tokens_ofTokens hlexed, List.append_nil]
  have hend : Ends 4 none := by simp [Ends]
  have hparse := parser_complete parseDepth ts e none hlexed h hend (.ofTokens ts) []
    (Input.sized_ofTokens ts) htokens rfl
  have hall : (parser parseDepth).toEnd (.ofTokens ts) = .ok (e, (Input.ofTokens ts).move []) :=
    bind_of_ok hparse
  simp only [ofText, Source.read, Source.tokens, hts, Parser.parse, hall, Except.mapError, bind,
    Except.bind, Except.map]

end Expr

/-- The text is one token of the kind and, read as an expression, the literal. -/
structure Literal.ReadBack (value : Literal) (kind : TokenKind) (text : String) : Prop where
  token : Token.listOfText text = .ok [⟨kind, text, 0⟩]
  tree : Expr.ofText text = .ok (.literal ⟨0, none⟩ value)

theorem Literal.Spells.readBack {value : Literal} {kind : TokenKind} {text : String}
    (h : value.Spells ⟨kind, text, 0⟩) (hlexeme : Is kind text.toList []) :
    value.ReadBack kind text := by
  have htoken := Token.listOfText_lexeme hlexeme
  have hwithin : Expr.Within parseDepth [⟨kind, text, 0⟩] (.literal ⟨0, none⟩ value) :=
    .operand (.operand (.operand (.operand (.literal h))))
  exact ⟨htoken, Expr.ofText_of_within htoken hwithin⟩

namespace Java

variable {quote : Char}

theorem quotable_escapeChar (hquote : quote = '\'' ∨ quote = '"') (c : Char) :
    Quotable quote (escapeChar quote c) := by
  have hescaped : Escaped quote := by
    rcases hquote with rfl | rfl <;> decide
  unfold escapeChar
  split_ifs with hn hr ht hb hslash hsame
  · exact .escape (by decide)
  · exact .escape (by decide)
  · exact .escape (by decide)
  · exact .escape (by decide)
  · exact .escape (by decide)
  · exact .escape hescaped
  · exact .plain hsame hslash hn hr

theorem decodeOnto_escapeChar (hquote : quote = '\'' ∨ quote = '"') (c : Char)
    (done rest : List Char) :
    Escape.decodeOnto done (escapeChar quote c ++ rest) = Escape.decodeOnto (c :: done) rest := by
  unfold escapeChar
  split_ifs with hn hr ht hb hslash hsame
  · rw [hn]; rfl
  · rw [hr]; rfl
  · rw [ht]; rfl
  · rw [hb]; rfl
  · rw [hslash]; rfl
  · rw [hsame]
    rcases hquote with rfl | rfl <;> rfl
  · rw [List.singleton_append, Escape.decodeOnto]
    exact fun _ _ hc => absurd hc hslash

theorem decodeOnto_escape (hquote : quote = '\'' ∨ quote = '"') (cs done : List Char) :
    Escape.decodeOnto done (cs.flatMap (escapeChar quote)) = some (done.reverse ++ cs) := by
  induction cs generalizing done with
  | nil => rw [List.flatMap_nil, Escape.decodeOnto, List.append_nil]
  | cons c cs ih =>
      rw [List.flatMap_cons, decodeOnto_escapeChar hquote, ih, List.reverse_cons, List.append_assoc,
        List.singleton_append]

theorem quoted_toList (quote : Char) (s : String) :
    (quoted quote s).toList = quote :: s.toList.flatMap (escapeChar quote) ++ [quote] := by
  simp [quoted, escape]

theorem decode_quoted (hquote : quote = '\'' ∨ quote = '"') (s : String) :
    Escape.decode (Expr.literalBody (quoted quote s)) = some s := by
  rw [Escape.literalBody_eq (quoted_toList quote s), Escape.decode, String.toList_ofList,
    decodeOnto_escape hquote]
  simp

end Java

namespace Literal

open Java

theorem string_readBack (s : String) : (string s).ReadBack .string (quoted '"' s) := by
  refine Spells.readBack (.string rfl (decode_quoted (.inr rfl) s)) ?_
  have hparts : ∀ cs ∈ s.toList.map (escapeChar '"'), Quotable '"' cs :=
    List.forall_mem_map.mpr fun c _ => quotable_escapeChar (.inr rfl) c
  have hlexeme : Is .string ('"' :: (s.toList.map (escapeChar '"')).flatten ++ ['"']) [] :=
    .string hparts
  rwa [← List.flatMap_def, ← quoted_toList] at hlexeme

theorem character_readBack (c : Char) :
    (character (String.singleton c)).ReadBack .character (quoted '\'' (String.singleton c)) := by
  refine Spells.readBack (.character rfl (decode_quoted (.inl rfl) _)) ?_
  have hlexeme : Is .character ('\'' :: escapeChar '\'' c ++ ['\'']) [] :=
    .character (quotable_escapeChar (.inl rfl) c)
  have htext : (quoted '\'' (String.singleton c)).toList = '\'' :: escapeChar '\'' c ++ ['\''] := by
    rw [quoted_toList]
    simp
  rwa [← htext] at hlexeme

end Literal

namespace Token

variable {t : Token}

theorem WellFormed.string_decoded (h : t.WellFormed) (hkind : t.kind = .string) :
    ∃ s, Escape.decode (Expr.literalBody t.text) = some s := by
  rw [WellFormed, hkind] at h
  generalize hcs : t.text.toList = cs at h
  cases h with
  | string hparts =>
      obtain ⟨cs, -, hdecode⟩ := Escape.decode_literalBody hcs hparts
      exact ⟨_, hdecode⟩

theorem WellFormed.character_decoded (h : t.WellFormed) (hkind : t.kind = .character) :
    ∃ c, Escape.decode (Expr.literalBody t.text) = some (String.singleton c) := by
  rw [WellFormed, hkind] at h
  generalize hcs : t.text.toList = cs at h
  cases h with
  | @character cs _ hcs' =>
      have htext : t.text.toList = '\'' :: [cs].flatten ++ ['\''] := by simpa using hcs
      obtain ⟨ds, hlength, hdecode⟩ := Escape.decode_literalBody htext (by simpa using hcs')
      obtain ⟨c, rfl⟩ := List.length_eq_one_iff.mp hlength
      exact ⟨c, hdecode⟩

end Token

namespace Literal

/-- A string or a character is written between quotes such that it is read back. What a text has
between quotes always has a value, which is one character between single quotes. -/
theorem quoted_read_back :
    (∀ s : String, ∃ text, (string s).java = .ok text ∧ (string s).ReadBack .string text) ∧
    (∀ c : Char, ∃ text, (character (String.singleton c)).java = .ok text ∧
      (character (String.singleton c)).ReadBack .character text) ∧
    ∀ text ts, Token.listOfText text = .ok ts → ∀ t ∈ ts,
      (t.kind = .string → ∃ s, Escape.decode (Expr.literalBody t.text) = some s) ∧
      (t.kind = .character →
        ∃ c, Escape.decode (Expr.literalBody t.text) = some (String.singleton c)) := by
  refine ⟨fun s => ⟨_, rfl, string_readBack s⟩, fun c => ⟨_, rfl, character_readBack c⟩, ?_⟩
  intro text ts hts t ht
  have hwf := Token.lexed_of_listOfText hts t ht
  exact ⟨hwf.string_decoded, hwf.character_decoded⟩

/-- Of a backslash, a quote and a line end, each with a backslash in front, and a quote of the other
kind. -/
theorem escapes_read_back :
    (∃ text, (string "\\\"\n'").java = .ok text ∧ text = "\"\\\\\\\"\\n'\"" ∧
      (string "\\\"\n'").ReadBack .string text) ∧
    Token.listOfText "'\\'' \"\"" = .ok [⟨.character, "'\\''", 0⟩, ⟨.string, "\"\"", 5⟩] ∧
    (∃ c, Escape.decode (Expr.literalBody "'\\''") = some (String.singleton c)) ∧
    ∃ s, Escape.decode (Expr.literalBody "\"\"") = some s := by
  have htokens : Token.listOfText "'\\'' \"\"" =
      .ok [⟨.character, "'\\''", 0⟩, ⟨.string, "\"\"", 5⟩] := by decide +kernel
  have hvalues := quoted_read_back.2.2 _ _ htokens
  obtain ⟨text, hjava, hread⟩ := quoted_read_back.1 "\\\"\n'"
  have htext : (string "\\\"\n'").java = .ok "\"\\\\\\\"\\n'\"" := rfl
  have hsame : text = "\"\\\\\\\"\\n'\"" := Except.ok.inj (hjava.symm.trans htext)
  refine ⟨⟨text, hjava, hsame, hread⟩, htokens, ?_, ?_⟩
  · exact (hvalues ⟨.character, "'\\''", 0⟩ (by simp)).2 rfl
  · exact (hvalues ⟨.string, "\"\"", 5⟩ (by simp)).1 rfl

end Literal

end PlcLang
