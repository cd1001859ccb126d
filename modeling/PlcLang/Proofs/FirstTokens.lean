import PlcLang.Proofs.ExpressionReads

namespace PlcLang

open Rule PlcLang.Parser

def Rule.Lexed (ts : List Token) : Prop := ∀ t ∈ ts, t.WellFormed

namespace Rule.Lexed

variable {ts us : List Token} {t : Token}

@[simp] theorem append_iff : Lexed (ts ++ us) ↔ Lexed ts ∧ Lexed us := List.forall_mem_append

@[simp] theorem cons_iff : Lexed (t :: ts) ↔ t.WellFormed ∧ Lexed ts := List.forall_mem_cons

@[simp] theorem nil : Lexed [] := List.forall_mem_nil _

end Rule.Lexed

/-- The characters that a lexeme of the kind may start with, as far as kinds are told apart by
them. -/
def TokenKind.Opens : TokenKind → Char → Prop
  | identifier, c => Lexeme.Letter c ∨ c = '@'
  | integer, c | decimal, c => Lexeme.Digit c ∨ c = '-'
  | character, c => c = '\''
  | string, c => c = '"'
  | operator, c => ¬ Lexeme.Letter c ∧ ¬ Lexeme.Digit c ∧ c ∉ ['@', '\'', '"']
  | _, _ => False

instance : (kind : TokenKind) → (c : Char) → Decidable (kind.Opens c)
  | .identifier, c => inferInstanceAs (Decidable (Lexeme.Letter c ∨ c = '@'))
  | .integer, c | .decimal, c => inferInstanceAs (Decidable (Lexeme.Digit c ∨ c = '-'))
  | .character, c => inferInstanceAs (Decidable (c = '\''))
  | .string, c => inferInstanceAs (Decidable (c = '"'))
  | .operator, c =>
    inferInstanceAs (Decidable (¬ Lexeme.Letter c ∧ ¬ Lexeme.Digit c ∧ c ∉ ['@', '\'', '"']))
  | .eof, _ | .other _, _ => .isFalse id

namespace Token.WellFormed

theorem opens_of_signedWhole {ds : List Char} {c : Char} (h : Lexeme.SignedWhole ds)
    (hc : ds.head? = some c) : Lexeme.Digit c ∨ c = '-' := by
  cases h with
  | negative _ => exact .inr (by simpa using hc.symm)
  | plain h =>
    left
    cases h with
    | zero =>
      obtain rfl : '0' = c := by simpa using hc
      decide
    | digits hd _ _ =>
      obtain rfl := Option.some.inj hc
      exact hd

theorem opens {t : Token} (h : t.WellFormed) {c : Char} (hc : t.text.toList.head? = some c) :
    t.kind.Opens c := by
  unfold WellFormed at h
  generalize t.text.toList = cs at h hc
  generalize t.kind = kind at h
  cases h with
  | name hletter _ _ =>
    obtain rfl := Option.some.inj hc
    exact .inl hletter
  | atName _ _ _ => exact .inr (Option.some.inj hc).symm
  | integer hwhole _ => exact opens_of_signedWhole hwhole hc
  | @decimal ds _ _ hwhole _ _ _ =>
    apply opens_of_signedWhole hwhole
    cases ds with
    | nil => cases hwhole with | plain h => cases h
    | cons d ds => exact hc
  | character _ => exact (Option.some.inj hc).symm
  | string _ => exact (Option.some.inj hc).symm
  | single _ hletter hdigit hquote _ _ =>
    obtain rfl := Option.some.inj hc
    exact ⟨hletter, hdigit, hquote⟩
  | double hd =>
    obtain rfl := Option.some.inj hc
    simp only [Lexeme.doubles, List.mem_cons, Prod.mk.injEq, List.not_mem_nil, or_false] at hd
    rcases hd with ⟨rfl, _⟩ | ⟨rfl, _⟩ | ⟨rfl, _⟩ | ⟨rfl, _⟩ <;> decide

end Token.WellFormed

/-- The words that end an expression or a block, or tell what a statement is. -/
def stopWords : List String :=
  [")", "]", ";", "CASE", "DEFAULT", "END", "ELSE", "LET", "SWITCH", "IF", "WHILE", "RETURN"]

namespace Token

variable {t : Token}

def StartsExpr (t : Token) : Prop :=
  (∃ value : Literal, value.Spells t) ∨ t.text = "(" ∨ t.text = "[" ∨ t.isName = true

theorem isName_iff : t.isName = true ↔ t.kind = .identifier ∧ t.text ∉ keywords := by
  simp [isName]

theorem WellFormed.kind_of_opens {kind : TokenKind} {w : String} {c : Char} {cs : List Char}
    (h : t.WellFormed) (ht : t.text = w) (hw : w.toList = c :: cs) (hc : ¬ kind.Opens c) :
    t.kind ≠ kind := by
  intro hkind
  apply hc
  rw [← hkind]
  exact h.opens (by rw [ht, hw]; rfl)

theorem stopWords_open : ∀ w ∈ stopWords, ∃ c cs, w.toList = c :: cs ∧
    ¬ TokenKind.integer.Opens c ∧ ¬ TokenKind.character.Opens c ∧ ¬ TokenKind.string.Opens c ∧
    (w ∈ keywords ∨ ¬ TokenKind.identifier.Opens c) := by
  intro w hw
  simp only [stopWords, List.mem_cons, List.not_mem_nil, or_false] at hw
  rcases hw with rfl | rfl | rfl | rfl | rfl | rfl | rfl | rfl | rfl | rfl | rfl | rfl <;>
    exact ⟨_, _, rfl, by decide⟩

theorem StartsExpr.not_stop (h : t.StartsExpr) (hwf : t.WellFormed) : t.text ∉ stopWords := by
  intro hstop
  obtain ⟨c, cs, hw, hinteger, hcharacter, hstring, hname⟩ := stopWords_open t.text hstop
  have hwords : ∀ w ∈ ["NIL", "TRUE", "FALSE", "(", "["], w ∉ stopWords := by decide
  rcases h with ⟨value, h⟩ | h | h | h
  · cases h with
    | nil h | true h | false h => exact hwords _ (by simp) (h ▸ hstop)
    | integer hkind _ => exact hwf.kind_of_opens rfl hw hinteger hkind
    | decimal hkind _ =>
      have hdecimal : ¬ TokenKind.decimal.Opens c := hinteger
      exact hwf.kind_of_opens rfl hw hdecimal hkind
    | character hkind _ => exact hwf.kind_of_opens rfl hw hcharacter hkind
    | string hkind _ => exact hwf.kind_of_opens rfl hw hstring hkind
  · exact hwords _ (by simp) (h ▸ hstop)
  · exact hwords _ (by simp) (h ▸ hstop)
  · obtain ⟨hkind, hkeyword⟩ := isName_iff.1 h
    rcases hname with hname | hname
    · exact hkeyword hname
    · exact hwf.kind_of_opens rfl hw hname hkind

end Token

namespace Expr

variable {t : Token}

/-- Only identifiers are told by their text. -/
theorem literal?_of_kind (hwf : t.WellFormed) (hkind : t.kind ≠ .identifier) :
    literal? t =
      match t.kind with
      | .integer => some (numeral t.text fun d => .integer d.truncate)
      | .decimal => some (numeral t.text .decimal)
      | .character => some (unescaped t.text .character)
      | .string => some (unescaped t.text .string)
      | _ => none := by
  have hopens : ¬ t.kind.Opens 'N' ∧ ¬ t.kind.Opens 'T' ∧ ¬ t.kind.Opens 'F' := by
    cases hk : t.kind with
    | identifier => exact absurd hk hkind
    | other _ => simp [TokenKind.Opens]
    | _ => decide
  obtain ⟨hN, hT, hF⟩ := hopens
  have h₁ : ¬ (t.text == "NIL") = true := by
    intro h
    exact hwf.kind_of_opens (eq_of_beq h) rfl hN rfl
  have h₂ : ¬ (t.text == "TRUE") = true := by
    intro h
    exact hwf.kind_of_opens (eq_of_beq h) rfl hT rfl
  have h₃ : ¬ (t.text == "FALSE") = true := by
    intro h
    exact hwf.kind_of_opens (eq_of_beq h) rfl hF rfl
  exact (if_neg h₁).trans ((if_neg h₂).trans (if_neg h₃))

theorem literal?_of_spells (hwf : t.WellFormed) {value : Literal} (h : value.Spells t) :
    literal? t = some (.ok value) := by
  cases h with
  | nil ht | true ht | false ht => simp [literal?, ht]
  | integer hkind hd => simp [literal?_of_kind hwf, hkind, numeral, hd]
  | decimal hkind hd => simp [literal?_of_kind hwf, hkind, numeral, hd]
  | character hkind hv => simp [literal?_of_kind hwf, hkind, unescaped, hv]
  | string hkind hv => simp [literal?_of_kind hwf, hkind, unescaped, hv]

theorem literal?_of_bracket (hwf : t.WellFormed) (h : t.text = "(" ∨ t.text = "[") :
    literal? t = none := by
  have hopens : ∀ kind ∈ [TokenKind.identifier, .integer, .decimal, .character, .string],
      ¬ kind.Opens '(' ∧ ¬ kind.Opens '[' := by
    decide
  have hkinds : ∀ kind ∈ [TokenKind.identifier, .integer, .decimal, .character, .string],
      t.kind ≠ kind := by
    intro kind hkind
    rcases h with h | h
    · exact hwf.kind_of_opens h rfl (hopens kind hkind).1
    · exact hwf.kind_of_opens h rfl (hopens kind hkind).2
  rw [literal?_of_kind hwf (hkinds _ (by simp))]
  cases hk : t.kind <;> first | rfl | exact absurd hk (hkinds _ (by simp))

theorem literal?_of_isName (h : t.isName = true) : literal? t = none := by
  obtain ⟨hkind, hkeyword⟩ := Token.isName_iff.1 h
  have hwords : ∀ w ∈ ["NIL", "TRUE", "FALSE"], t.text ≠ w := by
    intro w hw ht
    have hmem : ∀ w ∈ ["NIL", "TRUE", "FALSE"], w ∈ keywords := by decide
    exact hkeyword (ht ▸ hmem w hw)
  have h₁ := hwords "NIL" (by simp)
  have h₂ := hwords "TRUE" (by simp)
  have h₃ := hwords "FALSE" (by simp)
  simp only [literal?, beq_iff_eq, h₁, h₂, h₃, if_false, hkind]

end Expr

end PlcLang
