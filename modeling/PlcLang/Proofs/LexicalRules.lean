import PlcLang.Token.Lexeme

namespace PlcLang

namespace Lexeme

def Blank (c : Char) : Prop := c ∈ [' ', '\x08', '\n', '\r', '\t']

def Letter (c : Char) : Prop := 'a' ≤ c ∧ c ≤ 'z' ∨ 'A' ≤ c ∧ c ≤ 'Z'

def Digit (c : Char) : Prop := '0' ≤ c ∧ c ≤ '9'

def NameRest (c : Char) : Prop := Letter c ∨ Digit c ∨ c = '_' ∨ c = '-'

def Escaped (c : Char) : Prop := c ∈ ['b', 'n', 'r', 't', '\'', '"', '\\']

instance (c : Char) : Decidable (Blank c) := inferInstanceAs (Decidable (c ∈ _))

instance (c : Char) : Decidable (Letter c) :=
  inferInstanceAs (Decidable ('a' ≤ c ∧ c ≤ 'z' ∨ 'A' ≤ c ∧ c ≤ 'Z'))

instance (c : Char) : Decidable (Digit c) := inferInstanceAs (Decidable ('0' ≤ c ∧ c ≤ '9'))

instance (c : Char) : Decidable (Escaped c) := inferInstanceAs (Decidable (c ∈ _))

def Stops (P : Char → Prop) (rest : List Char) : Prop := ∀ c ∈ rest.head?, ¬ P c

/-- The whole part of a number: no digit stands behind a leading zero. -/
inductive Whole : List Char → Prop
  | zero : Whole ['0']
  | digits {d : Char} {ds : List Char} : Digit d → d ≠ '0' → (∀ c ∈ ds, Digit c) → Whole (d :: ds)

inductive SignedWhole : List Char → Prop
  | plain {ds : List Char} : Whole ds → SignedWhole ds
  | negative {ds : List Char} : Whole ds → SignedWhole ('-' :: ds)

inductive Quotable (quote : Char) : List Char → Prop
  | plain {c : Char} : c ≠ quote → c ≠ '\\' → c ≠ '\n' → c ≠ '\r' → Quotable quote [c]
  | escape {c : Char} : Escaped c → Quotable quote ['\\', c]

def doubles : List (Char × Char) := [('&', '&'), ('|', '|'), ('=', '='), ('!', '=')]

/-- The characters are a lexeme of the kind, where the given rest follows them. -/
inductive Is : TokenKind → List Char → List Char → Prop
  | name {c : Char} {cs rest : List Char} : Letter c → (∀ d ∈ cs, NameRest d) →
      Stops NameRest rest → Is .identifier (c :: cs) rest
  | atName {c : Char} {cs rest : List Char} : Letter c → (∀ d ∈ cs, NameRest d) →
      Stops NameRest rest → Is .identifier ('@' :: c :: cs) rest
  | integer {ds rest : List Char} : SignedWhole ds → Stops (fun c => Digit c ∨ c = '.') rest →
      Is .integer ds rest
  | decimal {ds fs rest : List Char} : SignedWhole ds → fs ≠ [] → (∀ c ∈ fs, Digit c) →
      Stops Digit rest → Is .decimal (ds ++ '.' :: fs) rest
  | character {cs rest : List Char} : Quotable '\'' cs → Is .character ('\'' :: cs ++ ['\'']) rest
  | string {parts : List (List Char)} {rest : List Char} : (∀ cs ∈ parts, Quotable '"' cs) →
      Is .string ('"' :: parts.flatten ++ ['"']) rest
  | double {c d : Char} {rest : List Char} : (c, d) ∈ doubles → Is .operator [c, d] rest
  | single {c : Char} {rest : List Char} : ¬ Blank c → ¬ Letter c → ¬ Digit c →
      c ∉ ['@', '\'', '"'] → Stops (fun d => (c, d) ∈ doubles) rest →
      (c = '-' → Stops Digit rest) → Is .operator [c] rest

end Lexeme

/-- The tokens are spelled by the text, which starts at the offset: between the lexemes, in front of
them and after them stand blanks only. -/
inductive Token.Spelled : Nat → List Char → List Token → Prop
  | nil {offset : Nat} {blanks : List Char} : (∀ c ∈ blanks, Lexeme.Blank c) →
      Spelled offset blanks []
  | cons {offset : Nat} {blanks lexeme rest : List Char} {kind : TokenKind} {ts : List Token} :
      (∀ c ∈ blanks, Lexeme.Blank c) → Lexeme.Is kind lexeme rest →
      Spelled (offset + blanks.length + lexeme.length) rest ts →
      Spelled offset (blanks ++ lexeme ++ rest)
        (⟨kind, String.ofList lexeme, offset + blanks.length⟩ :: ts)

/-- A token that some text has. -/
def Token.WellFormed (t : Token) : Prop := Lexeme.Is t.kind t.text.toList []

end PlcLang
