import PlcLang.Token
import PlcLang.Token.Escape

namespace PlcLang

inductive LexCause
  | letterAfterAt
  | leadingZero
  | digitAfterPoint
  | emptyCharacter
  | openCharacter
  | openString
  | badEscape
deriving DecidableEq

def LexCause.message : LexCause → String
  | letterAfterAt => "expected letter after '@'"
  | leadingZero => "leading zeros are not allowed"
  | digitAfterPoint => "expected digit after decimal point"
  | emptyCharacter => "empty character literal"
  | openCharacter => "unterminated character literal"
  | openString => "unterminated string literal"
  | badEscape => "invalid escape sequence"

namespace Lexeme

def isLetter (c : Char) : Bool := ('a' ≤ c && c ≤ 'z') || ('A' ≤ c && c ≤ 'Z')

def isDigit (c : Char) : Bool := '0' ≤ c && c ≤ '9'

def isRest (c : Char) : Bool := isLetter c || isDigit c || c == '_' || c == '-'

def isBlank (c : Char) : Bool := c == ' ' || c == '\x08' || c == '\n' || c == '\r' || c == '\t'

def isLineEnd (c : Char) : Bool := c == '\n' || c == '\r'

def count (p : Char → Bool) (cs : List Char) : Nat := (cs.takeWhile p).length

structure Reading where
  taken : Nat
  outcome : Except LexCause TokenKind

/-- What follows the whole part of a number, of which `n` characters are taken. -/
def fraction (n : Nat) : List Char → Reading
  | '.' :: cs =>
    if count isDigit cs = 0 then ⟨n + 1, .error .digitAfterPoint⟩
    else ⟨n + 1 + count isDigit cs, .ok .decimal⟩
  | _ => ⟨n, .ok .integer⟩

def number (n : Nat) (cs : List Char) : Reading :=
  match cs with
  | '0' :: cs =>
    if count isDigit cs = 0 then fraction (n + 1) cs else ⟨n + 1, .error .leadingZero⟩
  | cs => fraction (n + count isDigit cs) (cs.drop (count isDigit cs))

def closeCharacter (n : Nat) : List Char → Reading
  | '\'' :: _ => ⟨n + 1, .ok .character⟩
  | _ => ⟨n, .error .openCharacter⟩

def character : List Char → Reading
  | '\'' :: _ => ⟨1, .error .emptyCharacter⟩
  | '\\' :: c :: cs => if Escape.isEscape c then closeCharacter 3 cs else ⟨2, .error .badEscape⟩
  | ['\\'] => ⟨2, .error .badEscape⟩
  | c :: cs => if isLineEnd c then ⟨1, .error .openCharacter⟩ else closeCharacter 2 cs
  | [] => ⟨1, .error .openCharacter⟩

def string (n : Nat) : List Char → Reading
  | '"' :: _ => ⟨n + 1, .ok .string⟩
  | '\\' :: c :: cs => if Escape.isEscape c then string (n + 2) cs else ⟨n + 1, .error .badEscape⟩
  | ['\\'] => ⟨n + 1, .error .badEscape⟩
  | c :: cs => if isLineEnd c then ⟨n, .error .openString⟩ else string (n + 1) cs
  | [] => ⟨n, .error .openString⟩

def isDouble (c d : Char) : Bool :=
  (c == '&' && d == '&') || (c == '|' && d == '|') || (c == '=' && d == '=') ||
    (c == '!' && d == '=')

/-- The lexeme at the start of a text. At the end of the text it is an operator that takes one
character more than there is. -/
def read : List Char → Reading
  | [] => ⟨1, .ok .operator⟩
  | '@' :: cs =>
    match cs with
    | c :: cs =>
      if isLetter c then ⟨2 + count isRest cs, .ok .identifier⟩ else ⟨1, .error .letterAfterAt⟩
    | [] => ⟨1, .error .letterAfterAt⟩
  | '\'' :: cs => character cs
  | '"' :: cs => string 1 cs
  | c :: cs =>
    if isLetter c then ⟨1 + count isRest cs, .ok .identifier⟩
    else if isDigit c then number 0 (c :: cs)
    else if c == '-' && cs.head?.any isDigit then number 1 cs
    else if cs.head?.any (isDouble c) then ⟨2, .ok .operator⟩
    else ⟨1, .ok .operator⟩

theorem fraction_taken_ge (n : Nat) (cs : List Char) : n ≤ (fraction n cs).taken := by
  unfold fraction
  split
  · split <;> simp only <;> omega
  · exact Nat.le_refl n

theorem string_taken_ge (n : Nat) (cs : List Char) : n ≤ (string n cs).taken := by
  fun_induction string n cs <;> grind

theorem count_pos {p : Char → Bool} {c : Char} (h : p c = true) (cs : List Char) :
    0 < count p (c :: cs) := by
  simp [count, h]

theorem number_taken_pos (n : Nat) {c : Char} (h : isDigit c = true) (cs : List Char) :
    n < (number n (c :: cs)).taken := by
  unfold number
  split
  · split
    · exact Nat.lt_of_lt_of_le (Nat.lt_succ_self n) (fraction_taken_ge _ _)
    · simp
  · refine Nat.lt_of_lt_of_le ?_ (fraction_taken_ge _ _)
    have := count_pos h cs
    omega

theorem character_taken_pos (cs : List Char) : 0 < (character cs).taken := by
  unfold character closeCharacter
  repeat' split
  all_goals simp

/-- Every lexeme, and every malformed one, takes a character. -/
theorem read_taken_pos (cs : List Char) : 0 < (read cs).taken := by
  unfold read
  split
  · simp
  · repeat' split
    all_goals grind
  · exact character_taken_pos _
  · exact Nat.lt_of_lt_of_le Nat.one_pos (string_taken_ge 1 _)
  · rename_i c cs _ _ _
    split
    · simp only; omega
    · split
      · rename_i hd
        exact Nat.lt_of_le_of_lt (Nat.zero_le 0) (number_taken_pos 0 hd cs)
      · split
        · rename_i hs
          cases cs with
          | nil => simp at hs
          | cons d ds =>
            simp only [List.head?_cons, Option.any_some, Bool.and_eq_true] at hs
            exact Nat.lt_of_le_of_lt (Nat.zero_le 1) (number_taken_pos 1 hs.2 ds)
        · split <;> simp

end Lexeme

end PlcLang
