import PlcLang.Token.Lexeme

namespace PlcLang

structure LexError where
  cause : LexCause
  offset : Nat
deriving DecidableEq

def LexError.message (e : LexError) : String := withOffset e.cause.message (some e.offset)

structure Cursor where
  /-- The characters from the index on. -/
  rest : List Char
  /-- The characters of the window, last one first. -/
  pending : List Char
  index : Nat
  /-- The width of the window, positions past the end of the text included. -/
  length : Nat

namespace Cursor

def ofText (text : String) : Cursor := ⟨text.toList, [], 0, 0⟩

def has (c : Cursor) (n : Nat) : Bool := n < c.rest.length

def get? (c : Cursor) (n : Nat) : Option Char := c.rest[n]?

/-- One position further, also past the end of the text. -/
def advance (c : Cursor) : Cursor :=
  match c.rest with
  | [] => { c with index := c.index + 1, length := c.length + 1 }
  | ch :: rest => ⟨rest, ch :: c.pending, c.index + 1, c.length + 1⟩

def advanceBy : Nat → Cursor → Cursor
  | 0, c => c
  | n + 1, c => advanceBy n c.advance

def skip (c : Cursor) : Cursor := { c with pending := [], length := 0 }

def window (c : Cursor) (kind : TokenKind) : Token :=
  ⟨kind, String.ofList c.pending.reverse, c.index - c.length⟩

/-- Gives the token of the window and empties the window. -/
def emit (c : Cursor) (kind : TokenKind) : Token × Cursor := (c.window kind, c.skip)

/-- Whether the next characters fall into the given classes, one class a position. -/
def peek : List (Char → Bool) → List Char → Bool
  | [], _ => true
  | _ :: _, [] => false
  | p :: ps, c :: cs => p c && peek ps cs

def sees (c : Cursor) (classes : List (Char → Bool)) : Bool := peek classes c.rest

def accept (c : Cursor) (classes : List (Char → Bool)) : Bool × Cursor :=
  if c.sees classes then (true, c.advanceBy classes.length) else (false, c)

def finish (c : Cursor) : Except LexCause TokenKind → Except LexError Token × Cursor
  | .error cause => (.error ⟨cause, c.index⟩, c)
  | .ok kind => (.ok (c.window kind), c.skip)

/-- The token at the cursor. The characters taken before an error stay in the window. -/
def token (c : Cursor) : Except LexError Token × Cursor :=
  let reading := Lexeme.read c.rest
  (c.advanceBy reading.taken).finish reading.outcome

theorem advance_rest (c : Cursor) : c.advance.rest = c.rest.tail := by
  unfold advance
  split <;> simp_all

theorem advanceBy_rest (n : Nat) (c : Cursor) : (c.advanceBy n).rest = c.rest.drop n := by
  induction n generalizing c with
  | zero => rfl
  | succ n ih => simp [advanceBy, ih, advance_rest]

theorem finish_rest (c : Cursor) (outcome : Except LexCause TokenKind) :
    (c.finish outcome).2.rest = c.rest := by
  cases outcome <;> rfl

theorem token_rest (c : Cursor) :
    c.token.2.rest = c.rest.drop (Lexeme.read c.rest).taken :=
  (finish_rest _ _).trans (advanceBy_rest _ _)

theorem token_rest_length {c : Cursor} (h : c.rest ≠ []) :
    c.token.2.rest.length < c.rest.length := by
  have := Lexeme.read_taken_pos c.rest
  have := List.length_pos_iff.mpr h
  simp only [token_rest, List.length_drop]
  omega

/-- All tokens from the cursor on, after those in `done`, which stand last one first. -/
def tokens (done : List Token) (c : Cursor) : Except LexError (List Token) :=
  if _nonempty : c.rest = [] then .ok done.reverse
  else if c.sees [Lexeme.isBlank] then tokens done c.advance.skip
  else
    match _read : c.token with
    | (.ok t, c') => tokens (t :: done) c'
    | (.error e, _) => .error e
termination_by c.rest.length
decreasing_by
  · have := List.length_pos_iff.mpr _nonempty
    simp only [skip, advance_rest, List.length_tail]
    omega
  · have := token_rest_length _nonempty
    rwa [_read] at this

end Cursor

def Token.listOfText (text : String) : Except LexError (List Token) := (Cursor.ofText text).tokens []

end PlcLang
