import PlcLang.Text.Quoted

namespace PlcLang

inductive TokenKind
  | identifier
  | integer
  | decimal
  | character
  | string
  | operator
  | eof
  /-- A kind that no text has; only token lists made by hand hold it. -/
  | other (name : String)
deriving DecidableEq

namespace TokenKind

def name : TokenKind → String
  | identifier => "IDENTIFIER"
  | integer => "INTEGER"
  | decimal => "DECIMAL"
  | character => "CHARACTER"
  | string => "STRING"
  | operator => "OPERATOR"
  | eof => "EOF"
  | other name => name

def ofName : String → TokenKind
  | "IDENTIFIER" => identifier
  | "INTEGER" => integer
  | "DECIMAL" => decimal
  | "CHARACTER" => character
  | "STRING" => string
  | "OPERATOR" => operator
  | "EOF" => eof
  | name => other name

end TokenKind

structure Token where
  kind : TokenKind
  text : String
  offset : Nat
deriving DecidableEq

namespace Token

/-- The offset just past the token. -/
def stop (t : Token) : Nat := t.offset + t.text.length

def describe (t : Token) : String :=
  "Token(" ++ t.kind.name ++ ", " ++ Text.quoted t.text ++ ", " ++ toString t.offset ++ ")"

end Token

def withOffset (message : String) : Option Nat → String
  | none => message
  | some n => message ++ " at offset " ++ toString n

end PlcLang
