namespace PlcLang.Escape

def char? : Char → Option Char
  | 'b' => some '\x08'
  | 'n' => some '\n'
  | 'r' => some '\r'
  | 't' => some '\t'
  | '\'' => some '\''
  | '"' => some '"'
  | '\\' => some '\\'
  | _ => none

def isEscape (c : Char) : Bool := (char? c).isSome

/-- Decodes in front of `done`, which holds what is decoded so far, last character first. -/
def decodeOnto (done : List Char) : List Char → Option (List Char)
  | '\\' :: c :: cs => (char? c).bind fun d => decodeOnto (d :: done) cs
  | c :: cs => decodeOnto (c :: done) cs
  | [] => some done.reverse

/-- The text a literal's body stands for. A backslash at the very end stands for itself, and there
is none for a backslash in front of any other character than the seven. -/
def decode (body : String) : Option String :=
  (decodeOnto [] body.toList).map String.ofList

end PlcLang.Escape
