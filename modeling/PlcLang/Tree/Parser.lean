import PlcLang.Token.Escape
import PlcLang.Token
import PlcLang.Tree

namespace PlcLang

inductive Wanted
  | word (text : String)
  | identifier
  | typeName
  | expression
  | definition
  | finish

def Wanted.message : Wanted → String
  | word text => "'" ++ text ++ "'"
  | identifier => "identifier"
  | typeName => "type name"
  | expression => "expression"
  | definition => "global or function"
  | finish => "end of input"

inductive ParseCause
  /-- Something else was wanted than the token found; there is none at the end of the input. -/
  | expected (what : Wanted) (found : Option String)
  | lateGlobal
  | tooDeep
  /-- A literal token that no text has: its body holds an unknown escape. -/
  | badEscape
  /-- A number token that no text has: it is no numeral. -/
  | badNumber

def ParseCause.message : ParseCause → String
  | expected what found =>
    "expected " ++ what.message ++ ", got " ++
      (match found with
      | some text => "'" ++ text ++ "'"
      | none => "end of input")
  | lateGlobal => "globals must be declared before functions"
  | tooDeep => "program is nested too deeply"
  | badEscape => "invalid escape sequence"
  | badNumber => "invalid number"

structure ParseError where
  cause : ParseCause
  offset : Option Nat

def ParseError.message (e : ParseError) : String := withOffset e.cause.message e.offset

structure Input where
  /-- The tokens still to be read. -/
  tokens : List Token
  /-- The offset of the end of the input. -/
  finish : Nat
  /-- The number of tokens at the start, which bounds the rounds of every loop. -/
  total : Nat

namespace Input

/-- The input ends at its first end token or, without one, right after its last token. -/
def ofTokens (tokens : List Token) : Input :=
  let body := tokens.takeWhile (·.kind != .eof)
  let finish := match tokens.find? (·.kind == .eof) with
    | some e => e.offset
    | none => (tokens.getLast?.map Token.stop).getD 0
  ⟨body, finish, body.length⟩

def here (s : Input) : Nat :=
  match s.tokens with
  | t :: _ => t.offset
  | [] => s.finish

/-- Words and punctuation are told by their text, whatever the token's kind. -/
def sees (s : Input) (text : String) : Bool :=
  match s.tokens with
  | t :: _ => t.text == text
  | [] => false

def seesAny (s : Input) (texts : List String) : Bool := texts.any s.sees

def next (s : Input) : Input := { s with tokens := s.tokens.tail }

end Input

def keywords : List String :=
  ["LIST", "VAR", "VAL", "FUN", "DO", "END", "LET", "SWITCH", "CASE", "DEFAULT", "IF", "ELSE",
    "WHILE", "RETURN", "NIL", "TRUE", "FALSE"]

def Token.isName (t : Token) : Bool := t.kind == .identifier && !keywords.contains t.text

abbrev Parser := StateT Input (Except ParseError)

namespace Parser

variable {α : Type}

def expected (what : Wanted) : Parser α := fun s =>
  .error ⟨.expected what (s.tokens.head?.map Token.text), some s.here⟩

def tooDeep : Parser α := fun s => .error ⟨.tooDeep, some s.here⟩

def advance : Parser Unit := fun s => .ok ((), s.next)

def sees (text : String) : Parser Bool := fun s => .ok (s.sees text, s)

def expect (text : String) : Parser Nat := fun s =>
  if s.sees text then .ok (s.here, s.next) else expected (.word text) s

def word (what : Wanted) : Parser String := fun s =>
  match s.tokens with
  | t :: _ => if t.isName then .ok (t.text, s.next) else expected what s
  | [] => expected what s

/-- At most `n` rounds of a parser, as long as the input passes a test. -/
def rounds (test : Input → Bool) (p : Parser α) : Nat → List α → Parser (List α)
  | 0, done, s => .ok (done.reverse, s)
  | n + 1, done, s =>
    if test s then
      match p s with
      | .ok (a, s) => rounds test p n (a :: done) s
      | .error e => .error e
    else .ok (done.reverse, s)

/-- A parser again and again, as long as the input passes a test. A round that succeeds takes a
token, so that there are never more rounds than tokens, and one more to fail. -/
def many (test : Input → Bool) (p : Parser α) : Parser (List α) := fun s =>
  rounds test p (s.total + 1) [] s

def optional (word : String) (p : Parser α) : Parser (Option α) := fun s =>
  if s.sees word then (p s.next).map fun (a, s) => (some a, s) else .ok (none, s)

def commaList (p : Parser α) : Parser (List α) := do
  let first ← p
  let rest ← many (·.sees ",") (do advance; p)
  return first :: rest

def listUpTo (close : String) (p : Parser α) : Parser (List α) := do
  if ← sees close then
    advance
    return []
  else
    let items ← commaList p
    let _ ← expect close
    return items

def typeAnnotation : Parser String := do
  let _ ← expect ":"
  word .typeName

end Parser

open PlcLang.Parser

namespace Expr

def logicalOps : List BinOp := [.and, .or]
def comparisonOps : List BinOp := [.lt, .gt, .eq, .ne]
def additiveOps : List BinOp := [.add, .sub]
def multiplicativeOps : List BinOp := [.mul, .div, .pow]

/-- Operands from the left on, while one of the operators follows; at most `n` of them. -/
def chainFrom (ops : List BinOp) (operand : Parser Expr) : Nat → Expr → Parser Expr
  | 0, left, s => .ok (left, s)
  | n + 1, left, s =>
    match s.tokens with
    | t :: _ =>
      if ops.contains (.ofSymbol t.text) then
        match operand s.next with
        | .ok (right, s) =>
          chainFrom ops operand n (.binary ⟨left.offset, none⟩ (.ofSymbol t.text) left right) s
        | .error e => .error e
      else .ok (left, s)
    | [] => .ok (left, s)

def chain (ops : List BinOp) (operand : Parser Expr) : Parser Expr := fun s =>
  match operand s with
  | .ok (left, s) => chainFrom ops operand s.total left s
  | .error e => .error e

def literalBody (text : String) : String := String.ofList (text.toList.drop 1).dropLast

def unescaped (text : String) (make : String → Literal) : Except ParseError Literal :=
  match Escape.decode (literalBody text) with
  | some value => .ok (make value)
  | none => .error ⟨.badEscape, none⟩

def numeral (text : String) (make : Decimal → Literal) : Except ParseError Literal :=
  match Decimal.ofText? text with
  | some value => .ok (make value)
  | none => .error ⟨.badNumber, none⟩

def literal? (t : Token) : Option (Except ParseError Literal) :=
  if t.text == "NIL" then some (.ok .nil)
  else if t.text == "TRUE" then some (.ok (.boolean true))
  else if t.text == "FALSE" then some (.ok (.boolean false))
  else
    match t.kind with
    | .integer => some (numeral t.text fun d => .integer d.truncate)
    | .decimal => some (numeral t.text .decimal)
    | .character => some (unescaped t.text .character)
    | .string => some (unescaped t.text .string)
    | _ => none

/-- What may follow a name: arguments, an index, or nothing. -/
def named (inner : Parser Expr) (info : Info) (name : String) : Parser Expr := fun s =>
  if s.sees "(" then
    match listUpTo ")" inner s.next with
    | .ok (arguments, s) => .ok (.call info name arguments none, s)
    | .error e => .error e
  else if s.sees "[" then
    match inner s.next with
    | .ok (index, s) => (expect "]" s).map fun (_, s) => (.element info name index none, s)
    | .error e => .error e
  else .ok (.access info name none, s)

/-- An expression without operators outside of brackets; `inner` reads what brackets hold. -/
def primary (inner : Parser Expr) : Parser Expr := fun s =>
  match s.tokens with
  | [] => expected .expression s
  | t :: _ =>
    let info : Info := ⟨t.offset, none⟩
    match literal? t with
    | some (.ok value) => .ok (.literal info value, s.next)
    | some (.error e) => .error e
    | none =>
      if t.text == "(" then
        match inner s.next with
        | .ok (e, s) => (expect ")" s).map fun (_, s) => (.group info e, s)
        | .error e => .error e
      else if t.text == "[" then
        match listUpTo "]" inner s.next with
        | .ok (elements, s) => .ok (.list info elements, s)
        | .error e => .error e
      else if t.isName then named inner info t.text s.next
      else expected .expression s

/-- An expression nested at most as deep as the budget says; a pair of brackets takes two from
it. -/
def parser : Nat → Parser Expr
  | depth + 2 =>
    chain logicalOps <| chain comparisonOps <| chain additiveOps <| chain multiplicativeOps <|
      primary (parser depth)
  | _ => Parser.tooDeep

end Expr

namespace Stmt

def block (stmt : Parser Stmt) (words : List String) : Parser (List Stmt) :=
  many (fun s => !s.seesAny words) stmt

def declarationParser (expr : Parser Expr) : Parser Stmt := do
  let offset ← expect "LET"
  let name ← word .identifier
  let typeName ← optional ":" (word .typeName)
  let value ← optional "=" expr
  let _ ← expect ";"
  return .declaration offset name typeName value none

def caseParser (expr : Parser Expr) (stmt : Parser Stmt) : Parser Case := do
  let offset ← expect "CASE"
  let value ← expr
  let _ ← expect ":"
  let body ← block stmt ["CASE", "DEFAULT", "END"]
  return .mk offset (some value) body

def defaultParser (stmt : Parser Stmt) : Parser (List Case) := do
  if ← sees "DEFAULT" then
    let offset ← expect "DEFAULT"
    let body ← block stmt ["END"]
    return [.mk offset none body]
  else return []

def switchParser (expr : Parser Expr) (stmt : Parser Stmt) : Parser Stmt := do
  let offset ← expect "SWITCH"
  let condition ← expr
  let cases ← many (·.sees "CASE") (caseParser expr stmt)
  let default ← defaultParser stmt
  let _ ← expect "END"
  return .switch offset condition (cases ++ default)

def ifParser (expr : Parser Expr) (stmt : Parser Stmt) : Parser Stmt := do
  let offset ← expect "IF"
  let condition ← expr
  let _ ← expect "DO"
  let thenBody ← block stmt ["ELSE", "END"]
  let elseBody ← optional "ELSE" (block stmt ["END"])
  let _ ← expect "END"
  return .ifElse offset condition thenBody (elseBody.getD [])

def whileParser (expr : Parser Expr) (stmt : Parser Stmt) : Parser Stmt := do
  let offset ← expect "WHILE"
  let condition ← expr
  let _ ← expect "DO"
  let body ← block stmt ["END"]
  let _ ← expect "END"
  return .whileDo offset condition body

def returnParser (expr : Parser Expr) : Parser Stmt := do
  let offset ← expect "RETURN"
  if ← sees ";" then
    advance
    return .ret offset none
  else
    let value ← expr
    let _ ← expect ";"
    return .ret offset (some value)

def simpleParser (expr : Parser Expr) : Parser Stmt := do
  let offset := (← get).here
  let receiver ← expr
  let value ← optional "=" expr
  let _ ← expect ";"
  match value with
  | some value => return .assignment offset receiver value
  | none => return .expression offset receiver

/-- A statement nested at most as deep as the budget says; a block takes one from it. -/
def parser : Nat → Parser Stmt
  | 0 => Parser.tooDeep
  | depth + 1 => fun s =>
    let expr := Expr.parser depth
    let stmt := parser depth
    if s.sees "LET" then declarationParser expr s
    else if s.sees "SWITCH" then switchParser expr stmt s
    else if s.sees "IF" then ifParser expr stmt s
    else if s.sees "WHILE" then whileParser expr stmt s
    else if s.sees "RETURN" then returnParser expr s
    else simpleParser expr s

end Stmt

namespace Global

def listParser (expr : Parser Expr) : Parser Global := do
  let offset ← expect "LIST"
  let name ← word .identifier
  let typeName ← typeAnnotation
  let _ ← expect "="
  let bracket ← expect "["
  let elements ← commaList expr
  let _ ← expect "]"
  return ⟨offset, name, typeName, true, some (.list ⟨bracket, none⟩ elements), none⟩

def mutableParser (expr : Parser Expr) : Parser Global := do
  let offset ← expect "VAR"
  let name ← word .identifier
  let typeName ← typeAnnotation
  let value ← optional "=" expr
  return ⟨offset, name, typeName, true, value, none⟩

def immutableParser (expr : Parser Expr) : Parser Global := do
  let offset ← expect "VAL"
  let name ← word .identifier
  let typeName ← typeAnnotation
  let _ ← expect "="
  let value ← expr
  return ⟨offset, name, typeName, false, some value, none⟩

def parser (depth : Nat) : Parser Global := do
  let expr := Expr.parser depth
  let decl ← do
    if ← sees "LIST" then listParser expr
    else if ← sees "VAR" then mutableParser expr
    else immutableParser expr
  let _ ← expect ";"
  return decl

end Global

namespace Function

def parameterParser : Parser (String × String) := do
  let name ← word .identifier
  let typeName ← typeAnnotation
  return (name, typeName)

def parser (depth : Nat) : Parser Function := do
  let offset ← expect "FUN"
  let name ← word .identifier
  let _ ← expect "("
  let parameters ← listUpTo ")" parameterParser
  let returnType ← optional ":" (word .typeName)
  let _ ← expect "DO"
  let body ← Stmt.block (Stmt.parser depth) ["END"]
  let _ ← expect "END"
  return ⟨offset, name, parameters.map Prod.fst, parameters.map Prod.snd, returnType, body, none⟩

end Function

namespace Program

def globalWords : List String := ["LIST", "VAR", "VAL"]

def parser (depth : Nat) : Parser Program := do
  let globals ← many (·.seesAny globalWords) (Global.parser depth)
  let functions ← many (·.sees "FUN") (Function.parser depth)
  let s ← get
  if s.seesAny globalWords then throw ⟨.lateGlobal, some s.here⟩
  else if !s.tokens.isEmpty then expected .definition
  else return ⟨globals, functions⟩

end Program

def parseDepth : Nat := 33400

/-- A parser on a whole token list, of which a rest may stay unread. -/
def Parser.parse {α : Type} (p : Nat → Parser α) (tokens : List Token) : Except ParseError α :=
  (p parseDepth (.ofTokens tokens)).map Prod.fst

def Program.ofTokens (tokens : List Token) : Except ParseError Program :=
  Parser.parse Program.parser tokens

def Parser.toEnd {α : Type} (p : Parser α) : Parser α := do
  let a ← p
  if !(← get).tokens.isEmpty then expected .finish else return a

end PlcLang
