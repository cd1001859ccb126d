import Mathlib.Data.PFun
import PlcLang.Tree.Parser

namespace PlcLang

structure Tape where
  tokens : List Token
  place : Nat

/-- All tokens and an end token behind the last one, from the start on. -/
def Tape.ofTokens (tokens : List Token) : Tape :=
  ⟨tokens ++ [⟨.eof, "", (tokens.getLast?.map Token.stop).getD 0⟩], 0⟩

inductive TapeError
  | refused (e : ParseError)
  /-- There is no token at the place. -/
  | outside

/-- The tape keeps its place when a parser fails. -/
abbrev TapeParser := ExceptT TapeError (StateT Tape Part)

namespace TapeParser

variable {α : Type}

def current : TapeParser Token := do
  let tape ← get
  match tape.tokens[tape.place]? with
  | some t => return t
  | none => throw .outside

/-- Gives the token at the place and moves on, but stays where an end token is. -/
def advance : TapeParser Token := do
  let t ← current
  if t.kind != .eof then modify fun tape => { tape with place := tape.place + 1 }
  return t

def sees (text : String) : TapeParser Bool := do
  let t ← current
  return t.kind != .eof && t.text == text

def seesAny (texts : List String) : TapeParser Bool := do
  let t ← current
  return t.kind != .eof && texts.contains t.text

def atEnd : TapeParser Bool := do
  let t ← current
  return t.kind == .eof

def refuse (cause : ParseCause) : TapeParser α := do
  let t ← current
  throw (.refused ⟨cause, some t.offset⟩)

def expected (what : Wanted) : TapeParser α := do
  let t ← current
  refuse (.expected what (if t.kind == .eof then none else some t.text))

def expect (text : String) : TapeParser Nat := do
  if ← sees text then
    let t ← advance
    return t.offset
  else expected (.word text)

def word (what : Wanted) : TapeParser String := do
  let t ← current
  if t.isName then
    let t ← advance
    return t.text
  else expected what

section Loops

variable {σ : Type}

/-- One round of a loop, which gives a result or the state of the next round. -/
def turn (round : σ → TapeParser (α ⊕ σ)) :
    σ × Tape →. (Except TapeError α × Tape) ⊕ (σ × Tape) := fun x =>
  (round x.1 x.2).map fun
    | (.ok (.inl a), tape) => .inl (.ok a, tape)
    | (.ok (.inr s), tape) => .inr (s, tape)
    | (.error e, tape) => .inl (.error e, tape)

/-- Rounds from a state on, until one gives a result. -/
def loop (round : σ → TapeParser (α ⊕ σ)) (s : σ) : TapeParser α := fun tape =>
  (turn round).fix (s, tape)

def loopWhile (test : TapeParser Bool) (round : σ → TapeParser σ) : σ → TapeParser σ :=
  loop fun s => do
    if ← test then
      let s ← round s
      return .inr s
    else return .inl s

end Loops

/-- More items behind the given ones, until a test fails. -/
def repeatedFrom (test : TapeParser Bool) (p : TapeParser α) : List α → TapeParser (List α) :=
  loopWhile test fun items => do
    let a ← p
    return items ++ [a]

def repeated (test : TapeParser Bool) (p : TapeParser α) : TapeParser (List α) :=
  repeatedFrom test p []

def optional (word : String) (p : TapeParser α) : TapeParser (Option α) := do
  if ← sees word then
    let _ ← advance
    let a ← p
    return some a
  else return none

def commaList (p : TapeParser α) : TapeParser (List α) := do
  let first ← p
  let rest ← repeated (sees ",") do
    let _ ← advance
    p
  return first :: rest

def listUpTo (close : String) (p : TapeParser α) : TapeParser (List α) := do
  let items ← if ← sees close then pure [] else commaList p
  let _ ← expect close
  return items

def typeAnnotation : TapeParser String := do
  let _ ← expect ":"
  word .typeName

section Expressions

def chainFrom (ops : List BinOp) (operand : TapeParser Expr) : Expr → TapeParser Expr :=
  loopWhile (seesAny (ops.map BinOp.symbol)) fun left => do
    let t ← advance
    let right ← operand
    return .binary ⟨left.offset, none⟩ (.ofSymbol t.text) left right

def chain (ops : List BinOp) (operand : TapeParser Expr) : TapeParser Expr := do
  let left ← operand
  chainFrom ops operand left

/-- The value of a literal token, which is taken before its value is looked at. -/
def literal (value : Except ParseError Literal) : TapeParser Expr := do
  let t ← advance
  match value with
  | .ok value => return .literal ⟨t.offset, none⟩ value
  | .error e => throw (.refused e)

def named (inner : TapeParser Expr) (info : Info) (name : String) : TapeParser Expr := do
  if ← sees "(" then
    let _ ← advance
    let arguments ← listUpTo ")" inner
    return .call info name arguments none
  else if ← sees "[" then
    let _ ← advance
    let index ← inner
    let _ ← expect "]"
    return .element info name index none
  else return .access info name none

def bracketed (inner : TapeParser Expr) (info : Info) : TapeParser Expr := do
  let _ ← advance
  let e ← inner
  let _ ← expect ")"
  return .group info e

def list (inner : TapeParser Expr) (info : Info) : TapeParser Expr := do
  let _ ← advance
  let elements ← listUpTo "]" inner
  return .list info elements

def primary (inner : TapeParser Expr) : TapeParser Expr := do
  let t ← current
  let info : Info := ⟨t.offset, none⟩
  match if t.kind == .eof then none else Expr.literal? t with
  | some value => literal value
  | none =>
    if ← sees "(" then bracketed inner info
    else if ← sees "[" then list inner info
    else if t.isName then
      let _ ← advance
      named inner info t.text
    else expected .expression

/-- An expression within the same budget as the parser of a program has. -/
def expr : Nat → TapeParser Expr
  | depth + 2 =>
    chain Expr.logicalOps <| chain Expr.comparisonOps <| chain Expr.additiveOps <|
      chain Expr.multiplicativeOps <| primary (expr depth)
  | _ => refuse .tooDeep

end Expressions

section Statements

def block (stmt : TapeParser Stmt) (words : List String) : TapeParser (List Stmt) :=
  repeated (do return !(← seesAny words)) stmt

def declaration (expr : TapeParser Expr) : TapeParser Stmt := do
  let offset ← expect "LET"
  let name ← word .identifier
  let typeName ← optional ":" (word .typeName)
  let value ← optional "=" expr
  let _ ← expect ";"
  return .declaration offset name typeName value none

def branch (expr : TapeParser Expr) (stmt : TapeParser Stmt) : TapeParser Case := do
  let t ← advance
  let value ← expr
  let _ ← expect ":"
  let body ← block stmt ["CASE", "DEFAULT", "END"]
  return .mk t.offset (some value) body

def defaultBranch (stmt : TapeParser Stmt) : TapeParser (List Case) := do
  if ← sees "DEFAULT" then
    let t ← advance
    let body ← block stmt ["END"]
    return [.mk t.offset none body]
  else return []

def switch (expr : TapeParser Expr) (stmt : TapeParser Stmt) : TapeParser Stmt := do
  let offset ← expect "SWITCH"
  let condition ← expr
  let cases ← repeated (sees "CASE") (branch expr stmt)
  let default ← defaultBranch stmt
  let _ ← expect "END"
  return .switch offset condition (cases ++ default)

def ifElse (expr : TapeParser Expr) (stmt : TapeParser Stmt) : TapeParser Stmt := do
  let offset ← expect "IF"
  let condition ← expr
  let _ ← expect "DO"
  let thenBody ← block stmt ["ELSE", "END"]
  let elseBody ← optional "ELSE" (block stmt ["END"])
  let _ ← expect "END"
  return .ifElse offset condition thenBody (elseBody.getD [])

def whileDo (expr : TapeParser Expr) (stmt : TapeParser Stmt) : TapeParser Stmt := do
  let offset ← expect "WHILE"
  let condition ← expr
  let _ ← expect "DO"
  let body ← block stmt ["END"]
  let _ ← expect "END"
  return .whileDo offset condition body

def ret (expr : TapeParser Expr) : TapeParser Stmt := do
  let offset ← expect "RETURN"
  let value ← if ← sees ";" then pure none else some <$> expr
  let _ ← expect ";"
  return .ret offset value

def simple (expr : TapeParser Expr) : TapeParser Stmt := do
  let t ← current
  let receiver ← expr
  let value ← optional "=" expr
  let _ ← expect ";"
  match value with
  | some value => return .assignment t.offset receiver value
  | none => return .expression t.offset receiver

/-- A statement within the same budget as the parser of a program has. -/
def stmt : Nat → TapeParser Stmt
  | 0 => refuse .tooDeep
  | depth + 1 => do
    if ← sees "LET" then declaration (expr depth)
    else if ← sees "SWITCH" then switch (expr depth) (stmt depth)
    else if ← sees "IF" then ifElse (expr depth) (stmt depth)
    else if ← sees "WHILE" then whileDo (expr depth) (stmt depth)
    else if ← sees "RETURN" then ret (expr depth)
    else simple (expr depth)

end Statements

section Programs

def listGlobal (expr : TapeParser Expr) : TapeParser Global := do
  let offset ← expect "LIST"
  let name ← word .identifier
  let typeName ← typeAnnotation
  let _ ← expect "="
  let bracket ← expect "["
  let elements ← commaList expr
  let _ ← expect "]"
  return ⟨offset, name, typeName, true, some (.list ⟨bracket, none⟩ elements), none⟩

def mutableGlobal (expr : TapeParser Expr) : TapeParser Global := do
  let offset ← expect "VAR"
  let name ← word .identifier
  let typeName ← typeAnnotation
  let value ← optional "=" expr
  return ⟨offset, name, typeName, true, value, none⟩

def immutableGlobal (expr : TapeParser Expr) : TapeParser Global := do
  let offset ← expect "VAL"
  let name ← word .identifier
  let typeName ← typeAnnotation
  let _ ← expect "="
  let value ← expr
  return ⟨offset, name, typeName, false, some value, none⟩

def global (depth : Nat) : TapeParser Global := do
  let decl ← do
    if ← sees "LIST" then listGlobal (expr depth)
    else if ← sees "VAR" then mutableGlobal (expr depth)
    else immutableGlobal (expr depth)
  let _ ← expect ";"
  return decl

def parameter : TapeParser (String × String) := do
  let name ← word .identifier
  let typeName ← typeAnnotation
  return (name, typeName)

def function (depth : Nat) : TapeParser Function := do
  let offset ← expect "FUN"
  let name ← word .identifier
  let _ ← expect "("
  let parameters ← listUpTo ")" parameter
  let returnType ← optional ":" (word .typeName)
  let _ ← expect "DO"
  let body ← block (stmt depth) ["END"]
  let _ ← expect "END"
  return ⟨offset, name, parameters.map Prod.fst, parameters.map Prod.snd, returnType, body, none⟩

def program (depth : Nat) : TapeParser Program := do
  let globals ← repeated (seesAny Program.globalWords) (global depth)
  let functions ← repeated (sees "FUN") (function depth)
  if ← seesAny Program.globalWords then refuse .lateGlobal
  else if !(← atEnd) then expected .definition
  else return ⟨globals, functions⟩

end Programs

end TapeParser

end PlcLang
