import PlcLang.Java.Frames

namespace PlcLang

inductive JavaFailure
  /-- A slot that checking fills is empty. -/
  | missingSlot
  | unknownOperator (symbol : String)
  | unknownStatement (node : String)
  | unknownExpression (node : String)
  /-- A numeral has more digits than are written out. -/
  | longNumeral
  | tooDeep

def JavaFailure.message : JavaFailure → String
  | missingSlot => "missing slot"
  | unknownOperator symbol => "unhandled operator: " ++ symbol
  | unknownStatement node => "unhandled stmt type: " ++ node
  | unknownExpression node => "unhandled expr type: " ++ node
  | longNumeral => "Exceeds the limit (4300 digits) for integer string conversion"
  | tooDeep => "maximum recursion depth exceeded"

def Ty.java : Ty → String
  | any => "Object"
  | boolean => "boolean"
  | character => "char"
  | decimal => "double"
  | integer => "int"
  | string => "String"
  | comparable => "Comparable"
  | nil => "Void"

namespace Java

abbrev Result := Except JavaFailure

def escapeChar (quote c : Char) : List Char :=
  if c = '\n' then ['\\', 'n']
  else if c = '\r' then ['\\', 'r']
  else if c = '\t' then ['\\', 't']
  else if c = '\x08' then ['\\', 'b']
  else if c = '\\' then ['\\', '\\']
  else if c = quote then ['\\', quote]
  else [c]

def escape (quote : Char) (s : String) : String :=
  String.ofList (s.toList.flatMap (escapeChar quote))

def quoted (quote : Char) (s : String) : String :=
  String.singleton quote ++ escape quote s ++ String.singleton quote

/-- How tightly an operator of Java binds. A power is a call and has no place among them. -/
def precedence? : BinOp → Option Nat
  | .or => some 1
  | .and => some 2
  | .eq | .ne => some 3
  | .lt | .gt => some 4
  | .add | .sub => some 5
  | .mul | .div => some 6
  | .pow | .other _ => none

/-- How tightly the outermost operator of an expression binds, if it has one in Java. -/
def outer? : Expr → Option Nat
  | .binary _ op _ _ => precedence? op
  | _ => none

inductive Bracket
  | round
  | square
  | curly
deriving DecidableEq

inductive Piece
  /-- A name or a literal. -/
  | atom (text : String)
  | operator (op : BinOp)
  | comma
  | opening (b : Bracket)
  | closing (b : Bracket)
deriving DecidableEq

def Piece.text : Piece → String
  | atom text => text
  | operator op => " " ++ op.symbol ++ " "
  | comma => ", "
  | opening .round => "("
  | opening .square => "["
  | opening .curly => "\x7b"
  | closing .round => ")"
  | closing .square => "]"
  | closing .curly => "\x7d"

def enclosed (b : Bracket) (pieces : List Piece) : List Piece :=
  .opening b :: pieces ++ [.closing b]

def listed (b : Bracket) (parts : List (List Piece)) : List Piece :=
  enclosed b ([.comma].intercalate parts)

/-- A left operand needs parentheses if it binds looser than the operator. -/
def leftOperand (precedence : Nat) (e : Expr) (pieces : List Piece) : List Piece :=
  if (outer? e).any (· < precedence) then enclosed .round pieces else pieces

/-- A right operand needs them also if it binds as tightly. -/
def rightOperand (precedence : Nat) (e : Expr) (pieces : List Piece) : List Piece :=
  if (outer? e).any (· ≤ precedence) then enclosed .round pieces else pieces

def variableName : Option Variable → Result String
  | some v => return v.javaName
  | none => throw .missingSlot

end Java

open Java

/-- How many digits of a number are written out at most. -/
def Java.digitLimit : Nat := 4300

def Literal.javaText : Literal → String
  | nil => "null"
  | boolean true => "true"
  | boolean false => "false"
  | integer n => toString n
  | decimal d => d.positional
  | character s => quoted '\'' s
  | string s => quoted '"' s

def Literal.java (value : Literal) : Result String :=
  match value with
  | integer n =>
    if (Nat.toDigits 10 n.natAbs).length ≤ digitLimit then return value.javaText
    else throw .longNumeral
  | _ => return value.javaText

mutual

def Expr.pieces : Expr → Result (List Piece)
  | .literal _ value => return [.atom (← value.java)]
  | .group _ inner => return enclosed .round (← inner.pieces)
  | .binary _ .pow left right =>
    return .atom "Math.pow" :: listed .round [← left.pieces, ← right.pieces]
  | .binary _ op left right =>
    match precedence? op with
    | none => throw (.unknownOperator op.symbol)
    | some p => do
      let leftPieces ← left.pieces
      let rightPieces ← right.pieces
      return leftOperand p left leftPieces ++ .operator op :: rightOperand p right rightPieces
  | .access _ _ slot => return [.atom (← variableName slot)]
  | .element _ _ index slot => do
    let name ← variableName slot
    return .atom name :: enclosed .square (← index.pieces)
  | .call _ _ _ none => throw .missingSlot
  | .call _ _ arguments (some s) =>
    return .atom s.javaName :: listed .round (← Expr.piecesEach arguments)
  | .list _ elements => return listed .curly (← Expr.piecesEach elements)
  | .unknown _ node => throw (.unknownExpression node)

def Expr.piecesEach : List Expr → Result (List (List Piece))
  | [] => return []
  | e :: rest => return (← e.pieces) :: (← Expr.piecesEach rest)

end

def Expr.java (e : Expr) : Result String := return String.join ((← e.pieces).map Piece.text)

namespace Java

def line (level : Nat) (text : String) : String := "".pushn ' ' (4 * level) ++ text

def isList : Option Expr → Bool
  | some (.list ..) => true
  | _ => false

/-- A declaration; a list initializes an array. -/
def declarator (type : Ty) (name : String) (value : Option Expr) : Result String := do
  let head := type.java ++ (if isList value then "[]" else "") ++ " " ++ name
  match value with
  | none => return head
  | some e => return head ++ " = " ++ (← e.java)

def inBraces (level : Nat) (header : String) (body : List String) : List String :=
  if body.isEmpty then [line level (header ++ " \x7b\x7d")]
  else line level (header ++ " \x7b") :: body ++ [line level "\x7d"]

end Java

mutual

/-- The lines of a statement at an indentation level. -/
def Stmt.java (level : Nat) : Stmt → Result (List String)
  | .expression _ value => return [line level ((← value.java) ++ ";")]
  | .declaration _ _ _ _ none => throw .missingSlot
  | .declaration _ _ _ value (some v) => return [line level ((← declarator v.type v.javaName value) ++ ";")]
  | .assignment _ receiver value => do
    let receiver ← receiver.java
    return [line level (receiver ++ " = " ++ (← value.java) ++ ";")]
  | .ifElse _ condition thenBody elseBody => do
    let condition ← condition.java
    let thenLines ← Stmt.javaEach (level + 1) thenBody
    let elseLines ← Stmt.javaEach (level + 1) elseBody
    let elsePart := if elseBody.isEmpty then [] else line level "\x7d else \x7b" :: elseLines
    return line level ("if (" ++ condition ++ ") \x7b") :: thenLines ++ elsePart ++
      [line level "\x7d"]
  | .switch _ condition cases => do
    let condition ← condition.java
    let body ← Case.javaEach (level + 1) cases
    return line level ("switch (" ++ condition ++ ") \x7b") :: body ++ [line level "\x7d"]
  | .whileDo _ condition body => do
    let condition ← condition.java
    return inBraces level ("while (" ++ condition ++ ")") (← Stmt.javaEach (level + 1) body)
  | .ret _ none => return [line level "return;"]
  | .ret _ (some value) => return [line level ("return " ++ (← value.java) ++ ";")]
  | .unknown _ node => throw (.unknownStatement node)

def Stmt.javaEach (level : Nat) : List Stmt → Result (List String)
  | [] => return []
  | stmt :: rest => return (← stmt.java level) ++ (← Stmt.javaEach level rest)

def Case.java (level : Nat) : Case → Result (List String)
  | .mk _ none body => return line level "default:" :: (← Stmt.javaEach (level + 1) body)
  | .mk _ (some value) body => do
    let value ← value.java
    let body ← Stmt.javaEach (level + 1) body
    return line level ("case " ++ value ++ ":") :: body ++ [line (level + 1) "break;"]

def Case.javaEach (level : Nat) : List Case → Result (List String)
  | [] => return []
  | c :: rest => return (← c.java level) ++ (← Case.javaEach level rest)

end

def Global.java (g : Global) : Result String :=
  match g.slot with
  | none => throw .missingSlot
  | some v => do
    let text ← declarator v.type v.javaName g.value
    return line 1 ((if g.mutable then text else "final " ++ text) ++ ";")

def Function.javaHeader (f : Function) (s : Signature) : String :=
  let parameters := (f.parameters.zip s.parameters).map fun (name, type) => type.java ++ " " ++ name
  s.returns.java ++ " " ++ s.javaName ++ "(" ++ ", ".intercalate parameters ++ ")"

def Function.java (f : Function) : Result (List String) :=
  match f.slot with
  | none => throw .missingSlot
  | some s => return inBraces 1 (f.javaHeader s) (← Stmt.javaEach 2 f.body)

namespace Java

def entry : List String :=
  [line 1 "public static void main(String[] args) \x7b",
    line 2 "System.exit(new Main().main());",
    line 1 "\x7d"]

end Java

def Program.javaLines (p : Program) : Result (List String) := do
  let globals ← p.globals.mapM Global.java
  let functions ← p.functions.mapM Function.java
  let fields := if globals.isEmpty then [] else globals ++ [""]
  return ["public class Main \x7b", ""] ++ fields ++ entry ++ functions.flatMap ("" :: ·) ++ ["", "\x7d"]

def Program.javaText (p : Program) : Result String :=
  return String.join ((← p.javaLines).map (· ++ "\n"))

/-- The text of a program that is rendered with the calls that there are. -/
def Program.java (p : Program) : Result String :=
  if p.javaFrames ≤ frameLimit then p.javaText else throw .tooDeep

end PlcLang
