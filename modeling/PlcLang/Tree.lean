import PlcLang.Decimal
import PlcLang.Ty

namespace PlcLang

/-- A declared variable, and its name in Java. Two declarations never share an `id`. -/
structure Variable where
  id : Nat
  name : String
  javaName : String
  type : Ty
  mutable : Bool
deriving DecidableEq

structure Signature where
  name : String
  javaName : String
  parameters : List Ty
  returns : Ty
deriving DecidableEq

def Signature.arity (s : Signature) : Nat := s.parameters.length

/-- The function that every program may call without declaring it. -/
def Signature.print : Signature := ⟨"print", "System.out.println", [.any], .nil⟩

inductive BinOp
  | and
  | or
  | lt
  | gt
  | eq
  | ne
  | add
  | sub
  | mul
  | div
  | pow
  /-- No operator of the language; only trees made by hand hold it. -/
  | other (symbol : String)
deriving DecidableEq

namespace BinOp

def symbol : BinOp → String
  | and => "&&"
  | or => "||"
  | lt => "<"
  | gt => ">"
  | eq => "=="
  | ne => "!="
  | add => "+"
  | sub => "-"
  | mul => "*"
  | div => "/"
  | pow => "^"
  | other symbol => symbol

def ofSymbol : String → BinOp
  | "&&" => and
  | "||" => or
  | "<" => lt
  | ">" => gt
  | "==" => eq
  | "!=" => ne
  | "+" => add
  | "-" => sub
  | "*" => mul
  | "/" => div
  | "^" => pow
  | symbol => other symbol

end BinOp

inductive Literal
  | nil
  | boolean (value : Bool)
  | integer (value : Int)
  | decimal (value : Decimal)
  | character (value : String)
  | string (value : String)
deriving DecidableEq

/-- Where an expression starts, and its static type once it is known. -/
structure Info where
  offset : Nat
  type : Option Ty
deriving DecidableEq

inductive Expr
  | literal (info : Info) (value : Literal)
  | group (info : Info) (inner : Expr)
  | binary (info : Info) (op : BinOp) (left right : Expr)
  | access (info : Info) (name : String) (slot : Option Variable)
  | element (info : Info) (name : String) (index : Expr) (slot : Option Variable)
  | call (info : Info) (name : String) (arguments : List Expr) (slot : Option Signature)
  | list (info : Info) (elements : List Expr)
  /-- A node that is no expression of the language, or no node at all, which has no offset; only
  trees made by hand hold it. -/
  | unknown (start : Option Nat) (node : String)

namespace Expr

def info : Expr → Info
  | literal info _ | group info _ | binary info _ _ _ | access info _ _ | element info _ _ _
  | call info _ _ _ | list info _ => info
  | unknown start _ => ⟨start.getD 0, none⟩

def offset (e : Expr) : Nat := e.info.offset

end Expr

mutual

inductive Stmt
  | expression (offset : Nat) (value : Expr)
  | declaration (offset : Nat) (name : String) (typeName : Option String) (value : Option Expr)
      (slot : Option Variable)
  | assignment (offset : Nat) (receiver value : Expr)
  | ifElse (offset : Nat) (condition : Expr) (thenBody elseBody : List Stmt)
  | switch (offset : Nat) (condition : Expr) (cases : List Case)
  | whileDo (offset : Nat) (condition : Expr) (body : List Stmt)
  | ret (offset : Nat) (value : Option Expr)
  /-- A node that is no statement of the language, or no node at all, which has no offset; only
  trees made by hand hold it. -/
  | unknown (start : Option Nat) (node : String)

/-- One branch of a switch; the default branch has no value. -/
inductive Case
  | mk (offset : Nat) (value : Option Expr) (body : List Stmt)

end

def Case.value : Case → Option Expr
  | mk _ value _ => value

def Case.body : Case → List Stmt
  | mk _ _ body => body

structure Global where
  offset : Nat
  name : String
  typeName : String
  mutable : Bool
  value : Option Expr
  slot : Option Variable

structure Function where
  offset : Nat
  name : String
  parameters : List String
  parameterTypes : List String
  returnType : Option String
  body : List Stmt
  slot : Option Signature

structure Program where
  globals : List Global
  functions : List Function

end PlcLang
