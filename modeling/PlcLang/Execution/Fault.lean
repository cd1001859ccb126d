import PlcLang.Token
import PlcLang.Tree

namespace PlcLang

inductive FaultCause
  | condition (typeName : String)
  | incomparable (left right : String)
  | powerOperands
  | negativeExponent (exponent : Int)
  | divisionByZero
  | operands (op : BinOp) (left right : String)
  | unknownOperator (op : BinOp)
  | unknownVariable (name : String)
  | unknownFunction (name : String) (arity : Nat)
  | notList (typeName name : String)
  | indexType (typeName : String)
  | outOfBounds (index : Int) (length : Nat)
  | notReceiver
  | immutable (name : String)
  | unknownStatement (node : String)
  | unknownExpression (node : String)
  | noMain
  | callDepth

def FaultCause.message : FaultCause → String
  | condition typeName => "condition must be Boolean, got " ++ typeName
  | incomparable left right => "cannot compare " ++ left ++ " with " ++ right
  | powerOperands => "'^' needs Integer operands"
  | negativeExponent exponent => "negative exponent " ++ toString exponent
  | divisionByZero => "division by zero"
  | operands op left right => "'" ++ op.symbol ++ "' cannot combine " ++ left ++ " and " ++ right
  | unknownOperator op => "unknown operator '" ++ op.symbol ++ "'"
  | unknownVariable name => "undefined variable '" ++ name ++ "'"
  | unknownFunction name arity => "undefined function '" ++ name ++ "/" ++ toString arity ++ "'"
  | notList typeName name => "cannot index " ++ typeName ++ " '" ++ name ++ "'"
  | indexType typeName => "list index must be Integer, got " ++ typeName
  | outOfBounds index length =>
    "index " ++ toString index ++ " out of bounds for length " ++ toString length
  | notReceiver => "cannot assign to this expression"
  | immutable name => "cannot assign to immutable '" ++ name ++ "'"
  | unknownStatement node => "unknown statement: " ++ node
  | unknownExpression node => "unknown expression: " ++ node
  | noMain => "no main/0 function"
  | callDepth => "maximum call depth exceeded"

structure Fault where
  cause : FaultCause
  offset : Option Nat

def Fault.message (f : Fault) : String := withOffset f.cause.message f.offset

inductive Stop
  | fault (f : Fault)
  /-- Calls, nested parts or nested lists go deeper than the budget. -/
  | tooDeep
  /-- A slot that checking fills is empty. -/
  | missingSlot
  /-- A loop takes more rounds than the bound allows. -/
  | endless

end PlcLang
