import PlcLang.Token
import PlcLang.Tree

namespace PlcLang

inductive ViolationCause
  | noMain
  | mainReturns (type : Ty)
  | mismatch (expected actual : Ty)
  | unordered (op : BinOp) (type : Ty)
  | notNumeric (op : BinOp) (type : Ty)
  | notAssignable (target source : Ty)
  | unknownType (name : String)
  | unknownVariable (name : String)
  | unknownFunction (name : String)
  | wrongArity (name : String) (arity : Nat)
  | duplicateVariable (name : String)
  | duplicateFunction (name : String) (arity : Nat)
  | emptyIf
  | missingDefault
  | integerRange (value : Int)
  | decimalRange (value : Decimal)
  | notCall
  | bareDeclaration (name : String)
  | notReceiver
  | needlessGroup
  | emptyList
  | tooDeep
  | immutable (name : String)
  /-- The last three are found in trees made by hand only. -/
  | unknownStatement (node : String)
  | unknownExpression (node : String)
  | unknownOperator (symbol : String)

def ViolationCause.message : ViolationCause → String
  | noMain => "no main/0 function declared"
  | mainReturns type => "main/0 must return Integer, not " ++ type.name
  | mismatch expected actual => "expected " ++ expected.name ++ ", got " ++ actual.name
  | unordered op type => "'" ++ op.symbol ++ "' cannot compare " ++ type.name
  | notNumeric op type => "'" ++ op.symbol ++ "' needs Integer or Decimal operands, got " ++ type.name
  | notAssignable target source => "cannot assign " ++ source.name ++ " to " ++ target.name
  | unknownType name => "unknown type '" ++ name ++ "'"
  | unknownVariable name => "undefined variable '" ++ name ++ "'"
  | unknownFunction name => "undefined function '" ++ name ++ "'"
  | wrongArity name arity =>
    "no function '" ++ name ++ "' taking " ++ toString arity ++ " arguments"
  | duplicateVariable name => "'" ++ name ++ "' is already declared in this scope"
  | duplicateFunction name arity =>
    "function '" ++ name ++ "/" ++ toString arity ++ "' is already declared"
  | emptyIf => "IF must have at least one statement"
  | missingDefault => "SWITCH requires a DEFAULT case"
  | integerRange value => "integer literal " ++ toString value ++ " does not fit in 32 bits"
  | decimalRange value => "decimal literal " ++ value.scientific ++ " is out of range"
  | notCall => "expression statement must be a function call"
  | bareDeclaration name => "declaration of '" ++ name ++ "' needs a type or an initial value"
  | notReceiver => "can only assign to a variable or list element"
  | needlessGroup => "parentheses must enclose a binary expression"
  | emptyList => "list literal must have at least one element"
  | tooDeep => "program is nested too deeply"
  | immutable name => "cannot assign to immutable '" ++ name ++ "'"
  | unknownStatement node => "unknown statement: " ++ node
  | unknownExpression node => "unknown expression: " ++ node
  | unknownOperator symbol => "unknown operator: " ++ symbol

structure Violation where
  cause : ViolationCause
  offset : Option Nat

def Violation.message (v : Violation) : String := withOffset v.cause.message v.offset

end PlcLang
