import PlcLang.Value
import PlcLang.Execution.Fault

namespace PlcLang

/-- The powers of zero and one take no time, however large the exponent. -/
def natPower (base exponent : Nat) : Nat :=
  match base with
  | 0 => if exponent = 0 then 1 else 0
  | 1 => 1
  | base => Nat.pow base exponent

def intPower (base : Int) (exponent : Nat) : Int :=
  if base < 0 ∧ exponent % 2 = 1 then -(natPower base.natAbs exponent : Int)
  else natPower base.natAbs exponent

theorem natPower_eq (base exponent : Nat) : natPower base exponent = Nat.pow base exponent := by
  unfold natPower
  split
  · cases exponent <;> simp
  · simp
  · rfl

namespace BinOp

def power : Value → Value → Except FaultCause Value
  | .integer a, .integer b =>
    if b < 0 then throw (.negativeExponent b) else return .integer (intPower a b.toNat)
  | _, _ => throw .powerOperands

def integers (op : BinOp) (a b : Int) : Except FaultCause Int :=
  match op with
  | add => return a + b
  | sub => return a - b
  | mul => return a * b
  | div => if b = 0 then throw .divisionByZero else return truncDiv a b
  | _ => throw (.unknownOperator op)

def decimals (op : BinOp) (a b : Decimal) : Except FaultCause Decimal :=
  match op with
  | add => return a.add b
  | sub => return a.sub b
  | mul => return a.mul b
  | div => if b.isZero then throw .divisionByZero else return a.div b
  | _ => throw (.unknownOperator op)

def combine (op : BinOp) : Value → Value → Except FaultCause Value
  | .integer a, .integer b => return .integer (← op.integers a b)
  | .decimal a, .decimal b => return .decimal (← op.decimals a b)
  | v, w => throw (.operands op v.typeName w.typeName)

def compare (op : BinOp) (v w : Value) : Except FaultCause Value :=
  match if op = gt then w.less? v else v.less? w with
  | some b => return .boolean b
  | none => throw (.incomparable v.typeName w.typeName)

end BinOp

end PlcLang
