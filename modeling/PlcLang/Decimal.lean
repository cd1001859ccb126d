import PlcLang.Decimal.Scale

namespace PlcLang

structure Decimal where
  negative : Bool
  coefficient : Nat
  exponent : Int
deriving DecidableEq

/-- Division that drops the fraction. -/
def truncDiv (a b : Int) : Int :=
  let quotient : Int := (a.natAbs / b.natAbs : Nat)
  if decide (a < 0) != decide (b < 0) then -quotient else quotient

namespace Decimal

def isZero (a : Decimal) : Bool := a.coefficient == 0

def signed (a : Decimal) : Int := if a.negative then -(a.coefficient : Int) else a.coefficient

/-- The signed coefficient of `a` at an exponent `e` not above its own. -/
def signedAt (a : Decimal) (e : Int) : Int :=
  let n := scaleUp a.coefficient (a.exponent - e).toNat
  if a.negative then -(n : Int) else n

/-- `n` at the exponent `e`; `negativeZero` says which zero zero is. -/
def ofSigned (n : Int) (e : Int) (negativeZero : Bool) : Decimal :=
  ⟨if n = 0 then negativeZero else decide (n < 0), n.natAbs, e⟩

def neg (a : Decimal) : Decimal := { a with negative := !a.negative }

def abs (a : Decimal) : Decimal := { a with negative := false }

/-- The sum, at the smaller exponent. A zero sum is negative only for two negative operands. -/
def add (a b : Decimal) : Decimal :=
  let e := min a.exponent b.exponent
  ofSigned (a.signedAt e + b.signedAt e) e (a.negative && b.negative)

def sub (a b : Decimal) : Decimal := a.add b.neg

def mul (a b : Decimal) : Decimal :=
  ⟨a.negative != b.negative, a.coefficient * b.coefficient, a.exponent + b.exponent⟩

/-- The quotient at the exponent of `a`, rounded half to even; a zero quotient is not negative. -/
def div (a b : Decimal) : Decimal :=
  let q := roundHalfEven (scaleUp a.coefficient (-b.exponent).toNat)
    (scaleUp b.coefficient b.exponent.toNat)
  ⟨q != 0 && a.negative != b.negative, q, a.exponent⟩

def absLt (a b : Decimal) : Bool :=
  if b.exponent ≤ a.exponent then
    scaledLt a.coefficient (a.exponent - b.exponent).toNat b.coefficient
  else !scaledLt b.coefficient (b.exponent - a.exponent).toNat (a.coefficient + 1)

/-- The order of the numbers; the two zeros are one number. -/
def lt (a b : Decimal) : Bool :=
  match a.negative, b.negative with
  | false, false => a.absLt b
  | true, true => b.absLt a
  | true, false => !(a.isZero && b.isZero)
  | false, true => false

/-- The same number at the same scale; the sign of zero does not count. -/
def same (a b : Decimal) : Bool := a.signed == b.signed && a.exponent == b.exponent

def digits (a : Decimal) : List Char := (toString a.coefficient).toList

def signText (a : Decimal) : List Char := if a.negative then ['-'] else []

/-- The digits in front of the point and those after it, for `n` digits after it. -/
def splitDigits (digits : List Char) (n : Nat) : List Char × List Char :=
  let padded := List.replicate (n + 1 - digits.length) '0' ++ digits
  padded.splitAt (padded.length - n)

def positional (a : Decimal) : String :=
  if 0 ≤ a.exponent then
    let zeros := if a.isZero then 0 else a.exponent.toNat
    String.ofList (a.signText ++ a.digits ++ List.replicate zeros '0')
  else
    let (whole, fraction) := splitDigits a.digits (-a.exponent).toNat
    String.ofList (a.signText ++ whole ++ '.' :: fraction)

/-- Positional notation, in which no zero has a sign. -/
def toText (a : Decimal) : String := if a.isZero then a.abs.positional else a.positional

/-- Positional notation unless zeros would have to be added to the digits: more than five between
point and first digit, or any in front of the point. Then one digit stands in front of the point
and an exponent follows. -/
def scientific (a : Decimal) : String :=
  let leading : Int := a.exponent + (a.digits.length - 1 : Nat)
  if a.exponent ≤ 0 ∧ -6 ≤ leading then a.positional
  else
    let fraction := a.digits.drop 1
    let mantissa := a.digits.take 1 ++ (if fraction.isEmpty then [] else '.' :: fraction)
    String.ofList (a.signText ++ mantissa) ++ "E" ++ (if leading < 0 then "-" else "+") ++
      toString leading.natAbs

/-- The first number that rounds to infinity as a binary floating point number of 64 bits. -/
def overflow : Nat := Nat.pow 2 1024 - Nat.pow 2 970

def inRange (a : Decimal) : Bool := a.absLt ⟨false, overflow, 0⟩

def truncate (a : Decimal) : Int :=
  let n := if 0 ≤ a.exponent then scaleUp a.coefficient a.exponent.toNat
    else scaleDown a.coefficient (-a.exponent).toNat
  if a.negative then -(n : Int) else n

def digitValue (c : Char) : Nat := c.toNat - '0'.toNat

def natOfDigits (cs : List Char) : Nat := cs.foldl (fun n c => 10 * n + digitValue c) 0

/-- Splits off a leading sign; true means minus. -/
def readSign : List Char → Bool × List Char
  | '-' :: cs => (true, cs)
  | '+' :: cs => (false, cs)
  | cs => (false, cs)

def readExponent? : List Char → Option Int
  | [] => some 0
  | c :: cs =>
    let (negative, ds) := readSign cs
    if (c == 'e' || c == 'E') && !ds.isEmpty && ds.all Char.isDigit then
      some (if negative then -(natOfDigits ds : Int) else natOfDigits ds)
    else none

def readFraction : List Char → List Char × List Char
  | '.' :: cs => cs.span Char.isDigit
  | cs => ([], cs)

/-- The number a numeral stands for: a sign, digits with or without a point, an exponent. -/
def ofText? (text : String) : Option Decimal :=
  let (negative, cs) := readSign text.toList
  let (whole, cs) := cs.span Char.isDigit
  let (fraction, cs) := readFraction cs
  if whole.isEmpty && fraction.isEmpty then none
  else (readExponent? cs).map fun e =>
    ⟨negative, natOfDigits (whole ++ fraction), e - fraction.length⟩

end Decimal

end PlcLang
