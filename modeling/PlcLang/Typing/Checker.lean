import PlcLang.Typing.Context

namespace PlcLang

def namedType (name : String) (offset : Nat) : Check Ty :=
  match Ty.ofName? name with
  | some type => return type
  | none => throw ⟨.unknownType name, some offset⟩

def fits (target source : Ty) (offset : Nat) : Check Unit :=
  if target.assignable source then return () else throw ⟨.notAssignable target source, some offset⟩

def sameType (expected actual : Ty) (offset : Nat) : Check Unit :=
  if actual = expected then return () else throw ⟨.mismatch expected actual, some offset⟩

namespace Literal

def minInteger : Int := -2147483648
def maxInteger : Int := 2147483647

def type (offset : Nat) : Literal → Check Ty
  | nil => return .nil
  | boolean _ => return .boolean
  | integer n =>
    if minInteger ≤ n ∧ n ≤ maxInteger then return .integer
    else throw ⟨.integerRange n, some offset⟩
  | decimal d => if d.inRange then return .decimal else throw ⟨.decimalRange d, some offset⟩
  | character _ => return .character
  | string _ => return .string

end Literal

namespace BinOp

def type (op : BinOp) (left right : Ty) (leftOffset rightOffset : Nat) : Check Ty :=
  match op with
  | and | or => do
    sameType .boolean left leftOffset
    sameType .boolean right rightOffset
    return .boolean
  | lt | gt => do
    if !left.ordered then throw ⟨.unordered op left, some leftOffset⟩
    sameType left right rightOffset
    return .boolean
  | eq | ne => do
    sameType left right rightOffset
    return .boolean
  | pow => do
    sameType .integer left leftOffset
    sameType .integer right rightOffset
    return .integer
  | add | sub | mul | div => do
    if op = add ∧ (left = .string ∨ right = .string) then return .string
    if !left.numeric then throw ⟨.notNumeric op left, some leftOffset⟩
    sameType left right rightOffset
    return left
  | other symbol => throw ⟨.unknownOperator symbol, none⟩

end BinOp

namespace Expr

def isBinary : Expr → Bool
  | binary .. => true
  | _ => false

def isCall : Expr → Bool
  | call .. => true
  | _ => false

def lookup (ctx : Context) (name : String) (offset : Nat) : Check Variable :=
  match ctx.findVariable? name with
  | some v => return v
  | none => throw ⟨.unknownVariable name, some offset⟩

def lookupFunction (ctx : Context) (name : String) (arity offset : Nat) : Check Signature :=
  match ctx.findFunction? name arity with
  | some s => return s
  | none =>
    if ctx.hasOverload name then throw ⟨.wrongArity name arity, some offset⟩
    else throw ⟨.unknownFunction name, some offset⟩

/-- The type of an expression and the expression with its slots filled, for an expression nested
at most as deep as the budget says. -/
def check (ctx : Context) : Nat → Expr → Check (Ty × Expr)
  | 0, _ => throw ⟨.tooDeep, none⟩
  | depth + 1, e =>
    match e with
    | literal info value => do
      let type ← value.type info.offset
      return (type, literal { info with type := some type } value)
    | group info inner => do
      if !inner.isBinary then throw ⟨.needlessGroup, some info.offset⟩
      let (type, inner) ← check ctx depth inner
      return (type, group { info with type := some type } inner)
    | binary info op left right => do
      let (leftType, left) ← check ctx depth left
      let (rightType, right) ← check ctx depth right
      let type ← op.type leftType rightType left.offset right.offset
      return (type, binary { info with type := some type } op left right)
    | access info name _ => do
      let v ← lookup ctx name info.offset
      return (v.type, access { info with type := some v.type } name (some v))
    | element info name index _ => do
      let v ← lookup ctx name info.offset
      let (indexType, index) ← check ctx depth index
      sameType .integer indexType index.offset
      return (v.type, element { info with type := some v.type } name index (some v))
    | call info name arguments _ => do
      let s ← lookupFunction ctx name arguments.length info.offset
      let arguments ← (arguments.zip s.parameters).mapM fun (argument, parameter) => do
        let (type, argument) ← check ctx depth argument
        fits parameter type argument.offset
        return argument
      return (s.returns, call { info with type := some s.returns } name arguments (some s))
    | list info [] => throw ⟨.emptyList, some info.offset⟩
    | list info (first :: others) => do
      let (type, first) ← check ctx depth first
      let others ← others.mapM fun other => do
        let (otherType, other) ← check ctx depth other
        sameType type otherType other.offset
        return other
      return (type, list { info with type := some type } (first :: others))
    | unknown _ node => throw ⟨.unknownExpression node, none⟩

end Expr

namespace Stmt

/-- Statements one after the other, each in the context that the one before leaves. A violation
ends the walk, and the context reached by then is given as well. -/
def checkEach (step : Context → Stmt → Check (Stmt × Context)) (ctx : Context)
    (done : List Stmt) : List Stmt → Context × Check (List Stmt)
  | [] => (ctx, .ok done.reverse)
  | stmt :: rest =>
    match step ctx stmt with
    | .ok (stmt, ctx) => checkEach step ctx (stmt :: done) rest
    | .error v => (ctx, .error v)

def checkBlock (step : Context → Stmt → Check (Stmt × Context)) (ctx : Context)
    (stmts : List Stmt) : Check (List Stmt × Context) :=
  match checkEach step ctx.push [] stmts with
  | (inner, .ok stmts) => .ok (stmts, ctx.leave inner)
  | (_, .error v) => .error v

def checkOptional (ctx : Context) (depth : Nat) : Option Expr → Check (Option (Ty × Expr))
  | none => return none
  | some e => return some (← e.check ctx depth)

def checkCondition (ctx : Context) (depth : Nat) (e : Expr) : Check Expr := do
  let (type, e) ← e.check ctx depth
  sameType .boolean type e.offset
  return e

/-- A LET statement: the written type, if there is one, decides. -/
def checkDeclaration (ctx : Context) (depth offset : Nat) (name : String)
    (typeName : Option String) (value : Option Expr) : Check (Stmt × Context) := do
  if typeName.isNone ∧ value.isNone then throw ⟨.bareDeclaration name, some offset⟩
  let written ← typeName.mapM (namedType · offset)
  let value ← checkOptional ctx depth value
  if let (some written, some (type, e)) := (written, value) then
    fits written type e.offset
  let type := written.getD ((value.map Prod.fst).getD .nil)
  let (v, ctx) ← ctx.declare name type true offset
  return (.declaration offset name typeName (value.map Prod.snd) (some v), ctx)

def checkAssignment (ctx : Context) (depth offset : Nat) (receiver value : Expr) :
    Check Stmt := do
  let (target, receiver) ←
    match receiver with
    | .access .. | .element .. => receiver.check ctx depth
    | _ => throw ⟨.notReceiver, some offset⟩
  match receiver with
  | .access _ name (some v) | .element _ name _ (some v) =>
    if !v.mutable then throw ⟨.immutable name, some offset⟩
  | _ => pure ()
  let (type, value) ← value.check ctx depth
  fits target type value.offset
  return .assignment offset receiver value

def checkCases (step : Context → Stmt → Check (Stmt × Context)) (depth : Nat) (type : Ty)
    (ctx : Context) (done : List Case) : List Case → Check (List Case × Context)
  | [] => return (done.reverse, ctx)
  | .mk offset value body :: rest => do
    let value ← checkOptional ctx depth value
    if let some (valueType, e) := value then sameType type valueType e.offset
    let (body, ctx) ← checkBlock step ctx body
    checkCases step depth type ctx (.mk offset (value.map Prod.snd) body :: done) rest

/-- A statement in a function that returns the given type, with its slots filled, and the context
behind it. -/
def check (returns : Ty) : Nat → Context → Stmt → Check (Stmt × Context)
  | 0, _, _ => throw ⟨.tooDeep, none⟩
  | depth + 1, ctx, stmt =>
    match stmt with
    | expression offset value => do
      if !value.isCall then throw ⟨.notCall, some offset⟩
      let (_, value) ← value.check ctx depth
      return (expression offset value, ctx)
    | declaration offset name typeName value _ =>
      checkDeclaration ctx depth offset name typeName value
    | assignment offset receiver value => do
      return (← checkAssignment ctx depth offset receiver value, ctx)
    | ifElse offset condition thenBody elseBody => do
      let condition ← checkCondition ctx depth condition
      if thenBody.isEmpty then throw ⟨.emptyIf, some offset⟩
      let (thenBody, ctx) ← checkBlock (check returns depth) ctx thenBody
      let (elseBody, ctx) ← checkBlock (check returns depth) ctx elseBody
      return (ifElse offset condition thenBody elseBody, ctx)
    | switch offset condition cases => do
      let (type, condition) ← condition.check ctx depth
      let (checked, ctx) ← checkCases (check returns depth) depth type ctx [] cases
      if !cases.getLast?.any (·.value.isNone) then throw ⟨.missingDefault, some offset⟩
      return (switch offset condition checked, ctx)
    | whileDo offset condition body => do
      let condition ← checkCondition ctx depth condition
      let (body, ctx) ← checkBlock (check returns depth) ctx body
      return (whileDo offset condition body, ctx)
    | ret offset value => do
      let value ← checkOptional ctx depth value
      fits returns ((value.map Prod.fst).getD .nil) offset
      return (ret offset (value.map Prod.snd), ctx)
    | unknown _ node => throw ⟨.unknownStatement node, none⟩

end Stmt

namespace Global

def check (depth : Nat) (ctx : Context) (g : Global) : Check (Global × Context) := do
  let type ← namedType g.typeName g.offset
  let value ← Stmt.checkOptional ctx depth g.value
  if let some (valueType, e) := value then fits type valueType e.offset
  let (v, ctx) ← ctx.declare g.name type g.mutable g.offset
  return ({ g with value := value.map Prod.snd, slot := some v }, ctx)

end Global

namespace Function

def declare (ctx : Context) (f : Function) : Check (Signature × Context) := do
  let parameters ← f.parameterTypes.mapM (namedType · f.offset)
  let returns ← f.returnType.mapM (namedType · f.offset)
  if ctx.ownsFunction f.name parameters.length then
    throw ⟨.duplicateFunction f.name parameters.length, some f.offset⟩
  let s : Signature := ⟨f.name, f.name, parameters, returns.getD .nil⟩
  return (s, ctx.putFunction s)

/-- Parameters are variables of the body's own block. -/
def declareParameters (ctx : Context) (offset : Nat) : List (String × Ty) → Check Context
  | [] => return ctx
  | (name, type) :: rest => do
    let (_, ctx) ← ctx.declare name type true offset
    declareParameters ctx offset rest

/-- The function with its body checked, where `s` is what it was declared as. -/
def checkBody (depth : Nat) (ctx : Context) (f : Function) (s : Signature) :
    Check (Function × Context) := do
  let inner ← declareParameters ctx.push f.offset (f.parameters.zip s.parameters)
  match Stmt.checkEach (Stmt.check s.returns depth) inner [] f.body with
  | (inner, .ok body) => return ({ f with body, slot := some s }, ctx.leave inner)
  | (_, .error v) => throw v

end Function

def checkDepth : Nat := 50000

namespace Program

def checkGlobals (depth : Nat) (ctx : Context) (done : List Global) :
    List Global → Check (List Global × Context)
  | [] => return (done.reverse, ctx)
  | g :: rest => do
    let (g, ctx) ← g.check depth ctx
    checkGlobals depth ctx (g :: done) rest

def declareFunctions (ctx : Context) (done : List (Function × Signature)) :
    List Function → Check (List (Function × Signature) × Context)
  | [] => return (done.reverse, ctx)
  | f :: rest => do
    let (s, ctx) ← f.declare ctx
    declareFunctions ctx ((f, s) :: done) rest

def checkBodies (depth : Nat) (ctx : Context) (done : List Function) :
    List (Function × Signature) → Check (List Function)
  | [] => return done.reverse
  | (f, s) :: rest => do
    let (f, ctx) ← f.checkBody depth ctx s
    checkBodies depth ctx (f :: done) rest

def requireMain (ctx : Context) : Check Unit :=
  match ctx.findFunction? "main" 0 with
  | none => throw ⟨.noMain, none⟩
  | some s => if s.returns = .integer then return () else throw ⟨.mainReturns s.returns, none⟩

/-- The program with all its slots filled, if its parts are nested at most as deep as the budget
says. -/
def checkWithin (depth : Nat) (p : Program) : Check Program := do
  let (globals, ctx) ← checkGlobals depth .outermost [] p.globals
  let (functions, ctx) ← declareFunctions ctx [] p.functions
  requireMain ctx
  let functions ← checkBodies depth ctx [] functions
  return ⟨globals, functions⟩

def check (p : Program) : Check Program := p.checkWithin checkDepth

end Program

end PlcLang
