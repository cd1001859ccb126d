import PlcLang.Execution.Arithmetic
import PlcLang.Execution.Store

namespace PlcLang

namespace Run

def inOrder (step : Stmt → Run (Option Value)) : List Stmt → Run (Option Value)
  | [] => return none
  | stmt :: rest => do
    match ← step stmt with
    | some v => return some v
    | none => inOrder step rest

/-- At most `n` rounds of a loop, up to the first that returns. -/
def loop (condition : Run Bool) (body : Run (Option Value)) : Nat → Run (Option Value)
  | 0 => throw .endless
  | n + 1 => do
    if ← condition then
      match ← body with
      | some v => return some v
      | none => loop condition body n
    else return none

def truth (offset : Nat) : Value → Run Bool
  | .boolean b => return b
  | v => fault (.condition v.typeName) offset

def addressOf (name : String) (offset : Nat) : Value → Run Nat
  | .list address => return address
  | v => fault (.notList v.typeName name) offset

def position (length offset : Nat) : Value → Run Nat
  | .integer i =>
    if 0 ≤ i ∧ i < length then return i.toNat else fault (.outOfBounds i length) offset
  | v => fault (.indexType v.typeName) offset

def lift (offset : Nat) : Except FaultCause Value → Run Value
  | .ok v => return v
  | .error cause => fault cause offset

def operate (depth offset : Nat) (op : BinOp) (v w : Value) : Run Value := do
  match op, v, w with
  | .eq, v, w => return .boolean (← equal depth v w)
  | .ne, v, w => return .boolean !(← equal depth v w)
  | .lt, v, w | .gt, v, w => lift offset (op.compare v w)
  | .pow, v, w => lift offset (BinOp.power v w)
  | .add, .string _, _ | .add, _, .string _ =>
    return .string ((← text depth v) ++ (← text depth w))
  | op, v, w => lift offset (op.combine v w)

def bindParameters (scope : Nat) : List String → List Ty → List Value → Run Unit
  | name :: names, type :: types, value :: values => do
    define scope name ⟨type, true, value⟩
    bindParameters scope names types values
  | _, _, _ => return ()

def call (exec : Nat → Stmt → Run (Option Value)) (depth : Nat) (r : Routine)
    (values : List Value) : Run Value :=
  match r.body with
  | .print => do
    printLine (← text depth (values.headD .nil))
    return .nil
  | .block parameters statements home => do
    let scope ← openScope home
    bindParameters scope parameters r.signature.parameters values
    return (← inOrder (exec scope) statements).getD .nil

/-- The body of the first branch whose value equals the given one; the default branch always
does. -/
def select (eval : Expr → Run Value) (depth : Nat) (v : Value) : List Case → Run (List Stmt)
  | [] => return []
  | .mk _ none body :: _ => return body
  | .mk _ (some e) body :: rest => do
    let w ← eval e
    if ← equal depth w v then return body else select eval depth v rest

def block (exec : Nat → Stmt → Run (Option Value)) (parent : Nat) (body : List Stmt) :
    Run (Option Value) := do
  let scope ← openScope parent
  inOrder (exec scope) body

/-- The new value of a variable goes to the scope where the variable was found. -/
def assign (eval : Expr → Run Value) (scope offset : Nat) (receiver value : Expr) : Run Unit :=
  match receiver with
  | .access info name _ => do
    let (home, cell) ← lookup scope name info.offset
    if !cell.mutable then fault (.immutable name) offset
    let v ← eval value
    define home name { cell with value := v }
  | .element info name index _ => do
    let (_, cell) ← lookup scope name info.offset
    if !cell.mutable then fault (.immutable name) offset
    let address ← addressOf name info.offset cell.value
    let length ← lengthOf address
    let i ← position length index.offset (← eval index)
    let v ← eval value
    write address i v
  | _ => fault .notReceiver offset

end Run

open Run

mutual

/-- The value of an expression in a scope, for a budget of depth. No loop takes more than the given
number of rounds. -/
def Expr.eval (rounds : Nat) : Nat → Nat → Expr → Run Value
  | 0, _, _ => throw .tooDeep
  | depth + 1, scope, e =>
    match e with
    | .literal _ .nil => return .nil
    | .literal _ (.boolean b) => return .boolean b
    | .literal _ (.integer n) => return .integer n
    | .literal _ (.decimal d) => return .decimal d
    | .literal _ (.character s) => return .character s
    | .literal _ (.string s) => return .string s
    | .group _ inner => Expr.eval rounds depth scope inner
    | .binary _ .and left right => do
      if ← truth left.offset (← Expr.eval rounds depth scope left) then
        return .boolean (← truth right.offset (← Expr.eval rounds depth scope right))
      else return .boolean false
    | .binary _ .or left right => do
      if ← truth left.offset (← Expr.eval rounds depth scope left) then return .boolean true
      else return .boolean (← truth right.offset (← Expr.eval rounds depth scope right))
    | .binary info op left right => do
      let v ← Expr.eval rounds depth scope left
      let w ← Expr.eval rounds depth scope right
      operate depth info.offset op v w
    | .access info name _ => return (← lookup scope name info.offset).2.value
    | .element info name index _ => do
      let (_, cell) ← lookup scope name info.offset
      let address ← addressOf name info.offset cell.value
      let length ← lengthOf address
      let i ← position length index.offset (← Expr.eval rounds depth scope index)
      return (← elements address).getD i .nil
    | .call info name arguments _ => do
      let r ← lookupRoutine scope name arguments.length info.offset
      let values ← arguments.mapM (Expr.eval rounds depth scope)
      call (Stmt.exec rounds depth) depth r values
    | .list _ elements => do alloc (← elements.mapM (Expr.eval rounds depth scope))
    | .unknown start node => throw (.fault ⟨.unknownExpression node, start⟩)

/-- Executes a statement in a scope and gives the value it returns from its function, if any. -/
def Stmt.exec (rounds : Nat) : Nat → Nat → Stmt → Run (Option Value)
  | 0, _, _ => throw .tooDeep
  | depth + 1, scope, stmt =>
    match stmt with
    | .expression _ value => do
      let _ ← Expr.eval rounds depth scope value
      return none
    | .declaration _ _ _ _ none => throw .missingSlot
    | .declaration _ name _ value (some slot) => do
      let v ← match value with
        | some e => Expr.eval rounds depth scope e
        | none => pure .nil
      define scope name ⟨slot.type, true, v⟩
      return none
    | .assignment offset receiver value => do
      assign (Expr.eval rounds depth scope) scope offset receiver value
      return none
    | .ifElse _ condition thenBody elseBody => do
      if ← truth condition.offset (← Expr.eval rounds depth scope condition) then
        block (Stmt.exec rounds depth) scope thenBody
      else block (Stmt.exec rounds depth) scope elseBody
    | .switch _ condition cases => do
      let v ← Expr.eval rounds depth scope condition
      block (Stmt.exec rounds depth) scope (← select (Expr.eval rounds depth scope) depth v cases)
    | .whileDo _ condition body =>
      loop (do truth condition.offset (← Expr.eval rounds depth scope condition))
        (block (Stmt.exec rounds depth) scope body) rounds
    | .ret _ none => return some .nil
    | .ret _ (some value) => return some (← Expr.eval rounds depth scope value)
    | .unknown start node => throw (.fault ⟨.unknownStatement node, start⟩)

end

structure Limits where
  /-- How deep calls, expressions, blocks and lists may be nested. -/
  depth : Nat
  /-- How many rounds a loop may take. -/
  rounds : Nat

def Limits.standard : Limits := ⟨100000, Nat.pow 2 60⟩

def Expr.evalWithin (l : Limits) (scope : Nat) (e : Expr) : Run Value := e.eval l.rounds l.depth scope

def Stmt.execWithin (l : Limits) (scope : Nat) (stmt : Stmt) : Run (Option Value) :=
  stmt.exec l.rounds l.depth scope

namespace Program

def initGlobals (l : Limits) : List Global → Run Unit
  | [] => return ()
  | g :: rest => do
    match g.slot with
    | none => throw .missingSlot
    | some slot =>
      let v ← match g.value with
        | some e => e.evalWithin l Store.root
        | none => pure .nil
      define Store.root g.name ⟨slot.type, g.mutable, v⟩
      initGlobals l rest

def addFunctions (home : Nat) : List Function → Run Unit
  | [] => return ()
  | f :: rest => do
    match f.slot with
    | none => throw .missingSlot
    | some s =>
      defineRoutine home ⟨s, .block f.parameters f.body home⟩
      addFunctions home rest

/-- The globals in order, then the call of main. -/
def main (l : Limits) (p : Program) : Run Value := do
  initGlobals l p.globals
  addFunctions Store.root p.functions
  match (← get).scopes.findFunction? Store.root "main" 0 with
  | none => throw (.fault ⟨.noMain, none⟩)
  | some r => call (Stmt.execWithin l) l.depth r []

structure Report where
  output : String
  /-- What main returns, with its text. -/
  result : Except Stop (Value × String)

/-- How deep lists may be nested in what main returns: its text is made behind the run, where there
is less room. -/
def resultDepth : Nat := 498

/-- Runs a checked program. Going too deep is a fault while the program runs, and remains what it
is when the text of the result goes too deep. -/
def runWithin (l : Limits) (p : Program) : Report :=
  match (p.main l).run Store.initial with
  | (.ok v, s) =>
    ⟨s.output, match s.heap.text? resultDepth v with
      | some text => .ok (v, text)
      | none => .error .tooDeep⟩
  | (.error .tooDeep, s) => ⟨s.output, .error (.fault ⟨.callDepth, none⟩)⟩
  | (.error stop, s) => ⟨s.output, .error stop⟩

def run (p : Program) : Report := p.runWithin .standard

end Program

end PlcLang
