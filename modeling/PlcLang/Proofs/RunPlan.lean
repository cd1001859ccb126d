import Mathlib.Data.Prod.Lex
import PlcLang.Proofs.Plan

namespace PlcLang

open Plan

def Literal.toValue : Literal → Value
  | nil => .nil
  | boolean b => .boolean b
  | integer n => .integer n
  | decimal d => .decimal d
  | character s => .character s
  | string s => .string s

def Run.lookupMain : Run Routine := fun s =>
  match s.scopes.findFunction? Store.root "main" 0 with
  | some r => (.ok r, s)
  | none => (.error (.fault ⟨.noMain, none⟩), s)

theorem Run.main_eq_lookup (k : Routine → Run Value) :
    (do
      match (← get).scopes.findFunction? Store.root "main" 0 with
      | none => throw (.fault ⟨.noMain, none⟩)
      | some r => k r) = lookupMain >>= k := by
  funext s
  simp only [Bind.bind, ExceptT.bind, ExceptT.mk, StateT.bind, lookupMain]
  change (match s.scopes.findFunction? Store.root "main" 0 with
    | none => throw (.fault ⟨.noMain, none⟩)
    | some r => k r : Run Value) s = _
  cases s.scopes.findFunction? Store.root "main" 0 <;> rfl

def Run.requireMutable (cell : Cell) (name : String) (offset : Nat) : Run Unit :=
  if !cell.mutable then fault (.immutable name) offset else pure ()

namespace Point

def run (rounds : Nat) : (pt : Point) → Run pt.Result
  | expr depth scope e => e.eval rounds depth scope
  | exprs depth scope es => es.mapM (Expr.eval rounds depth scope)
  | stmt depth scope x => x.exec rounds depth scope
  | stmts depth scope xs => Run.inOrder (Stmt.exec rounds depth scope) xs
  | loop n depth scope condition body =>
    Run.loop (do Run.truth condition.offset (← condition.eval rounds depth scope))
      (Run.block (Stmt.exec rounds depth) scope body) n
  | select depth scope v cases => Run.select (Expr.eval rounds depth scope) depth v cases
  | call depth r values => Run.call (Stmt.exec rounds depth) depth r values
  | globals depth gs => Program.initGlobals ⟨depth, rounds⟩ gs
  | program depth p => p.main ⟨depth, rounds⟩

section

variable (depth scope : Nat)

def eval (e : Expr) : Plan Value := await (expr depth scope e)
def evalAll (es : List Expr) : Plan (List Value) := await (exprs depth scope es)
def exec (x : Stmt) : Plan (Option Value) := await (stmt depth scope x)
def execAll (xs : List Stmt) : Plan (Option Value) := await (stmts depth scope xs)
def choose (v : Value) (cases : List Case) : Plan (List Stmt) := await (select depth scope v cases)
def invoke (r : Routine) (values : List Value) : Plan Value := await (call depth r values)
def initAll (gs : List Global) : Plan Unit := await (globals depth gs)

def again (n : Nat) (condition : Expr) (body : List Stmt) : Plan (Option Value) :=
  await (loop n depth scope condition body)

end

def exprPlan (depth scope : Nat) : Expr → Plan Value
  | .literal _ value => return value.toValue
  | .group _ inner => eval depth scope inner
  | .binary _ .and left right => do
    let v ← eval depth scope left
    if ← atomic (Run.truth left.offset v) then
      let w ← eval depth scope right
      return .boolean (← atomic (Run.truth right.offset w))
    else return .boolean false
  | .binary _ .or left right => do
    let v ← eval depth scope left
    if ← atomic (Run.truth left.offset v) then return .boolean true
    else
      let w ← eval depth scope right
      return .boolean (← atomic (Run.truth right.offset w))
  | .binary info op left right => do
    let v ← eval depth scope left
    let w ← eval depth scope right
    atomic (Run.operate depth info.offset op v w)
  | .access info name _ => return (← atomic (Run.lookup scope name info.offset)).2.value
  | .element info name index _ => do
    let found ← atomic (Run.lookup scope name info.offset)
    let address ← atomic (Run.addressOf name info.offset found.2.value)
    let length ← atomic (Run.lengthOf address)
    let v ← eval depth scope index
    let i ← atomic (Run.position length index.offset v)
    return (← atomic (Run.elements address)).getD i .nil
  | .call info name arguments _ => do
    let r ← atomic (Run.lookupRoutine scope name arguments.length info.offset)
    let values ← evalAll depth scope arguments
    invoke depth r values
  | .list _ elements => do
    let values ← evalAll depth scope elements
    atomic (Run.alloc values)
  | .unknown start node => .stop (.fault ⟨.unknownExpression node, start⟩)

def blockPlan (depth parent : Nat) (body : List Stmt) : Plan (Option Value) := do
  let scope ← atomic (Run.openScope parent)
  execAll depth scope body

def stmtPlan (rounds depth scope : Nat) : Stmt → Plan (Option Value)
  | .expression _ value => do
    let _ ← eval depth scope value
    return none
  | .declaration _ _ _ _ none => .stop .missingSlot
  | .declaration _ name _ none (some slot) => do
    atomic (Run.define scope name ⟨slot.type, true, .nil⟩)
    return none
  | .declaration _ name _ (some value) (some slot) => do
    let v ← eval depth scope value
    atomic (Run.define scope name ⟨slot.type, true, v⟩)
    return none
  | .assignment offset (.access info name _) value => do
    let found ← atomic (Run.lookup scope name info.offset)
    atomic (Run.requireMutable found.2 name offset)
    let v ← eval depth scope value
    atomic (Run.define found.1 name { found.2 with value := v })
    return none
  | .assignment offset (.element info name index _) value => do
    let found ← atomic (Run.lookup scope name info.offset)
    atomic (Run.requireMutable found.2 name offset)
    let address ← atomic (Run.addressOf name info.offset found.2.value)
    let length ← atomic (Run.lengthOf address)
    let v ← eval depth scope index
    let i ← atomic (Run.position length index.offset v)
    let w ← eval depth scope value
    atomic (Run.write address i w)
    return none
  | .assignment offset _ _ => .stop (.fault ⟨.notReceiver, some offset⟩)
  | .ifElse _ condition thenBody elseBody => do
    let v ← eval depth scope condition
    if ← atomic (Run.truth condition.offset v) then blockPlan depth scope thenBody
    else blockPlan depth scope elseBody
  | .switch _ condition cases => do
    let v ← eval depth scope condition
    let body ← choose depth scope v cases
    blockPlan depth scope body
  | .whileDo _ condition body => again depth scope rounds condition body
  | .ret _ none => return some .nil
  | .ret _ (some value) => return some (← eval depth scope value)
  | .unknown start node => .stop (.fault ⟨.unknownStatement node, start⟩)

def callPlan (depth : Nat) (r : Routine) (values : List Value) : Plan Value :=
  match r.body with
  | .print => do
    let text ← atomic (Run.text depth (values.headD .nil))
    atomic (Run.printLine text)
    return .nil
  | .block parameters statements home => do
    let scope ← atomic (Run.openScope home)
    atomic (Run.bindParameters scope parameters r.signature.parameters values)
    return Option.getD (← execAll depth scope statements) .nil

/-- What is done at a point, and which points it takes. -/
def plan (rounds : Nat) : (pt : Point) → Plan pt.Result
  | expr 0 _ _ => .stop .tooDeep
  | expr (depth + 1) scope e => exprPlan depth scope e
  | exprs _ _ [] => .done []
  | exprs depth scope (e :: es) => do
    let v ← eval depth scope e
    let vs ← evalAll depth scope es
    .done (v :: vs)
  | stmt 0 _ _ => .stop .tooDeep
  | stmt (depth + 1) scope x => stmtPlan rounds depth scope x
  | stmts _ _ [] => .done none
  | stmts depth scope (x :: xs) => do
    match ← exec depth scope x with
    | some v => .done (some v)
    | none => execAll depth scope xs
  | loop 0 _ _ _ _ => .stop .endless
  | loop (n + 1) depth scope condition body => do
    let v ← eval depth scope condition
    if ← atomic (Run.truth condition.offset v) then
      match ← blockPlan depth scope body with
      | some v => .done (some v)
      | none => again depth scope n condition body
    else .done none
  | select _ _ _ [] => .done []
  | select _ _ _ (.mk _ none body :: _) => .done body
  | select depth scope v (.mk _ (some e) body :: rest) => do
    let w ← eval depth scope e
    if ← atomic (Run.equal depth w v) then .done body else choose depth scope v rest
  | call depth r values => callPlan depth r values
  | globals _ [] => .done ()
  | globals depth (g :: rest) =>
    match g.slot, g.value with
    | none, _ => .stop .missingSlot
    | some slot, none => do
      atomic (Run.define Store.root g.name ⟨slot.type, g.mutable, .nil⟩)
      initAll depth rest
    | some slot, some e => do
      let v ← eval depth Store.root e
      atomic (Run.define Store.root g.name ⟨slot.type, g.mutable, v⟩)
      initAll depth rest
  | program depth p => do
    initAll depth p.globals
    atomic (Program.addFunctions Store.root p.functions)
    let r ← atomic Run.lookupMain
    invoke depth r []

variable (rounds : Nat)

section

variable (depth scope : Nat)

theorem follow_eval (e : Expr) :
    (eval depth scope e).follow (run rounds) = e.eval rounds depth scope := follow_await _

theorem follow_evalAll (es : List Expr) : (evalAll depth scope es).follow (run rounds) =
    es.mapM (Expr.eval rounds depth scope) := follow_await _

theorem follow_exec (x : Stmt) :
    (exec depth scope x).follow (run rounds) = x.exec rounds depth scope := follow_await _

theorem follow_execAll (xs : List Stmt) : (execAll depth scope xs).follow (run rounds) =
    Run.inOrder (Stmt.exec rounds depth scope) xs := follow_await _

theorem follow_again (n : Nat) (condition : Expr) (body : List Stmt) :
    (again depth scope n condition body).follow (run rounds) =
      run rounds (loop n depth scope condition body) := follow_await _

theorem follow_choose (v : Value) (cases : List Case) :
    (choose depth scope v cases).follow (run rounds) =
      Run.select (Expr.eval rounds depth scope) depth v cases := follow_await _

theorem follow_invoke (r : Routine) (values : List Value) :
    (invoke depth r values).follow (run rounds) =
      Run.call (Stmt.exec rounds depth) depth r values := follow_await _

theorem follow_initAll (gs : List Global) :
    (initAll depth gs).follow (run rounds) = Program.initGlobals ⟨depth, rounds⟩ gs :=
  follow_await _

end

theorem exprPlan_follow (depth scope : Nat) (e : Expr) :
    (exprPlan depth scope e).follow (run rounds) = e.eval rounds (depth + 1) scope := by
  cases e with
  | literal info value => cases value <;> rfl
  | group info inner => exact follow_await _
  | binary info op left right =>
      cases op with
      | and | or =>
          simp only [exprPlan, Expr.eval, follow_bind, follow_eval, follow_atomic, follow_ite,
            follow_pure]
      | _ => simp only [exprPlan, Expr.eval, follow_bind, follow_eval, follow_atomic]
  | access info name slot =>
      simp only [exprPlan, Expr.eval, follow_bind, follow_atomic, follow_pure]
  | element info name index slot =>
      simp only [exprPlan, Expr.eval, follow_bind, follow_atomic, follow_pure, follow_eval]
  | call info name arguments slot =>
      simp only [exprPlan, Expr.eval, follow_bind, follow_atomic, follow_evalAll, follow_invoke]
  | list info elements =>
      simp only [exprPlan, Expr.eval, follow_bind, follow_atomic, follow_evalAll]
  | unknown start node => rfl

theorem blockPlan_follow (depth parent : Nat) (body : List Stmt) :
    (blockPlan depth parent body).follow (run rounds) =
      Run.block (Stmt.exec rounds depth) parent body := by
  simp only [blockPlan, Run.block, follow_bind, follow_atomic, follow_execAll]

theorem stmtPlan_follow (depth scope : Nat) (x : Stmt) :
    (stmtPlan rounds depth scope x).follow (run rounds) = x.exec rounds (depth + 1) scope := by
  cases x with
  | expression offset value =>
      simp only [stmtPlan, Stmt.exec, follow_bind, follow_pure, follow_eval]
  | declaration offset name typeName value slot =>
      cases slot with
      | none => rfl
      | some slot =>
          cases value with
          | none => simp only [stmtPlan, Stmt.exec, follow_bind, follow_atomic, follow_pure, pure_bind]
          | some value =>
              simp only [stmtPlan, Stmt.exec, follow_bind, follow_atomic, follow_pure, follow_eval]
  | assignment offset receiver value =>
      cases receiver with
      | access info name slot | element info name index slot =>
          simp only [stmtPlan, Stmt.exec, Run.assign, Run.requireMutable, follow_bind,
            follow_atomic, follow_pure, follow_eval, bind_assoc]
          congr 1
          funext found
          cases found.2.mutable with
          | false => rfl
          | true => simp only [Bool.not_true, Bool.false_eq_true, if_false, pure_bind, bind_assoc]
      | _ => rfl
  | ifElse offset condition thenBody elseBody =>
      simp only [stmtPlan, Stmt.exec, follow_bind, follow_atomic, follow_eval, follow_ite,
        blockPlan_follow]
  | switch offset condition cases =>
      simp only [stmtPlan, Stmt.exec, follow_bind, follow_eval, follow_choose, blockPlan_follow]
  | whileDo offset condition body => exact follow_await _
  | ret offset value =>
      cases value with
      | none => rfl
      | some value => simp only [stmtPlan, Stmt.exec, follow_bind, follow_pure, follow_eval]
  | unknown start node => rfl

/-- What is run at a point is what its plan says. -/
theorem run_eq_follow (pt : Point) : pt.run rounds = (pt.plan rounds).follow (run rounds) := by
  cases pt with
  | expr depth scope e =>
      cases depth with
      | zero => rfl
      | succ depth => exact (exprPlan_follow rounds depth scope e).symm
  | exprs depth scope es =>
      cases es with
      | nil => rfl
      | cons e es =>
          simp only [run, plan, List.mapM_cons, follow_bind, follow_eval, follow_evalAll]
          rfl
  | stmt depth scope x =>
      cases depth with
      | zero => rfl
      | succ depth => exact (stmtPlan_follow rounds depth scope x).symm
  | stmts depth scope xs =>
      cases xs with
      | nil => rfl
      | cons x xs =>
          simp only [run, plan, Run.inOrder, follow_bind, follow_exec]
          congr 1
          funext r
          cases r with
          | none => exact (follow_execAll rounds depth scope xs).symm
          | some v => rfl
  | loop n depth scope condition body =>
      cases n with
      | zero => rfl
      | succ n =>
          simp only [run, plan, Run.loop, follow_bind, follow_eval, follow_atomic, follow_ite,
            blockPlan_follow, bind_assoc]
          congr 1
          funext v
          congr 1
          funext b
          congr 2
          funext r
          cases r with
          | none => exact (follow_again rounds depth scope n condition body).symm
          | some v => rfl
  | select depth scope v cases =>
      cases cases with
      | nil => rfl
      | cons c rest =>
          obtain ⟨offset, value, body⟩ := c
          cases value with
          | none => rfl
          | some e =>
              simp only [run, plan, Run.select, follow_bind, follow_eval, follow_choose,
                follow_atomic, follow_ite]
              rfl
  | call depth r values =>
      obtain ⟨signature, body⟩ := r
      cases body with
      | print | block =>
          simp only [run, plan, callPlan, Run.call, follow_bind, follow_execAll, follow_atomic,
            follow_pure]
  | globals depth gs =>
      cases gs with
      | nil => rfl
      | cons g rest =>
          obtain ⟨offset, name, typeName, mutable, value, slot⟩ := g
          cases slot with
          | none => rfl
          | some slot =>
              cases value with
              | none | some e =>
                  simp only [run, plan, Program.initGlobals, Expr.evalWithin, follow_bind,
                    follow_eval, follow_initAll, follow_atomic, pure_bind]
  | program depth p =>
      simp only [run, plan, Program.main, follow_bind, follow_initAll, follow_invoke, follow_atomic]
      congr 1
      funext _
      congr 1
      funext _
      exact Run.main_eq_lookup _

end Point

end PlcLang
