import PlcLang.Pipeline

namespace PlcLang

structure Session where
  context : Context
  store : Store
  /-- The scopes of the frames, innermost first. -/
  scopes : List Nat

inductive SessionError
  | source (e : SourceError)
  | stop (s : Stop)
  | java (f : JavaFailure)

abbrev Session.Step (α : Type) := ExceptT SessionError (StateM Session) α

namespace Session

def initial : Session := ⟨.outermost, .initial, [Store.root]⟩

def scope (s : Session) : Nat := s.scopes.headD Store.root

def depth (s : Session) : Nat := s.scopes.length

def takeOutput (s : Session) : String × Session :=
  (s.store.output, { s with store := { s.store with output := "" } })

def push (s : Session) : Session :=
  ⟨s.context.push, { s.store with scopes := s.store.scopes.push (some s.scope) },
    s.store.scopes.nodes.size :: s.scopes⟩

/-- Drops the innermost frame, unless it is the last. -/
def pop (s : Session) : Session :=
  match s.scopes with
  | _ :: outer :: rest =>
    { s with context := { s.context with frames := s.context.frames.tail }, scopes := outer :: rest }
  | _ => s

def liftSource {α : Type} : Source α → Step α
  | .ok a => return a
  | .error e => throw (.source e)

def liftCheck {α : Type} : Check α → Step α
  | .ok a => return a
  | .error v => throw (.source (.check v))

def liftJava {α : Type} : Java.Result α → Step α
  | .ok a => return a
  | .error f => throw (.java f)

/-- Runs on the session's store, whatever becomes of the run. -/
def liftRun {α : Type} (r : Run α) : Step α := fun s =>
  match r.run s.store with
  | (.ok a, store) => (.ok a, { s with store })
  | (.error e, store) => (.error (.stop e), { s with store })

/-- Binds a variable on both sides of the innermost frame, without any check. -/
def define (name : String) (type : Ty) (mutable : Bool) (value : Value) : Step Unit := do
  modify fun s => { s with context := (s.context.putVariable name type mutable).2 }
  liftRun (Run.define (← get).scope name ⟨type, mutable, value⟩)

/-- Declares a function and, once its body is checked, binds it. -/
def addFunction (f : Function) : Step Signature := do
  let (s, declared) ← liftCheck (f.declare (← get).context)
  modify fun session => { session with context := declared }
  let (f, context) ← liftCheck (f.checkBody checkDepth declared s)
  modify fun session => { session with context }
  let home := (← get).scope
  liftRun (Run.defineRoutine home ⟨s, .block f.parameters f.body home⟩)
  return s

/-- Checks statements in the innermost frame. What those before a violation declare stays. -/
def check (returns : Ty) (stmts : List Stmt) : Step (List Stmt) := fun s =>
  match Stmt.checkEach (Stmt.check returns checkDepth) s.context [] stmts with
  | (context, .ok stmts) => (.ok stmts, { s with context })
  | (context, .error v) => (.error (.source (.check v)), { s with context })

/-- Executes statements in the innermost scope, checked or not. -/
def exec (stmts : List Stmt) : Step (Option Value) := do
  let scope := (← get).scope
  liftRun (Run.inOrder (Stmt.execWithin .standard scope) stmts)

def step (returns : Ty) (stmts : List Stmt) : Step (Option Value) := do
  exec (← check returns stmts)

def typeOf (e : Expr) : Step Ty := do
  return (← liftCheck (e.check (← get).context checkDepth)).1

def eval (e : Expr) : Step Value := do
  let scope := (← get).scope
  liftRun (e.evalWithin .standard scope)

def java (e : Expr) : Step String := do
  let (_, e) ← liftCheck (e.check (← get).context checkDepth)
  liftJava e.java

/-- The Java lines of statements, checked or not. -/
def lines (stmts : List Stmt) : Step (List String) := liftJava (Stmt.javaEach 0 stmts)

def text (v : Value) : Step String := liftRun (Run.text Limits.standard.depth v)

/-- The variables of each frame, outermost frame first, in the order of their names. -/
def cells (s : Session) : List (List (String × Cell)) :=
  s.scopes.reverse.map fun scope =>
    ((s.store.scopes.frame? scope).map (·.vars)).getD []
      |>.mergeSort fun a b => a.1 ≤ b.1

end Session

end PlcLang
