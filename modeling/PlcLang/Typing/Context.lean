import PlcLang.Scope
import PlcLang.Typing.Violation

namespace PlcLang

structure Context where
  /-- The frames around the point, innermost first. -/
  frames : List (Frame Variable Signature)
  /-- The number of the next variable to be declared. -/
  fresh : Nat

abbrev Check := Except Violation

namespace Context

def outermost : Context :=
  ⟨[Frame.putFunction {} "print" 1 Signature.print], 0⟩

def push (ctx : Context) : Context := { ctx with frames := {} :: ctx.frames }

/-- Back outside of a block that ends in `inner`: only the numbers given out are kept. -/
def leave (ctx inner : Context) : Context := { ctx with fresh := inner.fresh }

def findVariable? (ctx : Context) (name : String) : Option Variable := Scope.findVariable? ctx.frames name

def findFunction? (ctx : Context) (name : String) (arity : Nat) : Option Signature :=
  Scope.findFunction? ctx.frames name arity

def hasOverload (ctx : Context) (name : String) : Bool :=
  Scope.hasOverload ctx.frames name

def modifyInnermost (ctx : Context) (f : Frame Variable Signature → Frame Variable Signature) :
    Context :=
  { ctx with frames := match ctx.frames with
      | frame :: outer => f frame :: outer
      | [] => [] }

def ownsVariable (ctx : Context) (name : String) : Bool :=
  ctx.frames.head?.any (·.vars.has name)

def ownsFunction (ctx : Context) (name : String) (arity : Nat) : Bool :=
  ctx.frames.head?.any (·.funs.has (name, arity))

/-- A new variable in the innermost frame, in the place of one of its name. -/
def putVariable (ctx : Context) (name : String) (type : Ty) (mutable : Bool) :
    Variable × Context :=
  let v : Variable := ⟨ctx.fresh, name, name, type, mutable⟩
  (v, { ctx.modifyInnermost (·.putVariable name v) with fresh := ctx.fresh + 1 })

def putFunction (ctx : Context) (s : Signature) : Context :=
  ctx.modifyInnermost (·.putFunction s.name s.arity s)

def declare (ctx : Context) (name : String) (type : Ty) (mutable : Bool) (offset : Nat) :
    Check (Variable × Context) :=
  if ctx.ownsVariable name then throw ⟨.duplicateVariable name, some offset⟩
  else return ctx.putVariable name type mutable

end Context

end PlcLang
