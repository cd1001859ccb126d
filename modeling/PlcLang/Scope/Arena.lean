import PlcLang.Scope

namespace PlcLang

structure Arena.Node (ν φ : Type) where
  frame : Frame ν φ
  parent : Option Nat

structure Arena (ν φ : Type) where
  nodes : Array (Arena.Node ν φ) := #[]

namespace Arena

variable {ν φ : Type}

def push (a : Arena ν φ) (parent : Option Nat) : Arena ν φ := ⟨a.nodes.push ⟨{}, parent⟩⟩

def frame? (a : Arena ν φ) (scope : Nat) : Option (Frame ν φ) := (a.nodes[scope]?).map (·.frame)

def modifyFrame (a : Arena ν φ) (scope : Nat) (f : Frame ν φ → Frame ν φ) : Arena ν φ :=
  ⟨a.nodes.modify scope fun n => { n with frame := f n.frame }⟩

def putVariable (a : Arena ν φ) (scope : Nat) (name : String) (entry : ν) : Arena ν φ :=
  a.modifyFrame scope (·.putVariable name entry)

def putFunction (a : Arena ν φ) (scope : Nat) (name : String) (arity : Nat) (entry : φ) :
    Arena ν φ :=
  a.modifyFrame scope (·.putFunction name arity entry)

/-- The nearest answer that a frame gives on the way outward, over at most `n` scopes, with the
scope that gives it. -/
def searchFrom {α : Type} (a : Arena ν φ) (ask : Frame ν φ → Option α) :
    Nat → Nat → Option (Nat × α)
  | 0, _ => none
  | n + 1, scope =>
    match a.nodes[scope]? with
    | none => none
    | some node =>
      match ask node.frame with
      | some answer => some (scope, answer)
      | none =>
        match node.parent with
        | some parent => searchFrom a ask n parent
        | none => none

/-- Parents are older, so that the way outward passes no more scopes than the number says. -/
def search {α : Type} (a : Arena ν φ) (ask : Frame ν φ → Option α) (scope : Nat) :
    Option (Nat × α) :=
  a.searchFrom ask (scope + 1) scope

def findVariable? (a : Arena ν φ) (scope : Nat) (name : String) : Option (Nat × ν) :=
  a.search (·.findVariable? name) scope

def findFunction? (a : Arena ν φ) (scope : Nat) (name : String) (arity : Nat) : Option φ :=
  (a.search (·.findFunction? name arity) scope).map Prod.snd

def ownsVariable (a : Arena ν φ) (scope : Nat) (name : String) : Bool :=
  (a.frame? scope).any (·.vars.has name)

def ownsFunction (a : Arena ν φ) (scope : Nat) (name : String) (arity : Nat) : Bool :=
  (a.frame? scope).any (·.funs.has (name, arity))

def hasOverload (a : Arena ν φ) (scope : Nat) (name : String) : Bool :=
  (a.search (fun f => if f.hasOverload name then some () else none) scope).isSome

end Arena

end PlcLang
