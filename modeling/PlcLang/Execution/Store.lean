import PlcLang.Scope.Arena
import PlcLang.Tree
import PlcLang.Value
import PlcLang.Execution.Fault

namespace PlcLang

structure Cell where
  type : Ty
  mutable : Bool
  value : Value

inductive Body
  | print
  /-- Parameters and statements, and the scope in which the function is defined. -/
  | block (parameters : List String) (statements : List Stmt) (home : Nat)

structure Routine where
  signature : Signature
  body : Body

structure Store where
  scopes : Arena Cell Routine
  heap : Heap
  output : String

namespace Store

def root : Nat := 0

def initial : Store :=
  ⟨(Arena.push {} none).putFunction root "print" 1 ⟨.print, .print⟩, {}, ""⟩

end Store

abbrev Run := ExceptT Stop (StateM Store)

namespace Run

variable {α : Type}

def fault (cause : FaultCause) (offset : Nat) : Run α := throw (.fault ⟨cause, some offset⟩)

def openScope (parent : Nat) : Run Nat := fun s =>
  (.ok s.scopes.nodes.size, { s with scopes := s.scopes.push (some parent) })

def define (scope : Nat) (name : String) (cell : Cell) : Run Unit := fun s =>
  (.ok (), { s with scopes := s.scopes.putVariable scope name cell })

def defineRoutine (scope : Nat) (r : Routine) : Run Unit := fun s =>
  (.ok (), { s with
    scopes := s.scopes.putFunction scope r.signature.name r.signature.arity r })

/-- The variable of that name and the scope it lives in. -/
def lookup (scope : Nat) (name : String) (offset : Nat) : Run (Nat × Cell) := fun s =>
  match s.scopes.findVariable? scope name with
  | some found => (.ok found, s)
  | none => fault (.unknownVariable name) offset s

def lookupRoutine (scope : Nat) (name : String) (arity offset : Nat) : Run Routine := fun s =>
  match s.scopes.findFunction? scope name arity with
  | some r => (.ok r, s)
  | none => fault (.unknownFunction name arity) offset s

def elements (address : Nat) : Run (Array Value) := fun s => (.ok (s.heap.elements address), s)

def lengthOf (address : Nat) : Run Nat := fun s => (.ok (s.heap.elements address).size, s)

def alloc (elements : List Value) : Run Value := fun s =>
  let (v, heap) := s.heap.alloc elements.toArray
  (.ok v, { s with heap })

def write (address index : Nat) (value : Value) : Run Unit := fun s =>
  (.ok (), { s with heap := s.heap.write address index value })

def text (depth : Nat) (value : Value) : Run String := fun s =>
  match s.heap.text? depth value with
  | some text => (.ok text, s)
  | none => (.error .tooDeep, s)

def equal (depth : Nat) (v w : Value) : Run Bool := fun s =>
  match s.heap.equal? depth v w with
  | some b => (.ok b, s)
  | none => (.error .tooDeep, s)

def printLine (text : String) : Run Unit := fun s =>
  (.ok (), { s with output := s.output ++ text ++ "\n" })

end Run

end PlcLang
