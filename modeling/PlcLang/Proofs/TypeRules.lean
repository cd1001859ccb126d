import Mathlib.Data.List.Forall2
import Mathlib.Data.Set.Insert
import Mathlib.Logic.Function.Basic
import PlcLang.Proofs.DecimalValue
import PlcLang.Tree

namespace PlcLang

structure Binding where
  type : Ty
  mutable : Bool
deriving DecidableEq

def Variable.binding (v : Variable) : Binding := ⟨v.type, v.mutable⟩

/-- The meaning of the names at a point of a program. -/
@[ext]
structure Env where
  vars : String → Option Binding
  /-- The names declared so far in the block around the point. -/
  own : Set String
  funs : String → Nat → Option Signature

namespace Env

def lookupIn (signatures : List Signature) (name : String) (arity : Nat) : Option Signature :=
  signatures.find? fun s => s.name = name ∧ s.arity = arity

def initial : Env := ⟨fun _ => none, ∅, lookupIn [.print]⟩

/-- A block may declare every name anew. -/
def enter (Γ : Env) : Env := { Γ with own := ∅ }

def declare (Γ : Env) (name : String) (b : Binding) : Env :=
  { Γ with vars := Function.update Γ.vars name (some b), own := insert name Γ.own }

def withParameters (Γ : Env) (parameters : List (String × Ty)) : Env :=
  parameters.foldl (fun Γ p => Γ.declare p.1 ⟨p.2, true⟩) Γ

def withFunctions (Γ : Env) (signatures : List Signature) : Env :=
  { Γ with funs := lookupIn (.print :: signatures) }

end Env

/-- What the slots of a tree have to hold. -/
structure Slots where
  type : Option Ty → Ty → Prop
  symbol : Option Variable → String → Binding → Prop
  callee : Option Signature → Signature → Prop
  declared : Option Signature → Signature → Prop

namespace Slots

/-- A tree as it is written: its slots do not matter. -/
def blank : Slots := ⟨fun _ _ => True, fun _ _ _ => True, fun _ _ => True, fun _ _ => True⟩

/-- A checked tree: each slot holds what the rules say, and all types are among the given ones. -/
def filled (allowed : Ty → Prop) : Slots where
  type slot T := slot = some T ∧ allowed T
  symbol slot name b :=
    (∃ v, slot = some v ∧ v.name = name ∧ v.javaName = name ∧ v.binding = b) ∧ allowed b.type
  callee slot s := slot = some s ∧ allowed s.returns
  declared slot s := slot = some s ∧ (∀ T ∈ s.parameters, allowed T) ∧ allowed s.returns

end Slots

/-- Where a value of the first type is expected, one of the second may be stored. -/
inductive Ty.Accepts : Ty → Ty → Prop
  | same (T : Ty) : Accepts T T
  | any {T : Ty} : T ∈ [boolean, character, decimal, integer, string] → Accepts any T
  | comparable {T : Ty} : T ∈ [character, decimal, integer, string] → Accepts comparable T

inductive Literal.HasType : Literal → Ty → Prop
  | nil : HasType nil .nil
  | boolean (b : Bool) : HasType (boolean b) .boolean
  | integer {n : Int} : -2147483648 ≤ n → n ≤ 2147483647 → HasType (integer n) .integer
  | decimal {d : Decimal} : |d.value| < 2 ^ 1024 - 2 ^ 970 → HasType (decimal d) .decimal
  | character (text : String) : HasType (character text) .character
  | string (text : String) : HasType (string text) .string

/-- The types of the left operand, the right operand and the result. -/
inductive BinOp.HasType : BinOp → Ty → Ty → Ty → Prop
  | logical {op : BinOp} : op ∈ [and, or] → HasType op .boolean .boolean .boolean
  | order {op : BinOp} {T : Ty} : op ∈ [lt, gt] → T ∈ [.integer, .decimal, .character, .string] →
      HasType op T T .boolean
  | equality {op : BinOp} {T : Ty} : op ∈ [eq, ne] → HasType op T T .boolean
  | concatenation {L R : Ty} : L = .string ∨ R = .string → HasType add L R .string
  | arithmetic {op : BinOp} {T : Ty} : op ∈ [add, sub, mul, div] → T ∈ [.integer, .decimal] →
      HasType op T T T
  | power : HasType pow .integer .integer .integer

inductive Expr.HasType (σ : Slots) (Γ : Env) : Expr → Ty → Prop
  | literal {info : Info} {value : Literal} {T : Ty} :
      value.HasType T → σ.type info.type T → HasType σ Γ (literal info value) T
  | group {info inner : Info} {op : BinOp} {left right : Expr} {T : Ty} :
      HasType σ Γ (binary inner op left right) T → σ.type info.type T →
      HasType σ Γ (group info (binary inner op left right)) T
  | binary {info : Info} {op : BinOp} {left right : Expr} {L R T : Ty} :
      HasType σ Γ left L → HasType σ Γ right R → op.HasType L R T → σ.type info.type T →
      HasType σ Γ (binary info op left right) T
  | access {info : Info} {name : String} {slot : Option Variable} {b : Binding} :
      Γ.vars name = some b → σ.type info.type b.type → σ.symbol slot name b →
      HasType σ Γ (access info name slot) b.type
  | element {info : Info} {name : String} {index : Expr} {slot : Option Variable} {b : Binding} :
      Γ.vars name = some b → HasType σ Γ index .integer → σ.type info.type b.type →
      σ.symbol slot name b → HasType σ Γ (element info name index slot) b.type
  | call {info : Info} {name : String} {arguments : List Expr} {slot : Option Signature}
      {s : Signature} {types : List Ty} :
      Γ.funs name arguments.length = some s → List.Forall₂ Ty.Accepts s.parameters types →
      arguments.length = types.length → (∀ p ∈ arguments.zip types, HasType σ Γ p.1 p.2) →
      σ.type info.type s.returns → σ.callee slot s →
      HasType σ Γ (call info name arguments slot) s.returns
  | list {info : Info} {elements : List Expr} {T : Ty} :
      elements ≠ [] → (∀ e ∈ elements, HasType σ Γ e T) → σ.type info.type T →
      HasType σ Γ (list info elements) T

namespace Stmt

mutual

/-- A statement of a function that returns `ret`, with the meaning of the names before it and
after it. -/
inductive Typed (σ : Slots) (ret : Ty) : Env → Stmt → Env → Prop
  | expression {Γ : Env} {offset : Nat} {info : Info} {name : String} {arguments : List Expr}
      {slot : Option Signature} {T : Ty} :
      Expr.HasType σ Γ (.call info name arguments slot) T →
      Typed σ ret Γ (expression offset (.call info name arguments slot)) Γ
  | declarationOfType {Γ : Env} {offset : Nat} {name : String} {slot : Option Variable} {T : Ty} :
      name ∉ Γ.own → σ.symbol slot name ⟨T, true⟩ →
      Typed σ ret Γ (declaration offset name (some T.name) none slot) (Γ.declare name ⟨T, true⟩)
  | declarationOfValue {Γ : Env} {offset : Nat} {name : String} {value : Expr}
      {slot : Option Variable} {T : Ty} :
      Expr.HasType σ Γ value T → name ∉ Γ.own → σ.symbol slot name ⟨T, true⟩ →
      Typed σ ret Γ (declaration offset name none (some value) slot) (Γ.declare name ⟨T, true⟩)
  | declarationOfBoth {Γ : Env} {offset : Nat} {name : String} {value : Expr}
      {slot : Option Variable} {T S : Ty} :
      Expr.HasType σ Γ value S → T.Accepts S → name ∉ Γ.own → σ.symbol slot name ⟨T, true⟩ →
      Typed σ ret Γ (declaration offset name (some T.name) (some value) slot)
        (Γ.declare name ⟨T, true⟩)
  | assignment {Γ : Env} {offset : Nat} {info : Info} {name : String} {slot : Option Variable}
      {value : Expr} {T S : Ty} :
      Expr.HasType σ Γ (.access info name slot) T → Γ.vars name = some ⟨T, true⟩ →
      Expr.HasType σ Γ value S → T.Accepts S →
      Typed σ ret Γ (assignment offset (.access info name slot) value) Γ
  | elementAssignment {Γ : Env} {offset : Nat} {info : Info} {name : String} {index : Expr}
      {slot : Option Variable} {value : Expr} {T S : Ty} :
      Expr.HasType σ Γ (.element info name index slot) T → Γ.vars name = some ⟨T, true⟩ →
      Expr.HasType σ Γ value S → T.Accepts S →
      Typed σ ret Γ (assignment offset (.element info name index slot) value) Γ
  | ifElse {Γ : Env} {offset : Nat} {condition : Expr} {thenBody elseBody : List Stmt} :
      Expr.HasType σ Γ condition .boolean → thenBody ≠ [] → BlockTyped σ ret Γ.enter thenBody →
      BlockTyped σ ret Γ.enter elseBody →
      Typed σ ret Γ (ifElse offset condition thenBody elseBody) Γ
  | switch {Γ : Env} {offset : Nat} {condition : Expr} {cases : List Case} {T : Ty} {last : Case} :
      Expr.HasType σ Γ condition T →
      (∀ c ∈ cases, ∀ e, c.value = some e → Expr.HasType σ Γ e T) →
      (∀ c ∈ cases, BlockTyped σ ret Γ.enter c.body) →
      cases.getLast? = some last → last.value = none →
      Typed σ ret Γ (switch offset condition cases) Γ
  | whileDo {Γ : Env} {offset : Nat} {condition : Expr} {body : List Stmt} :
      Expr.HasType σ Γ condition .boolean → BlockTyped σ ret Γ.enter body →
      Typed σ ret Γ (whileDo offset condition body) Γ
  | bareReturn {Γ : Env} {offset : Nat} : ret.Accepts .nil → Typed σ ret Γ (Stmt.ret offset none) Γ
  | valueReturn {Γ : Env} {offset : Nat} {value : Expr} {S : Ty} :
      Expr.HasType σ Γ value S → ret.Accepts S → Typed σ ret Γ (Stmt.ret offset (some value)) Γ

inductive BlockTyped (σ : Slots) (ret : Ty) : Env → List Stmt → Prop
  | nil {Γ : Env} : BlockTyped σ ret Γ []
  | cons {Γ Δ : Env} {stmt : Stmt} {rest : List Stmt} :
      Typed σ ret Γ stmt Δ → BlockTyped σ ret Δ rest → BlockTyped σ ret Γ (stmt :: rest)

end

end Stmt

def Global.Typed (σ : Slots) (Γ : Env) (g : Global) (T : Ty) : Prop :=
  T.name = g.typeName ∧
  (∀ e, g.value = some e → ∃ S, Expr.HasType σ Γ e S ∧ T.Accepts S) ∧
  g.name ∉ Γ.own ∧ σ.symbol g.slot g.name ⟨T, g.mutable⟩

inductive Global.ListTyped (σ : Slots) : Env → List Global → Env → Prop
  | nil {Γ : Env} : ListTyped σ Γ [] Γ
  | cons {Γ Δ : Env} {g : Global} {rest : List Global} {T : Ty} :
      g.Typed σ Γ T → ListTyped σ (Γ.declare g.name ⟨T, g.mutable⟩) rest Δ →
      ListTyped σ Γ (g :: rest) Δ

namespace Function

/-- A function without a written return type returns nothing. -/
def Declares (f : Function) (s : Signature) : Prop :=
  s.name = f.name ∧ s.javaName = f.name ∧ s.parameters.map Ty.name = f.parameterTypes ∧
  (f.returnType = none ∧ s.returns = .nil ∨ f.returnType = some s.returns.name)

def BodyTyped (σ : Slots) (Γ : Env) (f : Function) (s : Signature) : Prop :=
  ((f.parameters.zip s.parameters).map Prod.fst).Nodup ∧
  Stmt.BlockTyped σ s.returns (Γ.enter.withParameters (f.parameters.zip s.parameters)) f.body ∧
  σ.declared f.slot s

end Function

def Signature.key (s : Signature) : String × Nat := (s.name, s.arity)

namespace Program

/-- Globals see earlier globals and the function that prints; bodies see all globals and all
functions. -/
def Typed (σ : Slots) (p : Program) : Prop :=
  ∃ (Γ : Env) (signatures : List Signature),
    Global.ListTyped σ .initial p.globals Γ ∧
    List.Forall₂ Function.Declares p.functions signatures ∧
    ((Signature.print :: signatures).map Signature.key).Nodup ∧
    (∃ s ∈ signatures, s.name = "main" ∧ s.arity = 0 ∧ s.returns = .integer) ∧
    List.Forall₂ (Function.BodyTyped σ (Γ.withFunctions signatures)) p.functions signatures

def WellFormed (p : Program) : Prop := p.Typed .blank

end Program

mutual

def Stmt.typeNames : Stmt → List String
  | .declaration _ _ typeName _ _ => typeName.toList
  | .ifElse _ _ thenBody elseBody => Stmt.listTypeNames thenBody ++ Stmt.listTypeNames elseBody
  | .switch _ _ cases => Case.listTypeNames cases
  | .whileDo _ _ body => Stmt.listTypeNames body
  | _ => []

def Stmt.listTypeNames : List Stmt → List String
  | [] => []
  | stmt :: rest => stmt.typeNames ++ Stmt.listTypeNames rest

def Case.listTypeNames : List Case → List String
  | [] => []
  | .mk _ _ body :: rest => Stmt.listTypeNames body ++ Case.listTypeNames rest

end

def Function.typeNames (f : Function) : List String :=
  f.parameterTypes ++ f.returnType.toList ++ Stmt.listTypeNames f.body

/-- The type names written in a program, of globals, parameters, results and LET statements. -/
def Program.typeNames (p : Program) : List String :=
  p.globals.map Global.typeName ++ p.functions.flatMap Function.typeNames

end PlcLang
