import Mathlib.Data.List.Forall2
import Mathlib.Logic.Function.Basic
import PlcLang.Proofs.TreeNodes

namespace PlcLang

abbrev Symbols := String → Option Variable

/-- From here on the name of the symbol stands for it, and no longer for an outer one. -/
def Symbols.declare (ρ : Symbols) (v : Variable) : Symbols := Function.update ρ v.name (some v)

/-- Each variable in the expression has the symbol that its name stands for. -/
inductive Expr.Bound (ρ : Symbols) : Expr → Prop
  | literal {info : Info} {value : Literal} : Bound ρ (.literal info value)
  | group {info : Info} {inner : Expr} : Bound ρ inner → Bound ρ (.group info inner)
  | binary {info : Info} {op : BinOp} {left right : Expr} :
      Bound ρ left → Bound ρ right → Bound ρ (.binary info op left right)
  | access {info : Info} {name : String} {v : Variable} :
      ρ name = some v → Bound ρ (.access info name (some v))
  | element {info : Info} {name : String} {index : Expr} {v : Variable} :
      ρ name = some v → Bound ρ index → Bound ρ (.element info name index (some v))
  | call {info : Info} {name : String} {arguments : List Expr} {slot : Option Signature} :
      (∀ a ∈ arguments, Bound ρ a) → Bound ρ (.call info name arguments slot)
  | list {info : Info} {elements : List Expr} :
      (∀ a ∈ elements, Bound ρ a) → Bound ρ (.list info elements)

def Expr.OptionBound (ρ : Symbols) (value : Option Expr) : Prop := ∀ e, value = some e → e.Bound ρ

mutual

/-- The symbols before the statement, those that are created in it, and the symbols behind it. -/
inductive Stmt.Bound : Symbols → Stmt → List Variable → Symbols → Prop
  | expression {ρ : Symbols} {offset : Nat} {value : Expr} :
      value.Bound ρ → Bound ρ (.expression offset value) [] ρ
  | declaration {ρ : Symbols} {offset : Nat} {name : String} {typeName : Option String}
      {value : Option Expr} {v : Variable} : Expr.OptionBound ρ value → v.name = name →
      Bound ρ (.declaration offset name typeName value (some v)) [v] (ρ.declare v)
  | assignment {ρ : Symbols} {offset : Nat} {receiver value : Expr} :
      receiver.Bound ρ → value.Bound ρ → Bound ρ (.assignment offset receiver value) [] ρ
  | ifElse {ρ : Symbols} {offset : Nat} {condition : Expr} {thenBody elseBody : List Stmt}
      {vs ws : List Variable} :
      condition.Bound ρ → BlockBound ρ thenBody vs → BlockBound ρ elseBody ws →
      Bound ρ (.ifElse offset condition thenBody elseBody) (vs ++ ws) ρ
  | switch {ρ : Symbols} {offset : Nat} {condition : Expr} {cases : List Case}
      {vs : List Variable} : condition.Bound ρ → CasesBound ρ cases vs →
      Bound ρ (.switch offset condition cases) vs ρ
  | whileDo {ρ : Symbols} {offset : Nat} {condition : Expr} {body : List Stmt}
      {vs : List Variable} : condition.Bound ρ → BlockBound ρ body vs →
      Bound ρ (.whileDo offset condition body) vs ρ
  | ret {ρ : Symbols} {offset : Nat} {value : Option Expr} :
      Expr.OptionBound ρ value → Bound ρ (.ret offset value) [] ρ

/-- What a statement declares is visible in the statements after it, up to the end of the block. -/
inductive Stmt.BlockBound : Symbols → List Stmt → List Variable → Prop
  | nil {ρ : Symbols} : BlockBound ρ [] []
  | cons {ρ ρ' : Symbols} {x : Stmt} {rest : List Stmt} {vs ws : List Variable} :
      Stmt.Bound ρ x vs ρ' → BlockBound ρ' rest ws → BlockBound ρ (x :: rest) (vs ++ ws)

inductive Stmt.CasesBound : Symbols → List Case → List Variable → Prop
  | nil {ρ : Symbols} : CasesBound ρ [] []
  | cons {ρ : Symbols} {c : Case} {rest : List Case} {vs ws : List Variable} :
      Expr.OptionBound ρ c.value → Stmt.BlockBound ρ c.body vs → CasesBound ρ rest ws →
      CasesBound ρ (c :: rest) (vs ++ ws)

end

inductive Global.ListBound : Symbols → List Global → List Variable → Symbols → Prop
  | nil {ρ : Symbols} : ListBound ρ [] [] ρ
  | cons {ρ ρ' : Symbols} {g : Global} {rest : List Global} {v : Variable} {vs : List Variable} :
      Expr.OptionBound ρ g.value → g.slot = some v → v.name = g.name →
      ListBound (ρ.declare v) rest vs ρ' → ListBound ρ (g :: rest) (v :: vs) ρ'

/-- The parameters, which have no slots, have symbols `vs` in the block of the body. -/
def Function.Bound (ρ : Symbols) (f : Function) (created : List Variable) : Prop :=
  ∃ vs ws, created = vs ++ ws ∧
    vs.map (fun v => (v.name, v.type.name)) = f.parameters.zip f.parameterTypes ∧
    Stmt.BlockBound (vs.foldl Symbols.declare ρ) f.body ws

def Program.Bound (p : Program) (created : List Variable) : Prop :=
  ∃ (ρ : Symbols) (vs : List Variable) (wss : List (List Variable)),
    created = vs ++ wss.flatten ∧ Global.ListBound (fun _ => none) p.globals vs ρ ∧
    List.Forall₂ (Function.Bound ρ) p.functions wss

end PlcLang
