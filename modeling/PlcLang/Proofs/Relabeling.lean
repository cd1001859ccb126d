import Mathlib.Data.List.Forall2
import PlcLang.Tree

namespace PlcLang

structure Relabeling where
  place : Nat → Nat
  number : Nat → Nat
  /-- A node that has no offset counts as one at the start. -/
  place_zero : place 0 = 0

namespace Relabeling

def id : Relabeling := ⟨fun n => n, fun n => n, rfl⟩

def unplaced : Relabeling := ⟨fun _ => 0, fun n => n, rfl⟩

/-- Forgets all numbers; a variable is then its name, its type and whether it is mutable. -/
def unnumbered : Relabeling := ⟨fun n => n, fun _ => 0, rfl⟩

/-- The new numbers with the old offsets. -/
def renumbered (ρ : Relabeling) : Relabeling := ⟨fun n => n, ρ.number, rfl⟩

end Relabeling

section Relabel

variable (ρ : Relabeling)

def Variable.relabel (v : Variable) : Variable := { v with id := ρ.number v.id }

def Info.relabel (info : Info) : Info := { info with offset := ρ.place info.offset }

mutual

def Expr.relabel : Expr → Expr
  | .literal info value => .literal (info.relabel ρ) value
  | .group info inner => .group (info.relabel ρ) (Expr.relabel inner)
  | .binary info op left right =>
    .binary (info.relabel ρ) op (Expr.relabel left) (Expr.relabel right)
  | .access info name slot => .access (info.relabel ρ) name (slot.map (Variable.relabel ρ))
  | .element info name index slot =>
    .element (info.relabel ρ) name (Expr.relabel index) (slot.map (Variable.relabel ρ))
  | .call info name arguments slot =>
    .call (info.relabel ρ) name (Expr.relabelEach arguments) slot
  | .list info elements => .list (info.relabel ρ) (Expr.relabelEach elements)
  | .unknown start node => .unknown (start.map ρ.place) node

def Expr.relabelEach : List Expr → List Expr
  | [] => []
  | e :: rest => Expr.relabel e :: Expr.relabelEach rest

end

mutual

def Stmt.relabel : Stmt → Stmt
  | .expression offset value => .expression (ρ.place offset) (value.relabel ρ)
  | .declaration offset name typeName value slot =>
    .declaration (ρ.place offset) name typeName (value.map (Expr.relabel ρ))
      (slot.map (Variable.relabel ρ))
  | .assignment offset receiver value =>
    .assignment (ρ.place offset) (receiver.relabel ρ) (value.relabel ρ)
  | .ifElse offset condition thenBody elseBody =>
    .ifElse (ρ.place offset) (condition.relabel ρ) (Stmt.relabelEach thenBody)
      (Stmt.relabelEach elseBody)
  | .switch offset condition cases =>
    .switch (ρ.place offset) (condition.relabel ρ) (Case.relabelEach cases)
  | .whileDo offset condition body =>
    .whileDo (ρ.place offset) (condition.relabel ρ) (Stmt.relabelEach body)
  | .ret offset value => .ret (ρ.place offset) (value.map (Expr.relabel ρ))
  | .unknown start node => .unknown (start.map ρ.place) node

def Stmt.relabelEach : List Stmt → List Stmt
  | [] => []
  | x :: rest => Stmt.relabel x :: Stmt.relabelEach rest

def Case.relabel : Case → Case
  | .mk offset value body =>
    .mk (ρ.place offset) (value.map (Expr.relabel ρ)) (Stmt.relabelEach body)

def Case.relabelEach : List Case → List Case
  | [] => []
  | c :: rest => Case.relabel c :: Case.relabelEach rest

end

def Global.relabel (g : Global) : Global :=
  { g with
    offset := ρ.place g.offset
    value := g.value.map (Expr.relabel ρ)
    slot := g.slot.map (Variable.relabel ρ) }

def Function.relabel (f : Function) : Function :=
  { f with
    offset := ρ.place f.offset
    body := f.body.map (Stmt.relabel ρ) }

def Program.relabel (p : Program) : Program :=
  ⟨p.globals.map (Global.relabel ρ), p.functions.map (Function.relabel ρ)⟩

@[simp]
theorem Expr.relabelEach_eq_map (es : List Expr) : relabelEach ρ es = es.map (relabel ρ) := by
  induction es with
  | nil => rw [relabelEach, List.map_nil]
  | cons e es ih => rw [relabelEach, ih, List.map_cons]

@[simp]
theorem Stmt.relabelEach_eq_map (xs : List Stmt) : relabelEach ρ xs = xs.map (relabel ρ) := by
  induction xs with
  | nil => rw [relabelEach, List.map_nil]
  | cons x xs ih => rw [relabelEach, ih, List.map_cons]

@[simp]
theorem Case.relabelEach_eq_map (cs : List Case) : relabelEach ρ cs = cs.map (relabel ρ) := by
  induction cs with
  | nil => rw [relabelEach, List.map_nil]
  | cons c cs ih => rw [relabelEach, ih, List.map_cons]

namespace Expr

theorem offset_relabel (e : Expr) : (e.relabel ρ).offset = ρ.place e.offset := by
  cases e with
  | unknown start node =>
      cases start with
      | none => exact ρ.place_zero.symm
      | some n => rfl
  | _ => rfl

end Expr

end Relabel

section

variable {α β γ δ ε ε' : Type}

/-- Outcomes of one kind, with related values or related errors. -/
inductive Matched (F : ε → ε' → Prop) (R : α → β → Prop) : Except ε α → Except ε' β → Prop
  | ok {a : α} {b : β} (h : R a b) : Matched F R (.ok a) (.ok b)
  | error {e : ε} {e' : ε'} (h : F e e') : Matched F R (.error e) (.error e')

namespace Matched

variable {F : ε → ε' → Prop} {R : α → β → Prop} {S : γ → δ → Prop}
variable {x : Except ε α} {y : Except ε' β}

theorem bind {f : α → Except ε γ} {g : β → Except ε' δ} (h : Matched F R x y)
    (hfg : ∀ a b, R a b → Matched F S (f a) (g b)) : Matched F S (x >>= f) (y >>= g) := by
  cases h with
  | ok h => exact hfg _ _ h
  | error h => exact .error h

theorem imp {G : ε → ε' → Prop} {S : α → β → Prop} (h : Matched F R x y)
    (hFG : ∀ e e', F e e' → G e e') (hRS : ∀ a b, R a b → S a b) : Matched G S x y := by
  cases h with
  | ok h => exact .ok (hRS _ _ h)
  | error h => exact .error (hFG _ _ h)

theorem with_eq (h : Matched F R x y) :
    Matched F (fun a b => R a b ∧ x = .ok a ∧ y = .ok b) x y := by
  cases h with
  | ok h => exact .ok ⟨h, rfl, rfl⟩
  | error h => exact .error h

theorem join {ε'' : Type} {F' : ε'' → ε' → Prop} {R' : γ → β → Prop} {z : Except ε'' γ}
    (h : Matched F R x y) (h' : Matched F' R' z y) :
    Matched (fun e e' => ∃ w, F e w ∧ F' e' w) (fun a b => ∃ c, R a c ∧ R' b c) x z := by
  cases h with
  | ok h =>
      cases h' with
      | ok h' => exact .ok ⟨_, h, h'⟩
  | error h =>
      cases h' with
      | error h' => exact .error ⟨_, h, h'⟩

theorem mapError {φ φ' : Type} {G : φ → φ' → Prop} {f : ε → φ} {g : ε' → φ'} (h : Matched F R x y)
    (hFG : ∀ e e', F e e' → G (f e) (g e')) : Matched G R (x.mapError f) (y.mapError g) := by
  cases h with
  | ok h => exact .ok h
  | error h => exact .error (hFG _ _ h)

theorem map {f : α → γ} {g : β → δ} (h : Matched F R x y) (hfg : ∀ a b, R a b → S (f a) (g b)) :
    Matched F S (x.map f) (y.map g) := by
  cases h with
  | ok h => exact .ok (hfg _ _ h)
  | error h => exact .error h

theorem mapM {f : α → Except ε γ} {g : β → Except ε' δ} {as : List α} {bs : List β}
    (h : List.Forall₂ R as bs) (hfg : ∀ a b, R a b → Matched F S (f a) (g b)) :
    Matched F (List.Forall₂ S) (as.mapM f) (bs.mapM g) := by
  induction h with
  | nil => exact .ok .nil
  | cons hab _ ih =>
      rw [List.mapM_cons, List.mapM_cons]
      refine (hfg _ _ hab).bind fun _ _ hcd => ih.bind fun _ _ hrest => ?_
      exact .ok (.cons hcd hrest)

end Matched

theorem map_eq_map_of_forall₂ {f : α → γ} {g : β → γ} {as : List α} {bs : List β}
    (h : List.Forall₂ (fun a b => g b = f a) as bs) : bs.map g = as.map f := by
  induction h with
  | nil => rfl
  | cons hab _ ih => rw [List.map_cons, List.map_cons, hab, ih]

theorem forall₂_map_right (f : α → β) (as : List α) :
    List.Forall₂ (fun a b => b = f a) as (as.map f) := by
  induction as with
  | nil => exact .nil
  | cons a as ih => exact .cons rfl ih

theorem exists_of_forall₂ {R : α → β → Prop} {as : List α} {bs : List β}
    (h : List.Forall₂ R as bs) : ∀ a ∈ as, ∃ b, R a b := by
  induction h with
  | nil => exact nofun
  | cons hab _ ih => exact List.forall_mem_cons.mpr ⟨⟨_, hab⟩, ih⟩

end

end PlcLang
