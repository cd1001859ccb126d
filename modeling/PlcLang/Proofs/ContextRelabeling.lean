import PlcLang.Proofs.CheckerContext
import PlcLang.Proofs.Relabeling

namespace PlcLang

def Violation.relabel (ρ : Relabeling) (v : Violation) : Violation :=
  ⟨v.cause, v.offset.map ρ.place⟩

structure Frame.Alike (ρ : Relabeling) (f f' : Frame Variable Signature) : Prop where
  vars : ∀ name, (f'.findVariable? name).map (Variable.relabel ρ) =
    (f.findVariable? name).map (Variable.relabel ρ)
  funs : f'.findFunction? = f.findFunction?

structure Context.Alike (ρ : Relabeling) (ctx ctx' : Context) : Prop where
  frames : List.Forall₂ (Frame.Alike ρ) ctx.frames ctx'.frames
  number : ∀ n, ρ.number (ctx'.fresh + n) = ρ.number (ctx.fresh + n)

namespace Check

variable {α β γ δ : Type}

def Alike (ρ : Relabeling) (R : α → β → Prop) : Check α → Check β → Prop :=
  Matched (fun v v' => v' = v.relabel ρ) R

variable {ρ : Relabeling} {R : α → β → Prop} {S : γ → δ → Prop}

namespace Alike

theorem pure {a : α} {b : β} (h : R a b) : Alike ρ R (pure a) (pure b) := .ok h

theorem throw {v v' : Violation} (h : v' = v.relabel ρ) :
    Alike ρ R (throw v : Check α) (throw v' : Check β) := .error h

theorem bind {x : Check α} {y : Check β} {f : α → Check γ} {g : β → Check δ} (h : Alike ρ R x y)
    (hfg : ∀ a b, R a b → Alike ρ S (f a) (g b)) : Alike ρ S (x >>= f) (y >>= g) :=
  Matched.bind h hfg

theorem mapM {f : α → Check γ} {g : β → Check δ} {as : List α} {bs : List β}
    (h : List.Forall₂ R as bs) (hfg : ∀ a b, R a b → Alike ρ S (f a) (g b)) :
    Alike ρ (List.Forall₂ S) (as.mapM f) (bs.mapM g) :=
  Matched.mapM h hfg

theorem guard {c : Prop} [Decidable c] {v v' : Violation} {f : α → Check γ} {g : β → Check δ}
    {x : Check γ} {y : Check δ} (hv : v' = v.relabel ρ) (h : Alike ρ S x y) :
    Alike ρ S (if c then MonadExcept.throw v >>= f else x)
      (if c then MonadExcept.throw v' >>= g else y) := by
  split
  · exact .error hv
  · exact h

theorem ite {c : Prop} [Decidable c] {x x' : Check α} {y y' : Check β} (h : Alike ρ R x y)
    (h' : Alike ρ R x' y') : Alike ρ R (if c then x else x') (if c then y else y') := by
  split
  · exact h
  · exact h'

end Alike

end Check

variable {ρ : Relabeling}

namespace Frame

theorem Alike.refl (f : Frame Variable Signature) : f.Alike ρ f := ⟨fun _ => rfl, rfl⟩

theorem Alike.hasOverload {f f' : Frame Variable Signature} (h : f.Alike ρ f') (name : String) :
    f'.hasOverload name = f.hasOverload name := by
  rw [Bool.eq_iff_iff, hasOverload_iff, hasOverload_iff, h.funs]

theorem Alike.has {f f' : Frame Variable Signature} (h : f.Alike ρ f') (name : String) :
    f'.vars.has name = f.vars.has name := by
  have hsome := congrArg Option.isSome (h.vars name)
  rwa [Option.isSome_map, Option.isSome_map] at hsome

theorem Alike.putVariable {f f' : Frame Variable Signature} (h : f.Alike ρ f') (name : String)
    {v v' : Variable} (hv : v'.relabel ρ = v.relabel ρ) :
    (f.putVariable name v).Alike ρ (f'.putVariable name v') := by
  refine ⟨fun key => ?_, h.funs⟩
  rw [findVariable?_putVariable, findVariable?_putVariable]
  split
  · exact congrArg some hv
  · exact h.vars key

theorem Alike.putFunction {f f' : Frame Variable Signature} (h : f.Alike ρ f') (name : String)
    (arity : Nat) (s : Signature) :
    (f.putFunction name arity s).Alike ρ (f'.putFunction name arity s) := by
  refine ⟨h.vars, ?_⟩
  funext key n
  rw [findFunction?_putFunction, findFunction?_putFunction, h.funs]

end Frame

namespace Context

variable {ctx ctx' : Context}

theorem Alike.refl (ctx : Context) : ctx.Alike ρ ctx :=
  ⟨List.forall₂_same.2 fun f _ => .refl f, fun _ => rfl⟩

namespace Alike

theorem findVariable? (h : ctx.Alike ρ ctx') (name : String) :
    (ctx'.findVariable? name).map (Variable.relabel ρ) =
      (ctx.findVariable? name).map (Variable.relabel ρ) := by
  have hframes := h.frames
  unfold Context.findVariable?
  generalize ctx.frames = fs, ctx'.frames = fs' at hframes
  induction hframes with
  | nil => rfl
  | @cons f f' _ _ hf _ ih =>
      have hname := hf.vars name
      rw [Scope.findVariable?_cons, Scope.findVariable?_cons]
      cases hv : f.findVariable? name <;> cases hv' : f'.findVariable? name <;>
        simp_all

theorem findFunction? (h : ctx.Alike ρ ctx') (name : String) (arity : Nat) :
    ctx'.findFunction? name arity = ctx.findFunction? name arity := by
  have hframes := h.frames
  unfold Context.findFunction?
  generalize ctx.frames = fs, ctx'.frames = fs' at hframes
  induction hframes with
  | nil => rfl
  | cons hf _ ih => rw [Scope.findFunction?_cons, Scope.findFunction?_cons, hf.funs, ih]

theorem hasOverload (h : ctx.Alike ρ ctx') (name : String) :
    ctx'.hasOverload name = ctx.hasOverload name := by
  have hframes := h.frames
  unfold Context.hasOverload Scope.hasOverload
  generalize ctx.frames = fs, ctx'.frames = fs' at hframes
  induction hframes with
  | nil => rfl
  | cons hf _ ih => rw [List.any_cons, List.any_cons, hf.hasOverload, ih]

theorem ownsVariable (h : ctx.Alike ρ ctx') (name : String) :
    ctx'.ownsVariable name = ctx.ownsVariable name := by
  unfold Context.ownsVariable
  obtain ⟨hframes, _⟩ := h
  generalize ctx.frames = fs, ctx'.frames = fs' at hframes
  cases hframes with
  | nil => rfl
  | cons hf _ => exact hf.has name

theorem ownsFunction (h : ctx.Alike ρ ctx') (name : String) (arity : Nat) :
    ctx'.ownsFunction name arity = ctx.ownsFunction name arity := by
  unfold Context.ownsFunction
  obtain ⟨hframes, _⟩ := h
  generalize ctx.frames = fs, ctx'.frames = fs' at hframes
  cases hframes with
  | nil => rfl
  | cons hf _ => exact congrArg Option.isSome (congrFun (congrFun hf.funs name) arity)

theorem push (h : ctx.Alike ρ ctx') : ctx.push.Alike ρ ctx'.push :=
  ⟨.cons (.refl _) h.frames, h.number⟩

theorem leave {inner inner' : Context} (h : ctx.Alike ρ ctx') (hi : inner.Alike ρ inner') :
    (ctx.leave inner).Alike ρ (ctx'.leave inner') :=
  ⟨h.frames, hi.number⟩

theorem modifyInnermost (h : ctx.Alike ρ ctx')
    {g g' : Frame Variable Signature → Frame Variable Signature}
    (hg : ∀ f f' : Frame Variable Signature, f.Alike ρ f' → (g f).Alike ρ (g' f')) :
    (ctx.modifyInnermost g).Alike ρ (ctx'.modifyInnermost g') := by
  refine ⟨?_, h.number⟩
  unfold Context.modifyInnermost
  obtain ⟨hframes, _⟩ := h
  generalize ctx.frames = fs, ctx'.frames = fs' at hframes
  cases hframes with
  | nil => exact .nil
  | cons hf hrest => exact .cons (hg _ _ hf) hrest

theorem putFunction (h : ctx.Alike ρ ctx') (s : Signature) :
    (ctx.putFunction s).Alike ρ (ctx'.putFunction s) :=
  h.modifyInnermost fun _ _ hf => hf.putFunction s.name s.arity s

theorem declare (h : ctx.Alike ρ ctx') (name : String) (T : Ty) (mutable : Bool) {o o' : Nat}
    (ho : o' = ρ.place o) :
    Check.Alike ρ (fun p p' => p'.1.relabel ρ = p.1.relabel ρ ∧ p.2.Alike ρ p'.2)
      (ctx.declare name T mutable o) (ctx'.declare name T mutable o') := by
  unfold Context.declare
  rw [h.ownsVariable]
  apply Check.Alike.ite
  · exact .throw (by rw [ho]; rfl)
  · have hv : Variable.relabel ρ ⟨ctx'.fresh, name, name, T, mutable⟩ =
        Variable.relabel ρ ⟨ctx.fresh, name, name, T, mutable⟩ := by
      rw [Variable.relabel, Variable.relabel, ← Nat.add_zero ctx'.fresh, h.number 0, Nat.add_zero]
    have hframes := h.modifyInnermost fun _ _ hf => hf.putVariable name hv
    refine .pure ⟨hv, hframes.frames, fun n => ?_⟩
    have hnumber := h.number (1 + n)
    rwa [← Nat.add_assoc, ← Nat.add_assoc] at hnumber

end Alike

end Context

end PlcLang
