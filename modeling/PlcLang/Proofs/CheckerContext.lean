import PlcLang.Proofs.CheckerParts

namespace PlcLang

theorem Env.mem_of_lookupIn {signatures : List Signature} {name : String} {arity : Nat}
    {s : Signature} (h : lookupIn signatures name arity = some s) : s ∈ signatures :=
  List.mem_of_find?_eq_some h

theorem Env.lookupIn_key {signatures : List Signature} {name : String} {arity : Nat}
    {s : Signature} (h : lookupIn signatures name arity = some s) :
    s.name = name ∧ s.arity = arity := by
  simpa using List.find?_some h

namespace Context

def env (ctx : Context) : Env where
  vars name := (ctx.findVariable? name).map Variable.binding
  own := {name | ctx.ownsVariable name = true}
  funs := ctx.findFunction?

theorem env_outermost : outermost.env = .initial := by
  ext name arity s
  · rfl
  · exact ⟨fun h => (nomatch (h : false = true)), fun h => (nomatch h)⟩
  · simp only [env, outermost, findFunction?, Scope.findFunction?_cons,
      Frame.findFunction?_putFunction, Env.initial, Env.lookupIn, List.find?_cons]
    by_cases h : "print" = name ∧ 1 = arity
    · simp [h, Signature.print, Signature.arity]
    · simp [h, Signature.print, Signature.arity, Frame.findFunction?, Table.get?,
        Scope.findFunction?]

theorem env_push (ctx : Context) : ctx.push.env = ctx.env.enter := by
  ext name arity s
  · rfl
  · exact ⟨fun h => (nomatch (h : false = true)), fun h => (nomatch h)⟩
  · rfl

theorem mem_own_cons (frame : Frame Variable Signature) (outer : List (Frame Variable Signature))
    (fresh : Nat) (name : String) :
    name ∈ (⟨frame :: outer, fresh⟩ : Context).env.own ↔ (frame.findVariable? name).isSome :=
  Iff.rfl

theorem env_putVariable {ctx : Context} (hne : ctx.frames ≠ []) (name : String) (T : Ty)
    (mutable : Bool) :
    (ctx.putVariable name T mutable).2.env = ctx.env.declare name ⟨T, mutable⟩ := by
  obtain ⟨frames, fresh⟩ := ctx
  cases frames with
  | nil => exact absurd rfl hne
  | cons frame outer =>
      ext key arity s
      · simp only [env, putVariable, modifyInnermost, findVariable?, Scope.findVariable?_cons,
          Frame.findVariable?_putVariable, Env.declare, Function.update_apply]
        by_cases h : name = key
        · subst h
          simp [Variable.binding]
        · simp [h, Ne.symm h]
      · simp only [putVariable, modifyInnermost, mem_own_cons, Frame.findVariable?_putVariable,
          Env.declare, Set.mem_insert_iff]
        by_cases h : name = key
        · simp [h]
        · simp [h, Ne.symm h]
      · rfl

theorem declare_eq_ok {ctx ctx' : Context} {name : String} {T : Ty} {mutable : Bool} {offset : Nat}
    {v : Variable} :
    ctx.declare name T mutable offset = .ok (v, ctx') ↔
      name ∉ ctx.env.own ∧ ctx.putVariable name T mutable = (v, ctx') := by
  unfold declare
  split
  · next h => exact ⟨fun hf => (nomatch hf), fun hf => absurd h hf.1⟩
  · next h => exact ⟨fun hf => ⟨h, Check.pure_eq_ok.mp hf⟩, fun hf => Check.pure_eq_ok.mpr hf.2⟩

/-- There is a frame to declare in, and each symbol is found under its own name. -/
structure Regular (ctx : Context) : Prop where
  frames_ne_nil : ctx.frames ≠ []
  variable_name : ∀ name v, ctx.findVariable? name = some v → v.name = name ∧ v.javaName = name
  function_key : ∀ name arity s, ctx.findFunction? name arity = some s →
    s.name = name ∧ s.arity = arity

namespace Regular

variable {ctx : Context}

theorem outermost : Context.outermost.Regular where
  frames_ne_nil := List.cons_ne_nil _ _
  variable_name := nofun
  function_key name arity s h := by
    have hs : Env.initial.funs name arity = some s := by
      rw [← env_outermost]
      exact h
    exact Env.lookupIn_key hs

theorem push (h : ctx.Regular) : ctx.push.Regular where
  frames_ne_nil := List.cons_ne_nil _ _
  variable_name := h.variable_name
  function_key := h.function_key

theorem leave (h : ctx.Regular) (inner : Context) : (ctx.leave inner).Regular :=
  ⟨h.frames_ne_nil, h.variable_name, h.function_key⟩

theorem putVariable (h : ctx.Regular) (name : String) (T : Ty) (mutable : Bool) :
    (ctx.putVariable name T mutable).2.Regular := by
  obtain ⟨frames, fresh⟩ := ctx
  cases frames with
  | nil => exact absurd rfl h.frames_ne_nil
  | cons frame outer =>
      refine ⟨List.cons_ne_nil _ _, ?_, h.function_key⟩
      intro key v hv
      have hold := h.variable_name key v
      simp only [Context.putVariable, modifyInnermost, findVariable?, Scope.findVariable?_cons,
        Frame.findVariable?_putVariable] at hv hold
      split at hv
      · next hk =>
          rw [Option.some_or, Option.some.injEq] at hv
          subst hv
          exact ⟨hk, hk⟩
      · exact hold hv

end Regular

end Context

namespace Expr

theorem lookup_eq_ok {ctx : Context} {name : String} {offset : Nat} {v : Variable} :
    lookup ctx name offset = .ok v ↔ ctx.findVariable? name = some v := by
  rw [lookup]
  cases ctx.findVariable? name with
  | none => exact ⟨fun h => (nomatch h), fun h => (nomatch h)⟩
  | some w =>
      rw [Option.some.injEq]
      exact Check.pure_eq_ok

theorem lookupFunction_eq_ok {ctx : Context} {name : String} {arity offset : Nat} {s : Signature} :
    lookupFunction ctx name arity offset = .ok s ↔ ctx.findFunction? name arity = some s := by
  rw [lookupFunction]
  cases ctx.findFunction? name arity with
  | none =>
      refine ⟨fun h => ?_, fun h => (nomatch h)⟩
      dsimp only at h
      split at h <;> exact (Check.throw_eq_ok.mp h).elim
  | some w =>
      rw [Option.some.injEq]
      exact Check.pure_eq_ok

theorem check_access_shape {ctx : Context} {depth : Nat} {info : Info} {name : String} {slot : Option Variable}
    {T : Ty} {e' : Expr} (h : (access info name slot).check ctx depth = .ok (T, e')) :
    ∃ v, ctx.findVariable? name = some v ∧ T = v.type ∧
      e' = access { info with type := some v.type } name (some v) := by
  cases depth with
  | zero => exact (Check.throw_eq_ok.mp h).elim
  | succ depth =>
      simp only [check, Check.bind_eq_ok, Check.pure_eq_ok, Prod.mk.injEq,
        lookup_eq_ok] at h
      obtain ⟨v, hv, rfl, rfl⟩ := h
      exact ⟨v, hv, rfl, rfl⟩

theorem check_element_shape {ctx : Context} {depth : Nat} {info : Info} {name : String} {index : Expr}
    {slot : Option Variable} {T : Ty} {e' : Expr}
    (h : (element info name index slot).check ctx depth = .ok (T, e')) :
    ∃ v index', ctx.findVariable? name = some v ∧ T = v.type ∧
      e' = element { info with type := some v.type } name index' (some v) := by
  cases depth with
  | zero => exact (Check.throw_eq_ok.mp h).elim
  | succ depth =>
      simp only [check, Check.bind_eq_ok, Check.pure_eq_ok, Prod.mk.injEq, Prod.exists,
        lookup_eq_ok] at h
      obtain ⟨v, hv, _, index', _, _, _, rfl, rfl⟩ := h
      exact ⟨v, index', hv, rfl, rfl⟩

end Expr

namespace Stmt

variable {ctx : Context} {step : Context → Stmt → Check (Stmt × Context)}

theorem checkDeclaration_type (depth offset : Nat) (name typeName : String) :
    checkDeclaration ctx depth offset name (some typeName) none = (do
      let T ← namedType typeName offset
      let p ← ctx.declare name T true offset
      return (.declaration offset name (some typeName) none (some p.1), p.2)) := by
  simp only [checkDeclaration, Option.mapM_some]
  cases namedType typeName offset <;> rfl

theorem checkDeclaration_value (depth offset : Nat) (name : String) (e : Expr) :
    checkDeclaration ctx depth offset name none (some e) = (do
      let r ← e.check ctx depth
      let p ← ctx.declare name r.1 true offset
      return (.declaration offset name none (some r.2) (some p.1), p.2)) := by
  simp only [checkDeclaration, checkOptional]
  cases e.check ctx depth <;> rfl

theorem checkDeclaration_both (depth offset : Nat) (name typeName : String) (e : Expr) :
    checkDeclaration ctx depth offset name (some typeName) (some e) = (do
      let T ← namedType typeName offset
      let r ← e.check ctx depth
      fits T r.1 r.2.offset
      let p ← ctx.declare name T true offset
      return (.declaration offset name (some typeName) (some r.2) (some p.1), p.2)) := by
  simp only [checkDeclaration, Option.mapM_some, checkOptional]
  cases namedType typeName offset with
  | error => rfl
  | ok T => cases e.check ctx depth <;> rfl

theorem checkCases_default (depth offset : Nat) (T : Ty) (body : List Stmt)
    (done rest : List Case) :
    checkCases step depth T ctx done (.mk offset none body :: rest) = (do
      let b ← checkBlock step ctx body
      checkCases step depth T b.2 (.mk offset none b.1 :: done) rest) := rfl

theorem checkCases_value (depth offset : Nat) (T : Ty) (e : Expr) (body : List Stmt)
    (done rest : List Case) :
    checkCases step depth T ctx done (.mk offset (some e) body :: rest) = (do
      let r ← e.check ctx depth
      sameType T r.1 r.2.offset
      let b ← checkBlock step ctx body
      checkCases step depth T b.2 (.mk offset (some r.2) b.1 :: done) rest) := by
  rw [checkCases, checkOptional]
  cases e.check ctx depth <;> rfl

end Stmt

namespace Global

variable {ctx : Context}

theorem check_bare (depth offset : Nat) (name typeName : String) (mutable : Bool)
    (slot : Option Variable) :
    check depth ctx ⟨offset, name, typeName, mutable, none, slot⟩ = (do
      let T ← namedType typeName offset
      let p ← ctx.declare name T mutable offset
      return (⟨offset, name, typeName, mutable, none, some p.1⟩, p.2)) := rfl

theorem check_value (depth offset : Nat) (name typeName : String) (mutable : Bool) (e : Expr)
    (slot : Option Variable) :
    check depth ctx ⟨offset, name, typeName, mutable, some e, slot⟩ = (do
      let T ← namedType typeName offset
      let r ← e.check ctx depth
      fits T r.1 r.2.offset
      let p ← ctx.declare name T mutable offset
      return (⟨offset, name, typeName, mutable, some r.2, some p.1⟩, p.2)) := by
  simp only [check, Stmt.checkOptional]
  cases namedType typeName offset with
  | error => rfl
  | ok T => cases e.check ctx depth <;> rfl

end Global

end PlcLang
