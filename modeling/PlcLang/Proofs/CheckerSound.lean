import PlcLang.Proofs.CheckerFunctions

namespace PlcLang

/-- The types that are the type of some literal. -/
def Ty.Concrete (T : Ty) : Prop := T ≠ .any ∧ T ≠ .comparable

/-- All types that the names of an environment give to expressions are among the allowed ones. -/
def Env.Within (allowed : Ty → Prop) (Γ : Env) : Prop :=
  (∀ name b, Γ.vars name = some b → allowed b.type) ∧
  ∀ name arity s, Γ.funs name arity = some s → allowed s.returns

theorem Literal.HasType.concrete {value : Literal} {T : Ty} (h : value.HasType T) : T.Concrete := by
  cases h <;> exact ⟨nofun, nofun⟩

theorem BinOp.HasType.concrete {op : BinOp} {L R T : Ty} (h : op.HasType L R T) : T.Concrete := by
  cases h with
  | arithmetic _ hT =>
      simp only [List.mem_cons, List.not_mem_nil, or_false] at hT
      rcases hT with rfl | rfl <;> exact ⟨nofun, nofun⟩
  | logical | order | equality | concatenation | power => exact ⟨nofun, nofun⟩

namespace Expr

variable {allowed : Ty → Prop} {ctx : Context}

/-- What a successful check of `e` says of it and of the expression `e'` it gives back. -/
def Sound (allowed : Ty → Prop) (Γ : Env) (e : Expr) (T : Ty) (e' : Expr) : Prop :=
  HasType .blank Γ e T ∧ HasType (.filled allowed) Γ e' T ∧ allowed T ∧
  e.isBinary = e'.isBinary ∧ e.isCall = e'.isCall

theorem arguments_sound {Γ : Env} {arguments arguments' : List Expr} {parameters : List Ty}
    (hlen : arguments.length = parameters.length)
    (h : List.Forall₂ (fun p e' => ∃ T, Sound allowed Γ p.1 T e' ∧ p.2.Accepts T)
      (arguments.zip parameters) arguments') :
    ∃ types, List.Forall₂ Ty.Accepts parameters types ∧ arguments.length = types.length ∧
      arguments'.length = types.length ∧
      (∀ p ∈ arguments.zip types, HasType .blank Γ p.1 p.2) ∧
      ∀ p ∈ arguments'.zip types, HasType (.filled allowed) Γ p.1 p.2 := by
  induction arguments generalizing parameters arguments' with
  | nil =>
      obtain rfl := List.length_eq_zero_iff.mp hlen.symm
      obtain rfl := List.forall₂_nil_left_iff.mp h
      exact ⟨[], .nil, rfl, rfl, nofun, nofun⟩
  | cons e es ih =>
      cases parameters with
      | nil => cases hlen
      | cons P Ps =>
          obtain ⟨e', es', ⟨T, hT, hP⟩, htail, rfl⟩ := List.forall₂_cons_left_iff.mp h
          obtain ⟨types, hacc, hl, hl', hb, hf⟩ := ih (Nat.succ.inj hlen) htail
          refine ⟨T :: types, .cons hP hacc, congrArg (· + 1) hl, congrArg (· + 1) hl', ?_, ?_⟩
          · simp only [List.zip_cons_cons, List.forall_mem_cons]
            exact ⟨hT.1, hb⟩
          · simp only [List.zip_cons_cons, List.forall_mem_cons]
            exact ⟨hT.2.1, hf⟩

theorem elements_sound {Γ : Env} {T : Ty} {es es' : List Expr}
    (h : List.Forall₂ (fun e e' => Sound allowed Γ e T e') es es') :
    (∀ e ∈ es, HasType .blank Γ e T) ∧ ∀ e ∈ es', HasType (.filled allowed) Γ e T := by
  induction h with
  | nil => exact ⟨nofun, nofun⟩
  | cons hhead _ ih =>
      simp only [List.forall_mem_cons]
      exact ⟨⟨hhead.1, ih.1⟩, ⟨hhead.2.1, ih.2⟩⟩

theorem check_sound (hall : ∀ T, T.Concrete → allowed T) (hreg : ctx.Regular)
    (hwithin : ctx.env.Within allowed) {depth : Nat} {e e' : Expr} {T : Ty}
    (h : e.check ctx depth = .ok (T, e')) : Sound allowed ctx.env e T e' := by
  induction depth generalizing e e' T with
  | zero => exact (Check.throw_eq_ok.mp h).elim
  | succ depth ih =>
      cases e with
      | literal info value =>
          simp only [check, Check.bind_eq_ok, Check.pure_eq_ok, Prod.mk.injEq] at h
          obtain ⟨T, hT, rfl, rfl⟩ := h
          have hv := Literal.type_eq_ok.mp hT
          have hT := hall T hv.concrete
          exact ⟨.literal hv trivial, .literal hv ⟨rfl, hT⟩, hT, rfl, rfl⟩
      | group info inner =>
          simp only [check, Check.throw_bind, Check.ite_throw_eq_ok, Check.bind_eq_ok,
            Check.pure_eq_ok, Prod.mk.injEq, Prod.exists, Bool.not_eq_true',
            Bool.not_eq_false] at h
          obtain ⟨hbin, T, inner', hinner, rfl, rfl⟩ := h
          obtain ⟨hb, hf, hT, hshape, _⟩ := ih hinner
          rw [hbin] at hshape
          cases inner with
          | binary =>
              cases inner' with
              | binary => exact ⟨.group hb trivial, .group hf ⟨rfl, hT⟩, hT, rfl, rfl⟩
              | _ => cases hshape
          | _ => cases hbin
      | binary info op left right =>
          simp only [check, Check.bind_eq_ok, Check.pure_eq_ok, Prod.mk.injEq, Prod.exists] at h
          obtain ⟨L, left', hleft, R, right', hright, T, hop, rfl, rfl⟩ := h
          obtain ⟨hbl, hfl, _⟩ := ih hleft
          obtain ⟨hbr, hfr, _⟩ := ih hright
          have hop := BinOp.HasType.of_type hop
          have hT := hall T hop.concrete
          exact ⟨.binary hbl hbr hop trivial, .binary hfl hfr hop ⟨rfl, hT⟩, hT, rfl, rfl⟩
      | access info name slot =>
          simp only [check, Check.bind_eq_ok, Check.pure_eq_ok, Prod.mk.injEq,
            lookup_eq_ok] at h
          obtain ⟨v, hv, rfl, rfl⟩ := h
          have hvar : ctx.env.vars name = some v.binding := by simp [Context.env, hv]
          obtain ⟨hname, hjava⟩ := hreg.variable_name name v hv
          have hsym : (Slots.filled allowed).symbol (some v) name v.binding :=
            ⟨⟨v, rfl, hname, hjava, rfl⟩, hwithin.1 name _ hvar⟩
          exact ⟨.access hvar trivial trivial, .access hvar ⟨rfl, hsym.2⟩ hsym, hsym.2, rfl, rfl⟩
      | element info name index slot =>
          simp only [check, Check.bind_eq_ok, Check.pure_eq_ok, Prod.mk.injEq, Prod.exists,
            lookup_eq_ok, sameType_eq_ok] at h
          obtain ⟨v, hv, I, index', hindex, _, rfl, rfl, rfl⟩ := h
          obtain ⟨hb, hf, _⟩ := ih hindex
          have hvar : ctx.env.vars name = some v.binding := by simp [Context.env, hv]
          obtain ⟨hname, hjava⟩ := hreg.variable_name name v hv
          have hsym : (Slots.filled allowed).symbol (some v) name v.binding :=
            ⟨⟨v, rfl, hname, hjava, rfl⟩, hwithin.1 name _ hvar⟩
          exact ⟨.element hvar hb trivial trivial, .element hvar hf ⟨rfl, hsym.2⟩ hsym, hsym.2, rfl, rfl⟩
      | call info name arguments slot =>
          simp only [check, Check.bind_eq_ok, Check.pure_eq_ok, Prod.mk.injEq, Prod.exists,
            lookupFunction_eq_ok, Check.mapM_eq_ok, fits_eq_ok] at h
          obtain ⟨s, hs, arguments', hargs, rfl, rfl⟩ := h
          have hlen : arguments.length = s.parameters.length := (hreg.function_key _ _ _ hs).2.symm
          have hsound : List.Forall₂ (fun p e' => ∃ T, Sound allowed ctx.env p.1 T e' ∧ p.2.Accepts T)
              (arguments.zip s.parameters) arguments' := by
            refine hargs.imp ?_
            rintro p e' ⟨T, e'', hT, _, hacc, rfl⟩
            exact ⟨T, ih hT, hacc⟩
          obtain ⟨types, hacc, hl, hl', hb, hf⟩ := arguments_sound hlen hsound
          have hT := hwithin.2 _ _ _ hs
          exact ⟨.call hs hacc hl hb trivial trivial,
            .call (by rw [hl', ← hl]; exact hs) hacc hl' hf ⟨rfl, hT⟩ ⟨rfl, hT⟩, hT, rfl, rfl⟩
      | list info elements =>
          cases elements with
          | nil => exact (Check.throw_eq_ok.mp h).elim
          | cons first others =>
              simp only [check, Check.bind_eq_ok, Check.pure_eq_ok, Prod.mk.injEq, Prod.exists,
                Check.mapM_eq_ok, sameType_eq_ok] at h
              obtain ⟨T, first', hfirst, others', hothers, rfl, rfl⟩ := h
              have hall := ih hfirst
              have hsound : List.Forall₂ (fun e e' => Sound allowed ctx.env e T e')
                  (first :: others) (first' :: others') := by
                refine .cons hall (hothers.imp ?_)
                rintro e e' ⟨S, e'', hS, _, rfl, rfl⟩
                exact ih hS
              obtain ⟨hb, hf⟩ := elements_sound hsound
              exact ⟨.list (List.cons_ne_nil _ _) hb trivial,
                .list (List.cons_ne_nil _ _) hf ⟨rfl, hall.2.2.1⟩, hall.2.2.1, rfl, rfl⟩
      | unknown start node => exact (Check.throw_eq_ok.mp h).elim

end Expr

namespace Stmt

variable {allowed : Ty → Prop} {ctx : Context} {returns : Ty}

structure Sound (allowed : Ty → Prop) (returns : Ty) (ctx : Context) (stmt stmt' : Stmt)
    (ctx' : Context) : Prop where
  blank : Typed .blank returns ctx.env stmt ctx'.env
  filled : Typed (.filled allowed) returns ctx.env stmt' ctx'.env
  regular : ctx'.Regular
  within : ctx'.env.Within allowed

theorem Sound.of_env {stmt stmt' : Stmt} {ctx' : Context} (henv : ctx'.env = ctx.env)
    (hb : Typed .blank returns ctx.env stmt ctx.env)
    (hf : Typed (.filled allowed) returns ctx.env stmt' ctx.env) (hreg : ctx'.Regular)
    (hwithin : ctx.env.Within allowed) : Sound allowed returns ctx stmt stmt' ctx' := by
  constructor <;> simpa only [henv]

/-- The written types of some syntax are among the allowed ones. -/
def NamesWithin (allowed : Ty → Prop) (names : List String) : Prop :=
  ∀ T : Ty, T.name ∈ names → allowed T

theorem within_declare {Γ : Env} (h : Γ.Within allowed) {T : Ty} (hT : allowed T) (name : String)
    (mutable : Bool) : (Γ.declare name ⟨T, mutable⟩).Within allowed := by
  refine ⟨fun key b hb => ?_, h.2⟩
  simp only [Env.declare, Function.update_apply] at hb
  split at hb
  · rw [Option.some.injEq] at hb
    subst hb
    exact hT
  · exact h.1 key b hb

theorem declare_sound (hreg : ctx.Regular) (hwithin : ctx.env.Within allowed) {name : String}
    {T : Ty} {mutable : Bool} {offset : Nat} {v : Variable} {ctx' : Context} (hT : allowed T)
    (h : ctx.declare name T mutable offset = .ok (v, ctx')) :
    name ∉ ctx.env.own ∧ (Slots.filled allowed).symbol (some v) name ⟨T, mutable⟩ ∧
      ctx'.env = ctx.env.declare name ⟨T, mutable⟩ ∧ ctx'.Regular ∧ ctx'.env.Within allowed := by
  obtain ⟨hown, hput⟩ := Context.declare_eq_ok.mp h
  have henv := Context.env_putVariable hreg.frames_ne_nil name T mutable
  have hreg' := hreg.putVariable name T mutable
  rw [hput] at henv hreg'
  refine ⟨hown, ⟨⟨v, rfl, ?_⟩, hT⟩, henv, hreg', henv ▸ within_declare hwithin hT name mutable⟩
  obtain rfl : _ = v := congrArg Prod.fst hput
  exact ⟨rfl, rfl, rfl⟩

theorem checkDeclaration_sound (hall : ∀ T, T.Concrete → allowed T) (hreg : ctx.Regular)
    (hwithin : ctx.env.Within allowed) {depth offset : Nat} {name : String}
    {typeName : Option String} {value : Option Expr} {slot : Option Variable} {stmt' : Stmt}
    {ctx' : Context} (hnames : NamesWithin allowed typeName.toList)
    (h : checkDeclaration ctx depth offset name typeName value = .ok (stmt', ctx')) :
    Sound allowed returns ctx (.declaration offset name typeName value slot) stmt' ctx' := by
  cases typeName with
  | none =>
      cases value with
      | none => exact (Check.throw_eq_ok.mp h).elim
      | some e =>
          simp only [checkDeclaration_value, Check.bind_eq_ok, Check.pure_eq_ok, Prod.exists,
            Prod.mk.injEq] at h
          obtain ⟨T, e', he, v, ctx', hdecl, rfl, rfl⟩ := h
          obtain ⟨hb, hf, hT, _⟩ := Expr.check_sound hall hreg hwithin he
          obtain ⟨hown, hsym, henv, hreg', hwithin'⟩ := declare_sound hreg hwithin hT hdecl
          exact ⟨henv ▸ .declarationOfValue hb hown trivial,
            henv ▸ .declarationOfValue hf hown hsym, hreg', hwithin'⟩
  | some typeName =>
      cases value with
      | none =>
          simp only [checkDeclaration_type, Check.bind_eq_ok, Check.pure_eq_ok, Prod.exists,
            Prod.mk.injEq, namedType_eq_ok] at h
          obtain ⟨T, rfl, v, ctx', hdecl, rfl, rfl⟩ := h
          obtain ⟨hown, hsym, henv, hreg', hwithin'⟩ :=
            declare_sound hreg hwithin (hnames T (List.mem_singleton_self _)) hdecl
          exact ⟨henv ▸ .declarationOfType hown trivial, henv ▸ .declarationOfType hown hsym,
            hreg', hwithin'⟩
      | some e =>
          simp only [checkDeclaration_both, Check.bind_eq_ok, Check.pure_eq_ok, Prod.exists,
            Prod.mk.injEq, namedType_eq_ok, fits_eq_ok] at h
          obtain ⟨T, rfl, S, e', he, _, hacc, v, ctx', hdecl, rfl, rfl⟩ := h
          obtain ⟨hb, hf, _⟩ := Expr.check_sound hall hreg hwithin he
          obtain ⟨hown, hsym, henv, hreg', hwithin'⟩ :=
            declare_sound hreg hwithin (hnames T (List.mem_singleton_self _)) hdecl
          exact ⟨henv ▸ .declarationOfBoth hb hacc hown trivial,
            henv ▸ .declarationOfBoth hf hacc hown hsym, hreg', hwithin'⟩

theorem checkAssignment_sound (hall : ∀ T, T.Concrete → allowed T) (hreg : ctx.Regular)
    (hwithin : ctx.env.Within allowed) {depth offset : Nat} {receiver value : Expr} {stmt' : Stmt}
    (h : checkAssignment ctx depth offset receiver value = .ok stmt') :
    Sound allowed returns ctx (.assignment offset receiver value) stmt' ctx := by
  have hvars {name : String} {v : Variable} (hv : ctx.findVariable? name = some v)
      (hm : v.mutable = true) : ctx.env.vars name = some ⟨v.type, true⟩ := by
    simp [Context.env, hv, Variable.binding, hm]
  cases receiver with
  | access info name slot =>
      simp only [checkAssignment, Check.bind_eq_ok, Prod.exists] at h
      obtain ⟨T, receiver', hreceiver, hrest⟩ := h
      obtain ⟨v, hv, rfl, rfl⟩ := Expr.check_access_shape hreceiver
      obtain ⟨hb, hf, _⟩ := Expr.check_sound hall hreg hwithin hreceiver
      simp only [Check.throw_bind, Check.ite_throw_eq_ok, Check.bind_eq_ok, Check.pure_eq_ok,
        Prod.exists, fits_eq_ok, Bool.not_eq_true', Bool.not_eq_false] at hrest
      obtain ⟨hm, S, value', hvalue, _, hacc, rfl⟩ := hrest
      obtain ⟨hbv, hfv, _⟩ := Expr.check_sound hall hreg hwithin hvalue
      exact ⟨.assignment hb (hvars hv hm) hbv hacc, .assignment hf (hvars hv hm) hfv hacc,
        hreg, hwithin⟩
  | element info name index slot =>
      simp only [checkAssignment, Check.bind_eq_ok, Prod.exists] at h
      obtain ⟨T, receiver', hreceiver, hrest⟩ := h
      obtain ⟨v, index', hv, rfl, rfl⟩ := Expr.check_element_shape hreceiver
      obtain ⟨hb, hf, _⟩ := Expr.check_sound hall hreg hwithin hreceiver
      simp only [Check.throw_bind, Check.ite_throw_eq_ok, Check.bind_eq_ok, Check.pure_eq_ok,
        Prod.exists, fits_eq_ok, Bool.not_eq_true', Bool.not_eq_false] at hrest
      obtain ⟨hm, S, value', hvalue, _, hacc, rfl⟩ := hrest
      obtain ⟨hbv, hfv, _⟩ := Expr.check_sound hall hreg hwithin hvalue
      exact ⟨.elementAssignment hb (hvars hv hm) hbv hacc,
        .elementAssignment hf (hvars hv hm) hfv hacc, hreg, hwithin⟩
  | literal | group | binary | call | list | unknown => exact (Check.throw_eq_ok.mp h).elim

def StepSound (allowed : Ty → Prop) (returns : Ty)
    (step : Context → Stmt → Check (Stmt × Context)) : Prop :=
  ∀ {ctx : Context} {stmt stmt' : Stmt} {ctx' : Context}, ctx.Regular → ctx.env.Within allowed →
    NamesWithin allowed stmt.typeNames → step ctx stmt = .ok (stmt', ctx') →
    Sound allowed returns ctx stmt stmt' ctx'

variable {step : Context → Stmt → Check (Stmt × Context)}

theorem namesWithin_append {l₁ l₂ : List String} (h : NamesWithin allowed (l₁ ++ l₂)) :
    NamesWithin allowed l₁ ∧ NamesWithin allowed l₂ :=
  ⟨fun T hT => h T (List.mem_append_left _ hT), fun T hT => h T (List.mem_append_right _ hT)⟩

theorem checkEach_sound (hstep : StepSound allowed returns step) {stmts done stmts' : List Stmt}
    {inner : Context} (hreg : ctx.Regular) (hwithin : ctx.env.Within allowed)
    (hnames : NamesWithin allowed (listTypeNames stmts))
    (h : checkEach step ctx done stmts = (inner, .ok stmts')) :
    ∃ rest, stmts' = done.reverse ++ rest ∧ rest.length = stmts.length ∧
      BlockTyped .blank returns ctx.env stmts ∧
      BlockTyped (.filled allowed) returns ctx.env rest := by
  induction stmts generalizing ctx done with
  | nil =>
      cases h
      exact ⟨[], (List.append_nil _).symm, rfl, .nil, .nil⟩
  | cons stmt stmts ih =>
      obtain ⟨hhead, htail⟩ := namesWithin_append hnames
      rw [checkEach] at h
      cases hs : step ctx stmt with
      | error v => rw [hs] at h; cases h
      | ok r =>
          rw [hs] at h
          have hsound := hstep hreg hwithin hhead hs
          obtain ⟨rest, rfl, hlen, hb, hf⟩ := ih hsound.regular hsound.within htail h
          refine ⟨r.1 :: rest, by simp, congrArg (· + 1) hlen, ?_, ?_⟩
          · exact .cons hsound.blank hb
          · exact .cons hsound.filled hf

theorem checkBlock_sound (hstep : StepSound allowed returns step) {stmts stmts' : List Stmt}
    {ctx' : Context} (hreg : ctx.Regular) (hwithin : ctx.env.Within allowed)
    (hnames : NamesWithin allowed (listTypeNames stmts))
    (h : checkBlock step ctx stmts = .ok (stmts', ctx')) :
    stmts'.length = stmts.length ∧ BlockTyped .blank returns ctx.env.enter stmts ∧
      BlockTyped (.filled allowed) returns ctx.env.enter stmts' ∧ ctx'.env = ctx.env ∧
      ctx'.Regular := by
  rw [checkBlock] at h
  cases hc : checkEach step ctx.push [] stmts with
  | mk inner r =>
      rw [hc] at h
      cases r with
      | error v => cases h
      | ok body =>
          cases h
          obtain ⟨rest, rfl, hlen, hb, hf⟩ := checkEach_sound hstep hreg.push
            (by rw [Context.env_push]; exact hwithin) hnames hc
          rw [Context.env_push] at hb hf
          exact ⟨hlen, hb, hf, rfl, hreg.leave inner⟩

theorem checkOptional_sound (hall : ∀ T, T.Concrete → allowed T) (hreg : ctx.Regular)
    (hwithin : ctx.env.Within allowed) {depth : Nat} {value : Option Expr}
    {r : Option (Ty × Expr)} (h : checkOptional ctx depth value = .ok r) :
    value = none ∧ r = none ∨
      ∃ e T e', value = some e ∧ r = some (T, e') ∧ Expr.Sound allowed ctx.env e T e' := by
  cases value with
  | none => exact .inl ⟨rfl, (Check.pure_eq_ok.mp h).symm⟩
  | some e =>
      simp only [checkOptional, Check.bind_eq_ok, Check.pure_eq_ok, Prod.exists] at h
      obtain ⟨T, e', he, rfl⟩ := h
      exact .inr ⟨e, T, e', rfl, rfl, Expr.check_sound hall hreg hwithin he⟩

def CasesTyped (σ : Slots) (returns : Ty) (Γ : Env) (T : Ty) (cases : List Case) : Prop :=
  (∀ c ∈ cases, ∀ e, c.value = some e → Expr.HasType σ Γ e T) ∧
  ∀ c ∈ cases, BlockTyped σ returns Γ.enter c.body

theorem CasesTyped.cons {σ : Slots} {Γ : Env} {T : Ty} {c : Case} {rest : List Case}
    (hvalue : ∀ e, c.value = some e → Expr.HasType σ Γ e T)
    (hbody : BlockTyped σ returns Γ.enter c.body) (hrest : CasesTyped σ returns Γ T rest) :
    CasesTyped σ returns Γ T (c :: rest) :=
  ⟨List.forall_mem_cons.mpr ⟨hvalue, hrest.1⟩, List.forall_mem_cons.mpr ⟨hbody, hrest.2⟩⟩

theorem checkCases_sound (hall : ∀ T, T.Concrete → allowed T)
    (hstep : StepSound allowed returns step) {depth : Nat} {T : Ty} {cases done cases' : List Case}
    {ctx' : Context} (hreg : ctx.Regular) (hwithin : ctx.env.Within allowed)
    (hnames : NamesWithin allowed (Case.listTypeNames cases))
    (h : checkCases step depth T ctx done cases = .ok (cases', ctx')) :
    ∃ rest, cases' = done.reverse ++ rest ∧
      rest.map (·.value.isNone) = cases.map (·.value.isNone) ∧
      CasesTyped .blank returns ctx.env T cases ∧
      CasesTyped (.filled allowed) returns ctx.env T rest ∧ ctx'.env = ctx.env ∧ ctx'.Regular := by
  induction cases generalizing ctx done with
  | nil =>
      cases h
      exact ⟨[], (List.append_nil _).symm, rfl, ⟨nofun, nofun⟩, ⟨nofun, nofun⟩, rfl, hreg⟩
  | cons c cases ih =>
      obtain ⟨offset, value, body⟩ := c
      obtain ⟨hhead, htail⟩ := namesWithin_append hnames
      cases value with
      | none =>
          simp only [checkCases_default, Check.bind_eq_ok, Prod.exists] at h
          obtain ⟨body', ctx₁, hbody, hrest⟩ := h
          obtain ⟨_, hb, hf, henv, hreg'⟩ := checkBlock_sound hstep hreg hwithin hhead hbody
          obtain ⟨rest, rfl, hlast, hbs, hfs, henv', hreg''⟩ :=
            ih hreg' (henv ▸ hwithin) htail hrest
          rw [henv] at hbs hfs henv'
          refine ⟨.mk offset none body' :: rest, by simp, ?_, .cons nofun hb hbs,
            .cons nofun hf hfs, henv', hreg''⟩
          simpa [Case.value] using hlast
      | some e =>
          simp only [checkCases_value, Check.bind_eq_ok, Prod.exists, sameType_eq_ok] at h
          obtain ⟨T, e', he, _, rfl, body', ctx₁, hbody, hrest⟩ := h
          obtain ⟨hbe, hfe, _⟩ := Expr.check_sound hall hreg hwithin he
          obtain ⟨_, hb, hf, henv, hreg'⟩ := checkBlock_sound hstep hreg hwithin hhead hbody
          obtain ⟨rest, rfl, hlast, hbs, hfs, henv', hreg''⟩ :=
            ih hreg' (henv ▸ hwithin) htail hrest
          rw [henv] at hbs hfs henv'
          refine ⟨.mk offset (some e') body' :: rest, by simp, ?_, .cons ?_ hb hbs,
            .cons ?_ hf hfs, henv', hreg''⟩
          · simpa [Case.value] using hlast
          · intro e₁ he₁
            cases he₁
            exact hbe
          · intro e₁ he₁
            cases he₁
            exact hfe

theorem last_is_default {cases : List Case} :
    cases.getLast?.any (·.value.isNone) = true ↔
      ∃ last, cases.getLast? = some last ∧ last.value = none := by
  cases cases.getLast? with
  | none => exact ⟨fun h => (nomatch h), fun ⟨_, h, _⟩ => (nomatch h)⟩
  | some last => simp

theorem last_is_default_congr {cases cases' : List Case}
    (h : cases'.map (·.value.isNone) = cases.map (·.value.isNone)) :
    cases'.getLast?.any (·.value.isNone) = cases.getLast?.any (·.value.isNone) := by
  have hlast := congrArg List.getLast? h
  rw [List.getLast?_map, List.getLast?_map] at hlast
  cases h₁ : cases'.getLast? <;> cases h₂ : cases.getLast? <;> simp_all

theorem checkCondition_sound (hall : ∀ T, T.Concrete → allowed T) (hreg : ctx.Regular)
    (hwithin : ctx.env.Within allowed) {depth : Nat} {e e' : Expr}
    (h : checkCondition ctx depth e = .ok e') : Expr.Sound allowed ctx.env e .boolean e' := by
  simp only [checkCondition, Check.bind_eq_ok, Check.pure_eq_ok, Prod.exists, sameType_eq_ok] at h
  obtain ⟨T, e', he, _, rfl, rfl⟩ := h
  exact Expr.check_sound hall hreg hwithin he

theorem check_sound (hall : ∀ T, T.Concrete → allowed T) (depth : Nat) :
    StepSound allowed returns (check returns depth) := by
  induction depth with
  | zero => exact fun _ _ _ h => (Check.throw_eq_ok.mp h).elim
  | succ depth ih =>
      intro ctx stmt stmt' ctx' hreg hwithin hnames h
      cases stmt with
      | expression offset value =>
          simp only [check, Check.throw_bind, Check.ite_throw_eq_ok, Check.bind_eq_ok,
            Check.pure_eq_ok, Prod.mk.injEq, Prod.exists, Bool.not_eq_true',
            Bool.not_eq_false] at h
          obtain ⟨hcall, T, value', hvalue, rfl, rfl⟩ := h
          obtain ⟨hb, hf, _, _, hshape⟩ := Expr.check_sound hall hreg hwithin hvalue
          rw [hcall] at hshape
          cases value with
          | call =>
              cases value' with
              | call => exact ⟨.expression hb, .expression hf, hreg, hwithin⟩
              | _ => cases hshape
          | _ => cases hcall
      | declaration offset name typeName value slot =>
          exact checkDeclaration_sound hall hreg hwithin hnames h
      | assignment offset receiver value =>
          simp only [check, Check.bind_eq_ok, Check.pure_eq_ok, Prod.mk.injEq] at h
          obtain ⟨stmt', hstmt, rfl, rfl⟩ := h
          exact checkAssignment_sound hall hreg hwithin hstmt
      | ifElse offset condition thenBody elseBody =>
          simp only [check, Check.throw_bind, Check.ite_throw_eq_ok, Check.bind_eq_ok,
            Check.pure_eq_ok, Prod.mk.injEq, Prod.exists] at h
          obtain ⟨condition', hcond, hne, then', ctx₁, hthen, else', ctx₂, helse, rfl, rfl⟩ := h
          obtain ⟨hnthen, hnelse⟩ := namesWithin_append hnames
          obtain ⟨hbc, hfc, _⟩ := checkCondition_sound hall hreg hwithin hcond
          obtain ⟨hlen, hbt, hft, henv₁, hreg₁⟩ := checkBlock_sound ih hreg hwithin hnthen hthen
          obtain ⟨_, hbe, hfe, henv₂, hreg₂⟩ :=
            checkBlock_sound ih hreg₁ (henv₁ ▸ hwithin) hnelse helse
          rw [henv₁] at hbe hfe henv₂
          have hne' : thenBody ≠ [] := fun h => hne (by rw [h]; rfl)
          refine .of_env henv₂ (.ifElse hbc hne' hbt hbe) (.ifElse hfc ?_ hft hfe) hreg₂ hwithin
          exact fun h => hne' (List.length_eq_zero_iff.mp (by rw [← hlen, h]; rfl))
      | switch offset condition cases =>
          simp only [check, Check.throw_bind, Check.ite_throw_eq_ok, Check.bind_eq_ok,
            Check.pure_eq_ok, Prod.mk.injEq, Prod.exists, Bool.not_eq_true',
            Bool.not_eq_false] at h
          obtain ⟨T, condition', hcond, cases', ctx₁, hcases, hlast, rfl, rfl⟩ := h
          obtain ⟨hbc, hfc, _⟩ := Expr.check_sound hall hreg hwithin hcond
          obtain ⟨rest, rfl, hmap, hb, hf, henv, hreg'⟩ :=
            checkCases_sound hall ih hreg hwithin hnames hcases
          have hlast' := (last_is_default_congr hmap).trans hlast
          obtain ⟨last, hl, hv⟩ := last_is_default.mp hlast
          obtain ⟨last', hl', hv'⟩ := last_is_default.mp hlast'
          exact .of_env henv (.switch hbc hb.1 hb.2 hl hv) (.switch hfc hf.1 hf.2 hl' hv') hreg'
            hwithin
      | whileDo offset condition body =>
          simp only [check, Check.bind_eq_ok, Check.pure_eq_ok, Prod.mk.injEq, Prod.exists] at h
          obtain ⟨condition', hcond, body', ctx₁, hbody, rfl, rfl⟩ := h
          obtain ⟨hbc, hfc, _⟩ := checkCondition_sound hall hreg hwithin hcond
          obtain ⟨_, hb, hf, henv, hreg'⟩ := checkBlock_sound ih hreg hwithin hnames hbody
          exact .of_env henv (.whileDo hbc hb) (.whileDo hfc hf) hreg' hwithin
      | ret offset value =>
          simp only [check, Check.bind_eq_ok, Check.pure_eq_ok, Prod.mk.injEq, fits_eq_ok] at h
          obtain ⟨r, hr, _, hacc, rfl, rfl⟩ := h
          obtain ⟨rfl, rfl⟩ | ⟨e, T, e', rfl, rfl, hb, hf, _⟩ :=
            checkOptional_sound hall hreg hwithin hr
          · exact ⟨.bareReturn hacc, .bareReturn hacc, hreg, hwithin⟩
          · exact ⟨.valueReturn hb hacc, .valueReturn hf hacc, hreg, hwithin⟩
      | unknown start node => exact (Check.throw_eq_ok.mp h).elim

end Stmt

namespace Global

variable {allowed : Ty → Prop} {ctx ctx' : Context} {depth : Nat}

theorem check_sound (hall : ∀ T, T.Concrete → allowed T) (hreg : ctx.Regular)
    (hwithin : ctx.env.Within allowed) {g g' : Global}
    (hnames : ∀ T : Ty, T.name = g.typeName → allowed T) (h : g.check depth ctx = .ok (g', ctx')) :
    ∃ T, g.Typed .blank ctx.env T ∧ g'.Typed (.filled allowed) ctx.env T ∧ g'.name = g.name ∧
      g'.mutable = g.mutable ∧ ctx'.env = ctx.env.declare g.name ⟨T, g.mutable⟩ ∧ ctx'.Regular ∧
      ctx'.env.Within allowed := by
  obtain ⟨offset, name, typeName, mutable, value, slot⟩ := g
  cases value with
  | none =>
      simp only [check_bare, Check.bind_eq_ok, Check.pure_eq_ok, Prod.exists, Prod.mk.injEq,
        namedType_eq_ok] at h
      obtain ⟨T, rfl, v, ctx', hdecl, rfl, rfl⟩ := h
      obtain ⟨hown, hsym, henv, hreg', hwithin'⟩ :=
        Stmt.declare_sound hreg hwithin (hnames T rfl) hdecl
      exact ⟨T, ⟨rfl, nofun, hown, trivial⟩, ⟨rfl, nofun, hown, hsym⟩, rfl, rfl, henv, hreg',
        hwithin'⟩
  | some e =>
      simp only [check_value, Check.bind_eq_ok, Check.pure_eq_ok, Prod.exists, Prod.mk.injEq,
        namedType_eq_ok, fits_eq_ok] at h
      obtain ⟨T, rfl, S, e', he, _, hacc, v, ctx', hdecl, rfl, rfl⟩ := h
      obtain ⟨hb, hf, _⟩ := Expr.check_sound hall hreg hwithin he
      obtain ⟨hown, hsym, henv, hreg', hwithin'⟩ :=
        Stmt.declare_sound hreg hwithin (hnames T rfl) hdecl
      refine ⟨T, ⟨rfl, ?_, hown, trivial⟩, ⟨rfl, ?_, hown, hsym⟩, rfl, rfl, henv, hreg', hwithin'⟩
      · intro e₁ he₁
        cases he₁
        exact ⟨S, hb, hacc⟩
      · intro e₁ he₁
        cases he₁
        exact ⟨S, hf, hacc⟩

end Global

namespace Program

variable {allowed : Ty → Prop} {ctx ctx' : Context} {depth : Nat}

theorem checkGlobals_sound (hall : ∀ T, T.Concrete → allowed T) {gs done gs' : List Global}
    (hreg : ctx.Regular) (hwithin : ctx.env.Within allowed)
    (hnames : Stmt.NamesWithin allowed (gs.map Global.typeName))
    (h : checkGlobals depth ctx done gs = .ok (gs', ctx')) :
    ∃ rest, gs' = done.reverse ++ rest ∧ Global.ListTyped .blank ctx.env gs ctx'.env ∧
      Global.ListTyped (.filled allowed) ctx.env rest ctx'.env ∧ ctx'.Regular ∧
      ctx'.env.Within allowed := by
  induction gs generalizing ctx done with
  | nil =>
      cases h
      exact ⟨[], (List.append_nil _).symm, .nil, .nil, hreg, hwithin⟩
  | cons g gs ih =>
      simp only [checkGlobals, Check.bind_eq_ok, Prod.exists] at h
      obtain ⟨g', ctx₁, hg, hrest⟩ := h
      obtain ⟨T, hb, hf, hname, hmut, henv, hreg₁, hwithin₁⟩ := g.check_sound hall hreg hwithin
        (fun T hT => hnames T (by simp [hT])) hg
      obtain ⟨rest, rfl, hbs, hfs, hreg', hwithin'⟩ := ih hreg₁ hwithin₁
        (fun T hT => hnames T (List.mem_cons_of_mem _ hT)) hrest
      rw [henv] at hbs hfs
      refine ⟨g' :: rest, by simp, .cons hb hbs, .cons hf ?_, hreg', hwithin'⟩
      rw [hname, hmut]
      exact hfs

end Program

namespace Function

variable {allowed : Ty → Prop} {ctx ctx' : Context} {depth : Nat}

theorem within_parameters {Γ : Env} (h : Γ.Within allowed) {parameters : List (String × Ty)}
    (hp : ∀ p ∈ parameters, allowed p.2) : (Γ.withParameters parameters).Within allowed := by
  induction parameters generalizing Γ with
  | nil => exact h
  | cons p parameters ih =>
      obtain ⟨hhead, htail⟩ := List.forall_mem_cons.mp hp
      exact ih (Stmt.within_declare h hhead p.1 true) htail

theorem checkBody_sound (hall : ∀ T, T.Concrete → allowed T) (hreg : ctx.Regular)
    (hwithin : ctx.env.Within allowed) {f f' : Function} {s : Signature}
    (hs : (∀ T ∈ s.parameters, allowed T) ∧ allowed s.returns)
    (hnames : Stmt.NamesWithin allowed (Stmt.listTypeNames f.body))
    (h : f.checkBody depth ctx s = .ok (f', ctx')) :
    f.BodyTyped .blank ctx.env s ∧ f'.BodyTyped (.filled allowed) ctx.env s ∧
      (f.Declares s → f'.Declares s) ∧ ctx'.env = ctx.env ∧ ctx'.Regular := by
  simp only [checkBody, Check.bind_eq_ok] at h
  obtain ⟨inner, hparams, h⟩ := h
  have hnodup := ((declareParameters_ok_iff hreg.push f.offset).mp ⟨inner, hparams⟩).1
  obtain ⟨henv, hinner⟩ := declareParameters_env hreg.push hparams
  rw [Context.env_push] at henv
  have hwithin' : inner.env.Within allowed := by
    rw [henv]
    have hentered : ctx.env.enter.Within allowed := hwithin
    exact within_parameters hentered fun p hp => hs.1 p.2 (List.of_mem_zip hp).2
  cases hc : Stmt.checkEach (Stmt.check s.returns depth) inner [] f.body with
  | mk last r =>
      rw [hc] at h
      cases r with
      | error v => cases h
      | ok body =>
          cases h
          obtain ⟨rest, rfl, _, hb, hf⟩ :=
            Stmt.checkEach_sound (Stmt.check_sound hall depth) hinner hwithin' hnames hc
          rw [henv] at hb hf
          exact ⟨⟨hnodup, hb, trivial⟩, ⟨hnodup, hf, rfl, hs⟩, id, rfl, hreg.leave last⟩

end Function

namespace Program

variable {allowed : Ty → Prop} {ctx ctx' : Context} {depth : Nat}

theorem checkBodies_sound (hall : ∀ T, T.Concrete → allowed T) (hreg : ctx.Regular)
    (hwithin : ctx.env.Within allowed) {fs done fs' : List Function} {signatures : List Signature}
    (hdecl : List.Forall₂ Function.Declares fs signatures)
    (hs : ∀ s ∈ signatures, (∀ T ∈ s.parameters, allowed T) ∧ allowed s.returns)
    (hnames : ∀ f ∈ fs, Stmt.NamesWithin allowed (Stmt.listTypeNames f.body))
    (h : checkBodies depth ctx done (fs.zip signatures) = .ok fs') :
    ∃ rest, fs' = done.reverse ++ rest ∧ List.Forall₂ Function.Declares rest signatures ∧
      List.Forall₂ (Function.BodyTyped .blank ctx.env) fs signatures ∧
      List.Forall₂ (Function.BodyTyped (.filled allowed) ctx.env) rest signatures := by
  induction hdecl generalizing ctx done with
  | nil =>
      cases h
      exact ⟨[], (List.append_nil _).symm, .nil, .nil, .nil⟩
  | @cons f s fs signatures hf _ ih =>
      obtain ⟨hs, hss⟩ := List.forall_mem_cons.mp hs
      obtain ⟨hname, hnames⟩ := List.forall_mem_cons.mp hnames
      simp only [List.zip_cons_cons, checkBodies, Check.bind_eq_ok, Prod.exists] at h
      obtain ⟨f', ctx₁, hbody, hrest⟩ := h
      obtain ⟨hb, hfill, hkeep, henv, hreg'⟩ :=
        f.checkBody_sound hall hreg hwithin hs hname hbody
      obtain ⟨rest, rfl, hd, hbs, hfs⟩ := ih hreg' (henv ▸ hwithin) hss hnames hrest
      rw [henv] at hbs hfs
      exact ⟨f' :: rest, by simp, .cons (hkeep hf) hd, .cons hb hbs, .cons hfill hfs⟩

theorem signature_within (hall : ∀ T, T.Concrete → allowed T) {f : Function} {s : Signature}
    (hf : f.Declares s) (hnames : Stmt.NamesWithin allowed f.typeNames) :
    (∀ T ∈ s.parameters, allowed T) ∧ allowed s.returns := by
  obtain ⟨_, _, hparams, hret⟩ := hf
  refine ⟨fun T hT => hnames T ?_, ?_⟩
  · rw [Function.typeNames, ← hparams]
    simp only [List.append_assoc, List.mem_append]
    exact .inl (List.mem_map_of_mem hT)
  · obtain ⟨_, hnil⟩ | hret := hret
    · rw [hnil]
      exact hall _ ⟨nofun, nofun⟩
    · exact hnames _ (by simp [Function.typeNames, hret])

theorem within_initial (hall : ∀ T, T.Concrete → allowed T) : Env.initial.Within allowed := by
  refine ⟨nofun, fun name arity s hs => ?_⟩
  obtain rfl : s = .print := List.mem_singleton.mp (Env.mem_of_lookupIn hs)
  exact hall _ ⟨nofun, nofun⟩

theorem within_functions (hall : ∀ T, T.Concrete → allowed T) {Γ : Env} (h : Γ.Within allowed)
    {signatures : List Signature} (hs : ∀ s ∈ signatures, allowed s.returns) :
    (Γ.withFunctions signatures).Within allowed := by
  refine ⟨h.1, fun name arity s hfound => ?_⟩
  obtain rfl | hmem := List.mem_cons.mp (Env.mem_of_lookupIn hfound)
  · exact hall _ ⟨nofun, nofun⟩
  · exact hs s hmem

theorem signatures_within (hall : ∀ T, T.Concrete → allowed T) {fs : List Function}
    {signatures : List Signature} (hdecl : List.Forall₂ Function.Declares fs signatures)
    (hnames : ∀ f ∈ fs, Stmt.NamesWithin allowed f.typeNames) :
    ∀ s ∈ signatures, (∀ T ∈ s.parameters, allowed T) ∧ allowed s.returns := by
  induction hdecl with
  | nil => exact nofun
  | cons hf _ ih =>
      obtain ⟨hname, hnames⟩ := List.forall_mem_cons.mp hnames
      exact List.forall_mem_cons.mpr ⟨signature_within hall hf hname, ih hnames⟩

theorem checkWithin_sound (hall : ∀ T, T.Concrete → allowed T) {p q : Program}
    (hnames : Stmt.NamesWithin allowed p.typeNames) (h : p.checkWithin depth = .ok q) :
    p.Typed .blank ∧ q.Typed (.filled allowed) := by
  simp only [checkWithin, Check.bind_eq_ok, Check.pure_eq_ok, Prod.exists] at h
  obtain ⟨globals, ctx, hglobals, pairs, ctx', hdeclared, _, hmain, functions, hbodies, rfl⟩ := h
  have hfuns := checkGlobals_functions hglobals .outermost
  have hwithin₀ : Context.outermost.env.Within allowed :=
    Context.env_outermost ▸ within_initial hall
  obtain ⟨globals, rfl, hb, hf, hreg, hwithin⟩ := checkGlobals_sound hall .outermost hwithin₀
    (fun T hT => hnames T (List.mem_append_left _ hT)) hglobals
  rw [Context.env_outermost] at hb hf
  obtain ⟨signatures, hnew, rfl, rfl⟩ := (declareFunctions_eq_ok hfuns).mp hdeclared
  obtain ⟨henv, hreg'⟩ := foldl_env hfuns hreg hnew
  have hnodup := newSignatures_nodup hnew
  have hmain := (requireMain_eq_ok (functions_foldl hfuns hnew.2.1 hnew.2.2) hnodup).mp hmain
  have hfnames : ∀ f ∈ p.functions, Stmt.NamesWithin allowed f.typeNames := fun f hf T hT =>
    hnames T (List.mem_append_right _ (List.mem_flatMap.mpr ⟨f, hf, hT⟩))
  have hsigs := signatures_within hall hnew.1 hfnames
  have hwithin' := within_functions hall hwithin fun s hs => (hsigs s hs).2
  rw [← henv] at hwithin'
  obtain ⟨functions, rfl, hdecl, hbs, hfs⟩ := checkBodies_sound hall hreg' hwithin' hnew.1 hsigs
    (fun f hf T hT => hfnames f hf T (List.mem_append_right _ hT)) hbodies
  rw [henv] at hbs hfs
  exact ⟨⟨ctx.env, signatures, hb, hnew.1, hnodup, hmain, hbs⟩,
    ⟨ctx.env, signatures, hf, hdecl, hnodup, hmain, hfs⟩⟩

/-- A checked program is well typed, whatever types are written in it. -/
theorem typed_of_checkWithin {depth : Nat} {p q : Program} (h : p.checkWithin depth = .ok q) :
    q.Typed (.filled fun _ => True) :=
  (checkWithin_sound (fun _ _ => trivial) (fun _ _ => trivial) h).2

end Program

end PlcLang
