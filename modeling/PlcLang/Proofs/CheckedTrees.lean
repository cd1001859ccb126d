import PlcLang.Proofs.BindingRules
import PlcLang.Proofs.CheckerFunctions

namespace PlcLang

theorem forall₂_of_zip {α β γ : Type} {R : α → γ → Prop} {as : List α} {bs : List β} {cs : List γ}
    (hlen : as.length = bs.length) (h : List.Forall₂ (fun p c => R p.1 c) (as.zip bs) cs) :
    List.Forall₂ R as cs := by
  rw [← List.map_fst_zip (Nat.le_of_eq hlen), List.forall₂_map_left_iff]
  exact h

namespace Context

variable {ctx ctx' ctx'' : Context} {vs ws : List Variable}

/-- The symbols have the numbers from the one context to the other, in order. -/
def Numbers (ctx : Context) (vs : List Variable) (ctx' : Context) : Prop :=
  vs.map Variable.id = List.range' ctx.fresh vs.length ∧ ctx'.fresh = ctx.fresh + vs.length

theorem Numbers.nil : ctx.Numbers [] ctx := ⟨rfl, rfl⟩

theorem Numbers.append (h : ctx.Numbers vs ctx') (h' : ctx'.Numbers ws ctx'') :
    ctx.Numbers (vs ++ ws) ctx'' := by
  obtain ⟨hids, hfresh⟩ := h
  obtain ⟨hids', hfresh'⟩ := h'
  refine ⟨?_, ?_⟩
  · rw [List.map_append, hids, hids', hfresh, List.length_append]
    exact List.range'_append_1
  · rw [hfresh', hfresh, List.length_append, Nat.add_assoc]

theorem Numbers.nodup (h : ctx.Numbers vs ctx') : (vs.map Variable.id).Nodup := by
  rw [h.1]
  exact List.nodup_range'

theorem findVariable?_putVariable (hne : ctx.frames ≠ []) (name : String) (T : Ty)
    (mutable : Bool) : (ctx.putVariable name T mutable).2.findVariable? =
      Symbols.declare ctx.findVariable? (ctx.putVariable name T mutable).1 := by
  obtain ⟨frames, fresh⟩ := ctx
  cases frames with
  | nil => exact absurd rfl hne
  | cons frame outer =>
      funext key
      simp only [putVariable, modifyInnermost, findVariable?, Scope.findVariable?_cons,
        Frame.findVariable?_putVariable, Symbols.declare, Function.update_apply]
      by_cases h : name = key
      · simp [h]
      · simp [h, Ne.symm h]

theorem declare_annotates (hreg : ctx.Regular) {name : String} {T : Ty} {mutable : Bool}
    {offset : Nat} {v : Variable} (h : ctx.declare name T mutable offset = .ok (v, ctx')) :
    (v.name = name ∧ v.type = T) ∧ ctx'.findVariable? = Symbols.declare ctx.findVariable? v ∧
      ctx.Numbers [v] ctx' ∧ ctx'.Regular := by
  obtain ⟨_, hput⟩ := declare_eq_ok.mp h
  have hfind := findVariable?_putVariable hreg.frames_ne_nil name T mutable
  have hreg' := hreg.putVariable name T mutable
  obtain rfl : _ = v := congrArg Prod.fst hput
  obtain rfl : _ = ctx' := congrArg Prod.snd hput
  exact ⟨⟨rfl, rfl⟩, hfind, ⟨rfl, rfl⟩, hreg'⟩

end Context

namespace Expr

variable {ctx : Context}

def Annotates (ρ : Symbols) (e e' : Expr) : Prop := e'.erase = e.erase ∧ e'.Bound ρ

theorem annotates_each {ρ : Symbols} {es es' : List Expr} (h : List.Forall₂ (Annotates ρ) es es') :
    es'.map erase = es.map erase ∧ ∀ e ∈ es', e.Bound ρ := by
  induction h with
  | nil => exact ⟨rfl, nofun⟩
  | cons hhead _ ih =>
      refine ⟨?_, List.forall_mem_cons.mpr ⟨hhead.2, ih.2⟩⟩
      rw [List.map_cons, List.map_cons, hhead.1, ih.1]

theorem check_annotates (hreg : ctx.Regular) {depth : Nat} {e e' : Expr} {T : Ty}
    (h : e.check ctx depth = .ok (T, e')) : Annotates ctx.findVariable? e e' := by
  induction depth generalizing e e' T with
  | zero => exact (Check.throw_eq_ok.mp h).elim
  | succ depth ih =>
      cases e with
      | literal info value =>
          simp only [check, Check.bind_eq_ok, Check.pure_eq_ok, Prod.mk.injEq] at h
          obtain ⟨T, _, _, rfl⟩ := h
          exact ⟨rfl, .literal⟩
      | group info inner =>
          simp only [check, Check.throw_bind, Check.ite_throw_eq_ok, Check.bind_eq_ok,
            Check.pure_eq_ok, Prod.mk.injEq, Prod.exists] at h
          obtain ⟨_, T, inner', hinner, _, rfl⟩ := h
          obtain ⟨hsame, hbound⟩ := ih hinner
          exact ⟨by simp only [erase, hsame]; rfl, .group hbound⟩
      | binary info op left right =>
          simp only [check, Check.bind_eq_ok, Check.pure_eq_ok, Prod.mk.injEq, Prod.exists] at h
          obtain ⟨L, left', hleft, R, right', hright, T, _, _, rfl⟩ := h
          obtain ⟨hsame, hbound⟩ := ih hleft
          obtain ⟨hsame', hbound'⟩ := ih hright
          exact ⟨by simp only [erase, hsame, hsame']; rfl, .binary hbound hbound'⟩
      | access info name slot =>
          obtain ⟨v, hv, _, rfl⟩ := check_access_shape h
          exact ⟨by simp only [erase]; rfl, .access hv⟩
      | element info name index slot =>
          simp only [check, Check.bind_eq_ok, Check.pure_eq_ok, Prod.mk.injEq, Prod.exists,
            lookup_eq_ok] at h
          obtain ⟨v, hv, I, index', hindex, _, _, _, rfl⟩ := h
          obtain ⟨hsame, hbound⟩ := ih hindex
          exact ⟨by simp only [erase, hsame]; rfl, .element hv hbound⟩
      | call info name arguments slot =>
          simp only [check, Check.bind_eq_ok, Check.pure_eq_ok, Prod.mk.injEq, Prod.exists,
            lookupFunction_eq_ok, Check.mapM_eq_ok] at h
          obtain ⟨s, hs, arguments', hargs, _, rfl⟩ := h
          have hlen : arguments.length = s.parameters.length := (hreg.function_key _ _ _ hs).2.symm
          have heach : List.Forall₂ (Annotates ctx.findVariable?) arguments arguments' := by
            refine forall₂_of_zip hlen (hargs.imp ?_)
            rintro p e' ⟨T, e'', he, _, _, rfl⟩
            exact ih he
          obtain ⟨hsame, hbound⟩ := annotates_each heach
          exact ⟨by simp only [erase, eraseEach_eq_map, hsame]; rfl, .call hbound⟩
      | list info elements =>
          cases elements with
          | nil => exact (Check.throw_eq_ok.mp h).elim
          | cons first others =>
              simp only [check, Check.bind_eq_ok, Check.pure_eq_ok, Prod.mk.injEq, Prod.exists,
                Check.mapM_eq_ok] at h
              obtain ⟨T, first', hfirst, others', hothers, _, rfl⟩ := h
              have heach : List.Forall₂ (Annotates ctx.findVariable?) (first :: others)
                  (first' :: others') := by
                refine .cons (ih hfirst) (hothers.imp ?_)
                rintro e e' ⟨S, e'', he, _, _, rfl⟩
                exact ih he
              obtain ⟨hsame, hbound⟩ := annotates_each heach
              exact ⟨by simp only [erase, eraseEach_eq_map, hsame]; rfl, .list hbound⟩
      | unknown start node => exact (Check.throw_eq_ok.mp h).elim

end Expr

namespace Stmt

variable {ctx ctx' : Context} {returns : Ty} {step : Context → Stmt → Check (Stmt × Context)}
  {depth offset : Nat}

/-- The second statement is the first one with its symbols, and the second context has those that
are declared in it. -/
structure Annotates (ctx : Context) (x x' : Stmt) (ctx' : Context) : Prop where
  same : x'.erase = x.erase
  bound : ∃ vs, x'.Bound ctx.findVariable? vs ctx'.findVariable? ∧ ctx.Numbers vs ctx'
  regular : ctx'.Regular

theorem Annotates.of_expr {x x' : Stmt} (hreg : ctx.Regular) (hsame : x'.erase = x.erase)
    (hbound : x'.Bound ctx.findVariable? [] ctx.findVariable?) : Annotates ctx x x' ctx :=
  ⟨hsame, ⟨[], hbound, .nil⟩, hreg⟩

theorem checkOptional_annotates (hreg : ctx.Regular) {value : Option Expr}
    {r : Option (Ty × Expr)} (h : checkOptional ctx depth value = .ok r) :
    (r.map Prod.snd).map Expr.erase = value.map Expr.erase ∧
      Expr.OptionBound ctx.findVariable? (r.map Prod.snd) := by
  cases value with
  | none =>
      obtain rfl := Check.pure_eq_ok.mp h
      exact ⟨rfl, nofun⟩
  | some e =>
      simp only [checkOptional, Check.bind_eq_ok, Check.pure_eq_ok, Prod.exists] at h
      obtain ⟨T, e', he, rfl⟩ := h
      obtain ⟨hsame, hbound⟩ := Expr.check_annotates hreg he
      refine ⟨congrArg some hsame, ?_⟩
      rintro e ⟨⟩
      exact hbound

theorem checkCondition_annotates (hreg : ctx.Regular) {e e' : Expr}
    (h : checkCondition ctx depth e = .ok e') : Expr.Annotates ctx.findVariable? e e' := by
  simp only [checkCondition, Check.bind_eq_ok, Check.pure_eq_ok, Prod.exists] at h
  obtain ⟨T, e', he, _, _, rfl⟩ := h
  exact Expr.check_annotates hreg he

theorem declaration_annotates (hreg : ctx.Regular) {name : String} {typeName : Option String}
    {value value' : Option Expr} {slot : Option Variable} {T : Ty} {v : Variable}
    (hsame : value'.map Expr.erase = value.map Expr.erase)
    (hbound : Expr.OptionBound ctx.findVariable? value')
    (h : ctx.declare name T true offset = .ok (v, ctx')) :
    Annotates ctx (.declaration offset name typeName value slot)
      (.declaration offset name typeName value' (some v)) ctx' := by
  obtain ⟨⟨hname, _⟩, hfind, hnumbers, hreg'⟩ := Context.declare_annotates hreg h
  refine ⟨by simp only [erase, hsame], ⟨[v], ?_, hnumbers⟩, hreg'⟩
  rw [hfind]
  exact .declaration hbound hname

theorem checkDeclaration_annotates (hreg : ctx.Regular) {name : String}
    {typeName : Option String} {value : Option Expr} {slot : Option Variable} {x' : Stmt}
    (h : checkDeclaration ctx depth offset name typeName value = .ok (x', ctx')) :
    Annotates ctx (.declaration offset name typeName value slot) x' ctx' := by
  cases value with
  | none =>
      cases typeName with
      | none => exact (Check.throw_eq_ok.mp h).elim
      | some typeName =>
          simp only [checkDeclaration_type, Check.bind_eq_ok, Check.pure_eq_ok, Prod.exists,
            Prod.mk.injEq] at h
          obtain ⟨T, _, v, ctx', hdecl, rfl, rfl⟩ := h
          exact declaration_annotates hreg rfl nofun hdecl
  | some e =>
      have hvalue {T : Ty} {e' : Expr} (he : e.check ctx depth = .ok (T, e')) :
          Option.map Expr.erase (some e') = Option.map Expr.erase (some e) ∧
            Expr.OptionBound ctx.findVariable? (some e') := by
        refine ⟨congrArg some (Expr.check_annotates hreg he).1, ?_⟩
        rintro e₁ ⟨⟩
        exact (Expr.check_annotates hreg he).2
      cases typeName with
      | none =>
          simp only [checkDeclaration_value, Check.bind_eq_ok, Check.pure_eq_ok, Prod.exists,
            Prod.mk.injEq] at h
          obtain ⟨T, e', he, v, ctx', hdecl, rfl, rfl⟩ := h
          exact declaration_annotates hreg (hvalue he).1 (hvalue he).2 hdecl
      | some typeName =>
          simp only [checkDeclaration_both, Check.bind_eq_ok, Check.pure_eq_ok, Prod.exists,
            Prod.mk.injEq] at h
          obtain ⟨T, _, S, e', he, _, _, v, ctx', hdecl, rfl, rfl⟩ := h
          exact declaration_annotates hreg (hvalue he).1 (hvalue he).2 hdecl

theorem checkAssignment_annotates (hreg : ctx.Regular) {receiver value : Expr} {x' : Stmt}
    (h : checkAssignment ctx depth offset receiver value = .ok x') :
    Annotates ctx (.assignment offset receiver value) x' ctx := by
  have hparts {receiver' value' : Expr} {T S : Ty}
      (hreceiver : receiver.check ctx depth = .ok (T, receiver'))
      (hvalue : value.check ctx depth = .ok (S, value')) :
      Annotates ctx (.assignment offset receiver value) (.assignment offset receiver' value') ctx := by
    obtain ⟨hsame, hbound⟩ := Expr.check_annotates hreg hreceiver
    obtain ⟨hsame', hbound'⟩ := Expr.check_annotates hreg hvalue
    exact .of_expr hreg (by simp only [erase, hsame, hsame']) (.assignment hbound hbound')
  cases receiver with
  | access info name slot =>
      simp only [checkAssignment, Check.bind_eq_ok, Prod.exists] at h
      obtain ⟨T, receiver', hreceiver, hrest⟩ := h
      obtain ⟨v, hv, rfl, rfl⟩ := Expr.check_access_shape hreceiver
      simp only [Check.throw_bind, Check.ite_throw_eq_ok, Check.bind_eq_ok, Check.pure_eq_ok,
        Prod.exists] at hrest
      obtain ⟨_, S, value', hvalue, _, _, rfl⟩ := hrest
      exact hparts hreceiver hvalue
  | element info name index slot =>
      simp only [checkAssignment, Check.bind_eq_ok, Prod.exists] at h
      obtain ⟨T, receiver', hreceiver, hrest⟩ := h
      obtain ⟨v, index', hv, rfl, rfl⟩ := Expr.check_element_shape hreceiver
      simp only [Check.throw_bind, Check.ite_throw_eq_ok, Check.bind_eq_ok, Check.pure_eq_ok,
        Prod.exists] at hrest
      obtain ⟨_, S, value', hvalue, _, _, rfl⟩ := hrest
      exact hparts hreceiver hvalue
  | literal | group | binary | call | list | unknown => exact (Check.throw_eq_ok.mp h).elim

def StepAnnotates (step : Context → Stmt → Check (Stmt × Context)) : Prop :=
  ∀ {ctx : Context} {x x' : Stmt} {ctx' : Context}, ctx.Regular → step ctx x = .ok (x', ctx') →
    Annotates ctx x x' ctx'

theorem checkEach_annotates (hstep : StepAnnotates step) {xs done xs' : List Stmt}
    {inner : Context} (hreg : ctx.Regular) (h : checkEach step ctx done xs = (inner, .ok xs')) :
    ∃ rest vs, xs' = done.reverse ++ rest ∧ rest.map erase = xs.map erase ∧
      BlockBound ctx.findVariable? rest vs ∧ ctx.Numbers vs inner := by
  induction xs generalizing ctx done with
  | nil =>
      cases h
      exact ⟨[], [], (List.append_nil _).symm, rfl, .nil, .nil⟩
  | cons x xs ih =>
      rw [checkEach] at h
      cases hs : step ctx x with
      | error v => rw [hs] at h; cases h
      | ok r =>
          rw [hs] at h
          obtain ⟨hsame, ⟨vs, hbound, hnumbers⟩, hreg'⟩ := hstep hreg hs
          obtain ⟨rest, ws, rfl, hsame', hbound', hnumbers'⟩ := ih hreg' h
          refine ⟨r.1 :: rest, vs ++ ws, by simp, ?_, .cons hbound hbound',
            hnumbers.append hnumbers'⟩
          rw [List.map_cons, List.map_cons, hsame, hsame']

theorem checkBlock_annotates (hstep : StepAnnotates step) {xs xs' : List Stmt}
    (hreg : ctx.Regular) (h : checkBlock step ctx xs = .ok (xs', ctx')) :
    xs'.map erase = xs.map erase ∧
      (∃ vs, BlockBound ctx.findVariable? xs' vs ∧ ctx.Numbers vs ctx') ∧
      ctx'.findVariable? = ctx.findVariable? ∧ ctx'.Regular := by
  rw [checkBlock] at h
  cases hc : checkEach step ctx.push [] xs with
  | mk inner r =>
      rw [hc] at h
      cases r with
      | error v => cases h
      | ok body =>
          cases h
          obtain ⟨rest, vs, rfl, hsame, hbound, hnumbers⟩ :=
            checkEach_annotates hstep hreg.push hc
          exact ⟨hsame, ⟨vs, hbound, hnumbers⟩, rfl, hreg.leave inner⟩

theorem checkCases_annotates (hstep : StepAnnotates step) {T : Ty} {cases done cases' : List Case}
    (hreg : ctx.Regular) (h : checkCases step depth T ctx done cases = .ok (cases', ctx')) :
    ∃ rest vs, cases' = done.reverse ++ rest ∧ rest.map Case.erase = cases.map Case.erase ∧
      CasesBound ctx.findVariable? rest vs ∧ ctx.Numbers vs ctx' ∧
      ctx'.findVariable? = ctx.findVariable? ∧ ctx'.Regular := by
  induction cases generalizing ctx done with
  | nil =>
      cases h
      exact ⟨[], [], (List.append_nil _).symm, rfl, .nil, .nil, rfl, hreg⟩
  | cons c cases ih =>
      obtain ⟨offset, value, body⟩ := c
      have hcase {value' : Option Expr} {body' : List Stmt} {ctx₁ : Context}
          (hsame : value'.map Expr.erase = value.map Expr.erase)
          (hbound : Expr.OptionBound ctx.findVariable? value')
          (hbody : checkBlock step ctx body = .ok (body', ctx₁))
          (hrest : checkCases step depth T ctx₁ (.mk offset value' body' :: done) cases =
            .ok (cases', ctx')) :
          ∃ rest vs, cases' = done.reverse ++ rest ∧
            rest.map Case.erase = (Case.mk offset value body :: cases).map Case.erase ∧
            CasesBound ctx.findVariable? rest vs ∧ ctx.Numbers vs ctx' ∧
            ctx'.findVariable? = ctx.findVariable? ∧ ctx'.Regular := by
        obtain ⟨hsameBody, ⟨vs, hboundBody, hnumbers⟩, hfind, hreg₁⟩ :=
          checkBlock_annotates hstep hreg hbody
        obtain ⟨rest, ws, rfl, hsame', hbound', hnumbers', hfind', hreg'⟩ := ih hreg₁ hrest
        rw [hfind] at hbound' hfind'
        refine ⟨.mk offset value' body' :: rest, vs ++ ws, by simp, ?_,
          .cons hbound hboundBody hbound', hnumbers.append hnumbers', hfind', hreg'⟩
        simp only [List.map_cons, Case.erase, eraseEach_eq_map, hsame, hsameBody, hsame']
      cases value with
      | none =>
          simp only [checkCases_default, Check.bind_eq_ok, Prod.exists] at h
          obtain ⟨body', ctx₁, hbody, hrest⟩ := h
          refine hcase rfl ?_ hbody hrest
          rintro _ ⟨⟩
      | some e =>
          simp only [checkCases_value, Check.bind_eq_ok, Prod.exists] at h
          obtain ⟨S, e', he, _, _, body', ctx₁, hbody, hrest⟩ := h
          obtain ⟨hsame, hbound⟩ := Expr.check_annotates hreg he
          have hsame' : (some e').map Expr.erase = (some e).map Expr.erase := congrArg some hsame
          refine hcase hsame' ?_ hbody hrest
          rintro e₁ ⟨⟩
          exact hbound

theorem check_annotates (depth : Nat) : StepAnnotates (check returns depth) := by
  induction depth with
  | zero => exact fun _ h => (Check.throw_eq_ok.mp h).elim
  | succ depth ih =>
      intro ctx x x' ctx' hreg h
      cases x with
      | expression offset value =>
          simp only [check, Check.throw_bind, Check.ite_throw_eq_ok, Check.bind_eq_ok,
            Check.pure_eq_ok, Prod.mk.injEq, Prod.exists] at h
          obtain ⟨_, T, value', hvalue, rfl, rfl⟩ := h
          obtain ⟨hsame, hbound⟩ := Expr.check_annotates hreg hvalue
          exact .of_expr hreg (by simp only [erase, hsame]) (.expression hbound)
      | declaration offset name typeName value slot => exact checkDeclaration_annotates hreg h
      | assignment offset receiver value =>
          simp only [check, Check.bind_eq_ok, Check.pure_eq_ok, Prod.mk.injEq] at h
          obtain ⟨x', hx, rfl, rfl⟩ := h
          exact checkAssignment_annotates hreg hx
      | ifElse offset condition thenBody elseBody =>
          simp only [check, Check.throw_bind, Check.ite_throw_eq_ok, Check.bind_eq_ok,
            Check.pure_eq_ok, Prod.mk.injEq, Prod.exists] at h
          obtain ⟨condition', hcond, _, then', ctx₁, hthen, else', ctx₂, helse, rfl, rfl⟩ := h
          obtain ⟨hsame, hbound⟩ := checkCondition_annotates hreg hcond
          obtain ⟨hsame₁, ⟨vs, hbound₁, hnumbers₁⟩, hfind₁, hreg₁⟩ := checkBlock_annotates ih hreg hthen
          obtain ⟨hsame₂, ⟨ws, hbound₂, hnumbers₂⟩, hfind₂, hreg₂⟩ := checkBlock_annotates ih hreg₁ helse
          rw [hfind₁] at hbound₂ hfind₂
          refine ⟨by simp only [erase, eraseEach_eq_map, hsame, hsame₁, hsame₂],
            ⟨vs ++ ws, ?_, hnumbers₁.append hnumbers₂⟩, hreg₂⟩
          rw [hfind₂]
          exact .ifElse hbound hbound₁ hbound₂
      | switch offset condition cases =>
          simp only [check, Check.throw_bind, Check.ite_throw_eq_ok, Check.bind_eq_ok,
            Check.pure_eq_ok, Prod.mk.injEq, Prod.exists] at h
          obtain ⟨T, condition', hcond, cases', ctx₁, hcases, _, rfl, rfl⟩ := h
          obtain ⟨hsame, hbound⟩ := Expr.check_annotates hreg hcond
          obtain ⟨rest, vs, rfl, hsame', hbound', hnumbers, hfind, hreg'⟩ :=
            checkCases_annotates ih hreg hcases
          refine ⟨?_, ⟨vs, ?_, hnumbers⟩, hreg'⟩
          · simp only [erase, Case.eraseEach_eq_map, hsame, hsame']
          · rw [hfind]
            exact .switch hbound hbound'
      | whileDo offset condition body =>
          simp only [check, Check.bind_eq_ok, Check.pure_eq_ok, Prod.mk.injEq, Prod.exists] at h
          obtain ⟨condition', hcond, body', ctx₁, hbody, rfl, rfl⟩ := h
          obtain ⟨hsame, hbound⟩ := checkCondition_annotates hreg hcond
          obtain ⟨hsame', ⟨vs, hbound', hnumbers⟩, hfind, hreg'⟩ := checkBlock_annotates ih hreg hbody
          refine ⟨by simp only [erase, eraseEach_eq_map, hsame, hsame'], ⟨vs, ?_, hnumbers⟩, hreg'⟩
          rw [hfind]
          exact .whileDo hbound hbound'
      | ret offset value =>
          simp only [check, Check.bind_eq_ok, Check.pure_eq_ok, Prod.mk.injEq] at h
          obtain ⟨r, hr, _, _, rfl, rfl⟩ := h
          obtain ⟨hsame, hbound⟩ := checkOptional_annotates hreg hr
          exact .of_expr hreg (by simp only [erase, hsame]) (.ret hbound)
      | unknown start node => exact (Check.throw_eq_ok.mp h).elim

end Stmt

theorem Global.check_annotates {ctx ctx' : Context} {depth : Nat} (hreg : ctx.Regular)
    {g g' : Global} (h : g.check depth ctx = .ok (g', ctx')) :
    g'.erase = g.erase ∧ (∃ v, g'.slot = some v ∧ v.name = g'.name ∧ ctx.Numbers [v] ctx' ∧
      ctx'.findVariable? = Symbols.declare ctx.findVariable? v) ∧
      Expr.OptionBound ctx.findVariable? g'.value ∧ ctx'.Regular := by
  obtain ⟨offset, name, typeName, mutable, value, slot⟩ := g
  cases value with
  | none =>
      simp only [check_bare, Check.bind_eq_ok, Check.pure_eq_ok, Prod.exists, Prod.mk.injEq] at h
      obtain ⟨T, _, v, ctx', hdecl, rfl, rfl⟩ := h
      obtain ⟨⟨hname, _⟩, hfind, hnumbers, hreg'⟩ := Context.declare_annotates hreg hdecl
      exact ⟨rfl, ⟨v, rfl, hname, hnumbers, hfind⟩, nofun, hreg'⟩
  | some e =>
      simp only [check_value, Check.bind_eq_ok, Check.pure_eq_ok, Prod.exists, Prod.mk.injEq] at h
      obtain ⟨T, _, S, e', he, _, _, v, ctx', hdecl, rfl, rfl⟩ := h
      obtain ⟨⟨hname, _⟩, hfind, hnumbers, hreg'⟩ := Context.declare_annotates hreg hdecl
      obtain ⟨hsame, hbound⟩ := Expr.check_annotates hreg he
      refine ⟨by simp only [erase, Option.map_some, hsame], ⟨v, rfl, hname, hnumbers, hfind⟩, ?_,
        hreg'⟩
      rintro e₁ ⟨⟩
      exact hbound

namespace Function

variable {ctx ctx' : Context} {depth : Nat}

theorem declareParameters_annotates (hreg : ctx.Regular) {offset : Nat}
    {parameters : List (String × Ty)} (h : declareParameters ctx offset parameters = .ok ctx') :
    ∃ vs, vs.map (fun v => (v.name, v.type)) = parameters ∧ ctx.Numbers vs ctx' ∧
      ctx'.findVariable? = vs.foldl Symbols.declare ctx.findVariable? ∧ ctx'.Regular := by
  induction parameters generalizing ctx with
  | nil =>
      cases h
      exact ⟨[], rfl, .nil, rfl, hreg⟩
  | cons p parameters ih =>
      obtain ⟨name, T⟩ := p
      simp only [declareParameters, Check.bind_eq_ok, Prod.exists] at h
      obtain ⟨v, ctx₁, hdecl, hrest⟩ := h
      obtain ⟨⟨rfl, rfl⟩, hfind, hnumbers, hreg₁⟩ := Context.declare_annotates hreg hdecl
      obtain ⟨vs, rfl, hnumbers', hfind', hreg'⟩ := ih hreg₁ hrest
      refine ⟨v :: vs, rfl, hnumbers.append hnumbers', ?_, hreg'⟩
      rw [hfind', hfind, List.foldl_cons]

theorem checkBody_annotates (hreg : ctx.Regular) {f f' : Function} {s : Signature}
    (hs : f.Declares s) (h : f.checkBody depth ctx s = .ok (f', ctx')) :
    f'.erase = f.erase ∧ (∃ vs, f'.Bound ctx.findVariable? vs ∧ ctx.Numbers vs ctx') ∧
      ctx'.findVariable? = ctx.findVariable? ∧ ctx'.Regular := by
  simp only [checkBody, Check.bind_eq_ok] at h
  obtain ⟨inner, hparams, h⟩ := h
  obtain ⟨vs, hvs, hnumbers, hfind, hinner⟩ := declareParameters_annotates hreg.push hparams
  cases hc : Stmt.checkEach (Stmt.check s.returns depth) inner [] f.body with
  | mk last r =>
      rw [hc] at h
      cases r with
      | error v => cases h
      | ok body =>
          cases h
          obtain ⟨rest, ws, rfl, hsame, hbound, hnumbers'⟩ :=
            Stmt.checkEach_annotates (Stmt.check_annotates depth) hinner hc
          rw [hfind] at hbound
          have hnames : vs.map (fun v => (v.name, v.type.name)) =
              f.parameters.zip f.parameterTypes := by
            rw [← hs.2.2.1, List.zip_map_right, ← hvs, List.map_map]
            rfl
          refine ⟨by simp only [erase, hsame],
            ⟨vs ++ ws, ⟨vs, ws, rfl, hnames, hbound⟩, ?_⟩, rfl, hreg.leave last⟩
          exact hnumbers.append hnumbers'

end Function

namespace Program

variable {ctx ctx' : Context} {depth : Nat}

theorem checkGlobals_annotates {gs done gs' : List Global} (hreg : ctx.Regular)
    (h : checkGlobals depth ctx done gs = .ok (gs', ctx')) :
    ∃ rest vs, gs' = done.reverse ++ rest ∧ rest.map Global.erase = gs.map Global.erase ∧
      Global.ListBound ctx.findVariable? rest vs ctx'.findVariable? ∧ ctx.Numbers vs ctx' ∧
      ctx'.Regular := by
  induction gs generalizing ctx done with
  | nil =>
      cases h
      exact ⟨[], [], (List.append_nil _).symm, rfl, .nil, .nil, hreg⟩
  | cons g gs ih =>
      simp only [checkGlobals, Check.bind_eq_ok, Prod.exists] at h
      obtain ⟨g', ctx₁, hg, hrest⟩ := h
      obtain ⟨hsame, ⟨v, hslot, hname, hnumbers, hfind⟩, hbound, hreg₁⟩ := g.check_annotates hreg hg
      obtain ⟨rest, vs, rfl, hsame', hbound', hnumbers', hreg'⟩ := ih hreg₁ hrest
      rw [hfind] at hbound'
      refine ⟨g' :: rest, v :: vs, by simp, ?_, .cons hbound hslot hname hbound',
        hnumbers.append hnumbers', hreg'⟩
      rw [List.map_cons, List.map_cons, hsame, hsame']

theorem checkBodies_annotates (hreg : ctx.Regular) {fs done fs' : List Function}
    {signatures : List Signature} (hdecl : List.Forall₂ Function.Declares fs signatures)
    (h : checkBodies depth ctx done (fs.zip signatures) = .ok fs') :
    ∃ rest wss, fs' = done.reverse ++ rest ∧ rest.map Function.erase = fs.map Function.erase ∧
      List.Forall₂ (Function.Bound ctx.findVariable?) rest wss ∧
      ∃ ctx', ctx.Numbers wss.flatten ctx' := by
  induction hdecl generalizing ctx done with
  | nil =>
      cases h
      exact ⟨[], [], (List.append_nil _).symm, rfl, .nil, ctx, .nil⟩
  | @cons f s fs signatures hf _ ih =>
      simp only [List.zip_cons_cons, checkBodies, Check.bind_eq_ok, Prod.exists] at h
      obtain ⟨f', ctx₁, hbody, hrest⟩ := h
      obtain ⟨hsame, ⟨vs, hbound, hnumbers⟩, hfind, hreg₁⟩ := f.checkBody_annotates hreg hf hbody
      obtain ⟨rest, wss, rfl, hsame', hbound', ctx', hnumbers'⟩ := ih hreg₁ hrest
      rw [hfind] at hbound'
      refine ⟨f' :: rest, vs :: wss, by simp, ?_, .cons hbound hbound', ctx',
        hnumbers.append hnumbers'⟩
      rw [List.map_cons, List.map_cons, hsame, hsame']

theorem foldl_fresh (ctx : Context) (signatures : List Signature) :
    (signatures.foldl Context.putFunction ctx).fresh = ctx.fresh := by
  induction signatures generalizing ctx with
  | nil => rfl
  | cons s signatures ih => exact ih (ctx.putFunction s)

/-- An accepted program is given back with its symbols, each of which is created once. -/
theorem checkWithin_annotates {p q : Program} (h : p.checkWithin depth = .ok q) :
    q.erase = p.erase ∧ ∃ created, q.Bound created ∧ (created.map Variable.id).Nodup := by
  simp only [checkWithin, Check.bind_eq_ok, Check.pure_eq_ok, Prod.exists] at h
  obtain ⟨globals, ctx, hglobals, pairs, ctx', hdeclared, _, _, functions, hbodies, rfl⟩ := h
  have hfuns := checkGlobals_functions hglobals .outermost
  obtain ⟨globals, vs, rfl, hsame, hbound, hnumbers, hreg⟩ :=
    checkGlobals_annotates .outermost hglobals
  obtain ⟨signatures, hnew, rfl, rfl⟩ := (declareFunctions_eq_ok hfuns).mp hdeclared
  obtain ⟨_, hreg'⟩ := foldl_env hfuns hreg hnew
  obtain ⟨functions, wss, rfl, hsame', hbound', last, hnumbers'⟩ :=
    checkBodies_annotates hreg' hnew.1 hbodies
  rw [(foldl_variables ctx signatures).1] at hbound'
  have hall : Context.outermost.Numbers (vs ++ wss.flatten) last := by
    refine hnumbers.append ?_
    rwa [Context.Numbers, foldl_fresh] at hnumbers'
  refine ⟨?_, vs ++ wss.flatten, ⟨ctx.findVariable?, vs, wss, rfl, hbound, hbound'⟩, hall.nodup⟩
  simp only [erase, hsame, hsame']

end Program

end PlcLang
