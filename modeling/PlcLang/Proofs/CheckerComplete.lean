import PlcLang.Proofs.CheckerSound

namespace PlcLang

namespace Check

variable {α β : Type} {short : Prop} {x : Check α} {P : α → Prop} {Q : β → Prop}

/-- The check succeeds with a result as described, or the budget is too short for it. -/
def Settles (short : Prop) (x : Check α) (P : α → Prop) : Prop :=
  (∃ a, x = .ok a ∧ P a) ∨ short ∧ x = .error ⟨.tooDeep, none⟩

theorem Settles.of_ok {a : α} (hx : x = .ok a) (ha : P a) : Settles short x P := .inl ⟨a, hx, ha⟩

theorem Settles.pure {a : α} (ha : P a) : Settles short (Pure.pure a) P := .of_ok rfl ha

theorem Settles.bind {f : α → Check β} (hx : Settles short x P)
    (hf : ∀ a, x = .ok a → P a → Settles short (f a) Q) : Settles short (x >>= f) Q := by
  obtain ⟨a, rfl, ha⟩ | ⟨hs, rfl⟩ := hx
  · exact hf a rfl ha
  · exact .inr ⟨hs, rfl⟩

theorem Settles.bind_ok {f : α → Check β} {a : α} (hx : x = .ok a) (hf : Settles short (f a) Q) :
    Settles short (x >>= f) Q := by
  subst hx
  exact hf

theorem Settles.mono {short' : Prop} (hx : Settles short x P) (hs : short → short') :
    Settles short' x P :=
  hx.imp_right fun h => ⟨hs h.1, h.2⟩

theorem Settles.part {depth m n : Nat} (hx : Settles (depth ≤ m) x P) (h : m < n) :
    Settles (depth + 1 ≤ n) x P :=
  hx.mono fun hs => Nat.lt_of_le_of_lt hs h

theorem Settles.mapM {f : α → Check β} {as : List α}
    (h : ∀ a ∈ as, Settles short (f a) fun _ => True) :
    Settles short (as.mapM f) fun _ => True := by
  induction as with
  | nil => exact .pure trivial
  | cons a as ih =>
      obtain ⟨hhead, htail⟩ := List.forall_mem_cons.mp h
      rw [List.mapM_cons]
      exact hhead.bind fun b _ _ => (ih htail).bind fun bs _ _ => .pure trivial

end Check

open Check

namespace Expr

variable {ctx : Context}

theorem lookup_of_vars {name : String} {b : Binding} (h : ctx.env.vars name = some b)
    (offset : Nat) : ∃ v, lookup ctx name offset = .ok v ∧ v.binding = b := by
  obtain ⟨v, hv, hb⟩ := Option.map_eq_some_iff.mp h
  exact ⟨v, lookup_eq_ok.mpr hv, hb⟩

theorem arguments_accepted {σ : Slots} {Γ : Env} {arguments : List Expr} {parameters types : List Ty}
    (hacc : List.Forall₂ Ty.Accepts parameters types)
    (hargs : ∀ p ∈ arguments.zip types, HasType σ Γ p.1 p.2) :
    ∀ p ∈ arguments.zip parameters, ∃ T, HasType σ Γ p.1 T ∧ p.2.Accepts T := by
  induction hacc generalizing arguments with
  | nil =>
      rw [List.zip_nil_right]
      exact nofun
  | @cons P T parameters types hP _ ih =>
      cases arguments with
      | nil => exact nofun
      | cons e es =>
          simp only [List.zip_cons_cons, List.forall_mem_cons] at hargs ⊢
          exact ⟨⟨T, hargs.1, hP⟩, ih hargs.2⟩

theorem check_complete {depth : Nat} {e : Expr} {T : Ty} (h : HasType .blank ctx.env e T) :
    Settles (depth ≤ sizeOf e) (e.check ctx depth) fun r => r.1 = T := by
  induction depth generalizing e T with
  | zero => exact .inr ⟨Nat.zero_le _, rfl⟩
  | succ depth ih =>
      cases h with
      | literal hv _ => exact .bind_ok (Literal.type_eq_ok.mpr hv) (.pure rfl)
      | group hinner _ =>
          refine ((ih hinner).part ?_).bind fun r _ hr => .pure hr
          simp only [group.sizeOf_spec]
          omega
      | @binary info op left right L R T hleft hright hop _ =>
          refine ((ih hleft).part ?_).bind ?_
          · simp only [binary.sizeOf_spec]
            omega
          rintro ⟨_, left'⟩ _ rfl
          refine ((ih hright).part ?_).bind ?_
          · simp only [binary.sizeOf_spec]
            omega
          rintro ⟨_, right'⟩ _ rfl
          exact .bind_ok (hop.type_eq _ _) (.pure rfl)
      | @access info name slot b hvar _ _ =>
          obtain ⟨v, hv, rfl⟩ := lookup_of_vars hvar info.offset
          exact .bind_ok hv (.pure rfl)
      | @element info name index slot b hvar hindex _ _ =>
          obtain ⟨v, hv, rfl⟩ := lookup_of_vars hvar info.offset
          refine .bind_ok hv (((ih hindex).part ?_).bind ?_)
          · simp only [element.sizeOf_spec]
            omega
          rintro ⟨_, index'⟩ _ rfl
          exact .bind_ok (sameType_eq_ok (u := ()).mpr rfl) (.pure rfl)
      | @call info name arguments slot s types hs hacc _ hargs _ _ =>
          refine .bind_ok (lookupFunction_eq_ok.mpr hs) (Settles.bind (.mapM ?_) ?_)
          · rintro ⟨argument, parameter⟩ hp
            obtain ⟨T, hT, hP⟩ := arguments_accepted hacc hargs _ hp
            refine ((ih hT).part ?_).bind ?_
            · have hsize := List.sizeOf_lt_of_mem (List.of_mem_zip hp).1
              simp only [call.sizeOf_spec]
              omega
            rintro ⟨_, argument'⟩ _ rfl
            exact .bind_ok (fits_eq_ok (u := ()).mpr hP) (.pure trivial)
          · exact fun _ _ _ => .pure rfl
      | @list info elements T hne hall _ =>
          cases elements with
          | nil => exact absurd rfl hne
          | cons first others =>
              obtain ⟨hfirst, hothers⟩ := List.forall_mem_cons.mp hall
              refine ((ih hfirst).part ?_).bind ?_
              · simp only [list.sizeOf_spec, List.cons.sizeOf_spec]
                omega
              rintro ⟨_, first'⟩ _ rfl
              refine Settles.bind (.mapM fun other hmem => ?_) fun _ _ _ => .pure rfl
              refine ((ih (hothers other hmem)).part ?_).bind ?_
              · have hsize := List.sizeOf_lt_of_mem hmem
                simp only [list.sizeOf_spec, List.cons.sizeOf_spec]
                omega
              rintro ⟨_, other'⟩ _ rfl
              exact .bind_ok (sameType_eq_ok (u := ()).mpr rfl) (.pure trivial)

end Expr

namespace Stmt

variable {ctx : Context} {returns : Ty} {step : Context → Stmt → Check (Stmt × Context)}

/-- The context behind a statement stands for the environment behind it. -/
def Behind (Γ : Env) (ctx : Context) : Prop := ctx.env = Γ ∧ ctx.Regular

theorem declare_complete (hreg : ctx.Regular) {name : String} (hown : name ∉ ctx.env.own) (T : Ty)
    (mutable : Bool) (offset : Nat) :
    ∃ r, ctx.declare name T mutable offset = .ok r ∧
      Behind (ctx.env.declare name ⟨T, mutable⟩) r.2 :=
  ⟨ctx.putVariable name T mutable, Context.declare_eq_ok.mpr ⟨hown, rfl⟩,
    Context.env_putVariable hreg.frames_ne_nil name T mutable, hreg.putVariable name T mutable⟩

theorem checkCondition_complete {depth : Nat} {e : Expr}
    (h : Expr.HasType .blank ctx.env e .boolean) :
    Settles (depth ≤ sizeOf e) (checkCondition ctx depth e) fun _ => True := by
  refine (Expr.check_complete h).bind ?_
  rintro ⟨_, e'⟩ _ rfl
  exact .bind_ok (sameType_eq_ok (u := ()).mpr rfl) (.pure trivial)

theorem mutable_of_vars {name : String} {v : Variable} {T : Ty} (hv : ctx.findVariable? name = some v)
    (h : ctx.env.vars name = some ⟨T, true⟩) : v.mutable = true := by
  simp only [Context.env, hv, Option.map_some, Option.some.injEq] at h
  exact congrArg Binding.mutable h

theorem checkAssigned_complete {depth offset : Nat} {receiver value : Expr} {T S : Ty}
    (hvalue : Expr.HasType .blank ctx.env value S) (hacc : T.Accepts S) :
    Settles (depth ≤ sizeOf value)
      (do
        let r ← value.check ctx depth
        fits T r.1 r.2.offset
        return assignment offset receiver r.2) fun _ => True := by
  refine (Expr.check_complete hvalue).bind ?_
  rintro ⟨_, value'⟩ _ rfl
  exact .bind_ok (fits_eq_ok (u := ()).mpr hacc) (.pure trivial)

theorem checkAssignment_access {depth offset : Nat} {info : Info} {name : String}
    {slot : Option Variable} {value : Expr} {T S : Ty}
    (hrec : Expr.HasType .blank ctx.env (.access info name slot) T)
    (hmut : ctx.env.vars name = some ⟨T, true⟩) (hvalue : Expr.HasType .blank ctx.env value S)
    (hacc : T.Accepts S) :
    Settles (depth ≤ sizeOf (Expr.access info name slot) ∨ depth ≤ sizeOf value)
      (checkAssignment ctx depth offset (.access info name slot) value) fun _ => True := by
  refine ((Expr.check_complete hrec).mono .inl).bind ?_
  rintro ⟨_, receiver'⟩ hok rfl
  obtain ⟨v, hv, _, rfl⟩ := Expr.check_access_shape hok
  simp only [mutable_of_vars hv hmut]
  exact (checkAssigned_complete hvalue hacc).mono .inr

theorem checkAssignment_element {depth offset : Nat} {info : Info} {name : String} {index : Expr}
    {slot : Option Variable} {value : Expr} {T S : Ty}
    (hrec : Expr.HasType .blank ctx.env (.element info name index slot) T)
    (hmut : ctx.env.vars name = some ⟨T, true⟩) (hvalue : Expr.HasType .blank ctx.env value S)
    (hacc : T.Accepts S) :
    Settles (depth ≤ sizeOf (Expr.element info name index slot) ∨ depth ≤ sizeOf value)
      (checkAssignment ctx depth offset (.element info name index slot) value) fun _ => True := by
  refine ((Expr.check_complete hrec).mono .inl).bind ?_
  rintro ⟨_, receiver'⟩ hok rfl
  obtain ⟨v, index', hv, _, rfl⟩ := Expr.check_element_shape hok
  simp only [mutable_of_vars hv hmut]
  exact (checkAssigned_complete hvalue hacc).mono .inr

/-- What follows the rules is accepted by a step for single statements, in a context from which the
next statement can be checked. -/
def StepComplete (returns : Ty) (depth : Nat) (step : Context → Stmt → Check (Stmt × Context)) :
    Prop :=
  ∀ {ctx : Context} {stmt : Stmt} {Γ : Env}, ctx.Regular → Typed .blank returns ctx.env stmt Γ →
    Settles (depth ≤ sizeOf stmt) (step ctx stmt) fun r => Behind Γ r.2

theorem checkEach_complete {depth : Nat} (hstep : StepComplete returns depth step)
    {stmts : List Stmt} (done : List Stmt) (hreg : ctx.Regular)
    (h : BlockTyped .blank returns ctx.env stmts) :
    Settles (depth ≤ sizeOf stmts) (checkEach step ctx done stmts).2 fun _ => True := by
  induction stmts generalizing ctx done with
  | nil => exact .of_ok rfl trivial
  | cons stmt stmts ih =>
      cases h with
      | cons hstmt hrest =>
          obtain ⟨⟨stmt', ctx'⟩, hok, rfl, hreg'⟩ | ⟨hs, herr⟩ := hstep hreg hstmt
          · simp only [checkEach, hok]
            refine (ih _ hreg' hrest).mono fun hs => ?_
            simp only [List.cons.sizeOf_spec]
            omega
          · simp only [checkEach, herr]
            refine .inr ⟨?_, rfl⟩
            simp only [List.cons.sizeOf_spec]
            omega

theorem checkBlock_complete {depth : Nat} (hstep : StepComplete returns depth step)
    {stmts : List Stmt} (hreg : ctx.Regular) (h : BlockTyped .blank returns ctx.env.enter stmts) :
    Settles (depth ≤ sizeOf stmts) (checkBlock step ctx stmts) fun r => Behind ctx.env r.2 := by
  rw [← Context.env_push] at h
  have heach := checkEach_complete hstep [] hreg.push h
  rw [checkBlock]
  cases hc : checkEach step ctx.push [] stmts with
  | mk inner r =>
      rw [hc] at heach
      obtain ⟨body, rfl, _⟩ | ⟨hs, rfl⟩ := heach
      · exact .of_ok rfl ⟨rfl, hreg.leave inner⟩
      · exact .inr ⟨hs, rfl⟩

theorem checkCases_complete {depth : Nat} (hstep : StepComplete returns depth step) {T : Ty}
    {cases : List Case} (done : List Case) (hreg : ctx.Regular)
    (h : CasesTyped .blank returns ctx.env T cases) :
    Settles (depth ≤ sizeOf cases) (checkCases step depth T ctx done cases)
      fun r => Behind ctx.env r.2 := by
  induction cases generalizing ctx done with
  | nil => exact .pure ⟨rfl, hreg⟩
  | cons c cases ih =>
      obtain ⟨offset, value, body⟩ := c
      obtain ⟨hvalue, hvalues⟩ := List.forall_mem_cons.mp h.1
      obtain ⟨hbody, hbodies⟩ := List.forall_mem_cons.mp h.2
      have hrest (ctx₁ : Context) (hctx₁ : Behind ctx.env ctx₁) (done : List Case) :
          Settles (depth ≤ sizeOf (Case.mk offset value body :: cases))
            (checkCases step depth T ctx₁ done cases) fun r => Behind ctx.env r.2 := by
        obtain ⟨henv, hreg₁⟩ := hctx₁
        have hcases : CasesTyped .blank returns ctx₁.env T cases := henv ▸ ⟨hvalues, hbodies⟩
        have hsettles := ih done hreg₁ hcases
        rw [henv] at hsettles
        refine hsettles.mono fun hs => ?_
        simp only [List.cons.sizeOf_spec]
        omega
      have hblock : Settles (depth ≤ sizeOf (Case.mk offset value body :: cases))
          (checkBlock step ctx body) fun r => Behind ctx.env r.2 := by
        refine (checkBlock_complete hstep hreg hbody).mono fun hs => ?_
        simp only [Case.body] at hs
        simp only [List.cons.sizeOf_spec, Case.mk.sizeOf_spec]
        omega
      cases value with
      | none =>
          rw [checkCases_default]
          exact hblock.bind fun r _ hr => hrest r.2 hr _
      | some e =>
          rw [checkCases_value]
          refine ((Expr.check_complete (hvalue e rfl)).mono fun hs => ?_).bind ?_
          · simp only [List.cons.sizeOf_spec, Case.mk.sizeOf_spec, Option.some.sizeOf_spec]
            omega
          rintro ⟨_, e'⟩ _ rfl
          refine .bind_ok (sameType_eq_ok (u := ()).mpr rfl) ?_
          exact hblock.bind fun r _ hr => hrest r.2 hr _

theorem check_complete (depth : Nat) : StepComplete returns depth (check returns depth) := by
  induction depth with
  | zero => exact fun _ _ => .inr ⟨Nat.zero_le _, rfl⟩
  | succ depth ih =>
      intro ctx stmt Γ hreg h
      cases h with
      | expression hcall =>
          refine ((Expr.check_complete hcall).part ?_).bind fun r _ _ => .pure ⟨rfl, hreg⟩
          simp only [expression.sizeOf_spec]
          omega
      | @declarationOfType _ offset name slot T hown _ =>
          obtain ⟨r, hr, hbehind⟩ := declare_complete hreg hown T true offset
          simp only [check, checkDeclaration_type]
          exact .bind_ok (namedType_eq_ok.mpr rfl) (.bind_ok hr (.pure hbehind))
      | @declarationOfValue _ offset name value slot T hvalue hown _ =>
          obtain ⟨r, hr, hbehind⟩ := declare_complete hreg hown T true offset
          simp only [check, checkDeclaration_value]
          refine ((Expr.check_complete hvalue).part ?_).bind ?_
          · simp only [declaration.sizeOf_spec, Option.some.sizeOf_spec]
            omega
          rintro ⟨_, value'⟩ _ rfl
          exact .bind_ok hr (.pure hbehind)
      | @declarationOfBoth _ offset name value slot T S hvalue hacc hown _ =>
          obtain ⟨r, hr, hbehind⟩ := declare_complete hreg hown T true offset
          simp only [check, checkDeclaration_both]
          refine .bind_ok (namedType_eq_ok.mpr rfl) (((Expr.check_complete hvalue).part ?_).bind ?_)
          · simp only [declaration.sizeOf_spec, Option.some.sizeOf_spec]
            omega
          rintro ⟨_, value'⟩ _ rfl
          exact .bind_ok (fits_eq_ok (u := ()).mpr hacc) (.bind_ok hr (.pure hbehind))
      | assignment hrec hmut hvalue hacc =>
          refine ((checkAssignment_access hrec hmut hvalue hacc).mono fun hs => ?_).bind
            fun _ _ _ => .pure ⟨rfl, hreg⟩
          simp only [assignment.sizeOf_spec]
          omega
      | elementAssignment hrec hmut hvalue hacc =>
          refine ((checkAssignment_element hrec hmut hvalue hacc).mono fun hs => ?_).bind
            fun _ _ _ => .pure ⟨rfl, hreg⟩
          simp only [assignment.sizeOf_spec]
          omega
      | @ifElse _ offset condition thenBody elseBody hcond hne hthen helse =>
          refine ((checkCondition_complete hcond).part ?_).bind fun condition' _ _ => ?_
          · simp only [ifElse.sizeOf_spec]
            omega
          rw [if_neg fun hempty => hne (List.isEmpty_iff.mp hempty)]
          refine ((checkBlock_complete ih hreg hthen).part ?_).bind ?_
          · simp only [ifElse.sizeOf_spec]
            omega
          rintro ⟨then', ctx₁⟩ _ ⟨henv₁, hreg₁⟩
          have helse₁ : BlockTyped .blank returns ctx₁.env.enter elseBody := henv₁ ▸ helse
          refine ((checkBlock_complete ih hreg₁ helse₁).part ?_).bind fun r _ hr => .pure ?_
          · simp only [ifElse.sizeOf_spec]
            omega
          · exact ⟨hr.1.trans henv₁, hr.2⟩
      | @switch _ offset condition cases T last hcond hvalues hbodies hl hv =>
          refine ((Expr.check_complete hcond).part ?_).bind ?_
          · simp only [switch.sizeOf_spec]
            omega
          rintro ⟨_, condition'⟩ _ rfl
          refine ((checkCases_complete ih [] hreg ⟨hvalues, hbodies⟩).part ?_).bind fun r _ hr => ?_
          · simp only [switch.sizeOf_spec]
            omega
          simp only [last_is_default.mpr ⟨last, hl, hv⟩]
          exact .pure hr
      | whileDo hcond hbody =>
          refine ((checkCondition_complete hcond).part ?_).bind fun condition' _ _ => ?_
          · simp only [whileDo.sizeOf_spec]
            omega
          refine ((checkBlock_complete ih hreg hbody).part ?_).bind fun r _ hr => .pure hr
          simp only [whileDo.sizeOf_spec]
          omega
      | bareReturn hacc =>
          refine .bind_ok rfl ?_
          exact .bind_ok (fits_eq_ok (u := ()).mpr hacc) (.pure ⟨rfl, hreg⟩)
      | @valueReturn _ offset value S hvalue hacc =>
          simp only [check, checkOptional, bind_assoc, pure_bind]
          refine ((Expr.check_complete hvalue).part ?_).bind ?_
          · simp only [ret.sizeOf_spec, Option.some.sizeOf_spec]
            omega
          rintro ⟨_, value'⟩ _ rfl
          exact .bind_ok (fits_eq_ok (u := ()).mpr hacc) (.pure ⟨rfl, hreg⟩)

end Stmt

theorem Global.check_complete {depth : Nat} {ctx : Context} (hreg : ctx.Regular) {g : Global}
    {T : Ty} (h : g.Typed .blank ctx.env T) :
    Settles (depth ≤ sizeOf g) (g.check depth ctx) fun r =>
      Stmt.Behind (ctx.env.declare g.name ⟨T, g.mutable⟩) r.2 := by
  obtain ⟨offset, name, typeName, mutable, value, slot⟩ := g
  obtain ⟨hname, hvalue, hown, _⟩ := h
  obtain ⟨r, hr, hbehind⟩ := Stmt.declare_complete hreg hown T mutable offset
  cases value with
  | none =>
      rw [check_bare]
      exact .bind_ok (namedType_eq_ok.mpr hname) (.bind_ok hr (.pure hbehind))
  | some e =>
      obtain ⟨S, he, hacc⟩ := hvalue e rfl
      rw [check_value]
      refine .bind_ok (namedType_eq_ok.mpr hname)
        (((Expr.check_complete he).mono fun hs => ?_).bind ?_)
      · simp only [mk.sizeOf_spec, Option.some.sizeOf_spec]
        omega
      rintro ⟨_, e'⟩ _ rfl
      exact .bind_ok (fits_eq_ok (u := ()).mpr hacc) (.bind_ok hr (.pure hbehind))

theorem Function.checkBody_complete {depth : Nat} {ctx : Context} (hreg : ctx.Regular)
    {f : Function} {s : Signature} (h : f.BodyTyped .blank ctx.env s) :
    Settles (depth ≤ sizeOf f) (f.checkBody depth ctx s) fun r => Stmt.Behind ctx.env r.2 := by
  obtain ⟨hnodup, hbody, _⟩ := h
  have hfresh : ∀ p ∈ f.parameters.zip s.parameters, p.1 ∉ ctx.push.env.own := by
    rw [Context.env_push]
    exact fun _ _ h => h
  obtain ⟨inner, hinner⟩ := (declareParameters_ok_iff hreg.push f.offset).mpr
    ⟨hnodup, hfresh⟩
  obtain ⟨henv, hreg'⟩ := declareParameters_env hreg.push hinner
  rw [Context.env_push] at henv
  rw [← henv] at hbody
  have heach := Stmt.checkEach_complete (Stmt.check_complete depth) [] hreg' hbody
  refine .bind_ok hinner ?_
  cases hc : Stmt.checkEach (Stmt.check s.returns depth) inner [] f.body with
  | mk last r =>
      rw [hc] at heach
      obtain ⟨body, rfl, _⟩ | ⟨hs, rfl⟩ := heach
      · exact .pure ⟨rfl, hreg.leave last⟩
      · refine .inr ⟨?_, rfl⟩
        cases f
        simp only [mk.sizeOf_spec]
        dsimp only at hs
        omega

namespace Program

variable {depth : Nat} {ctx : Context}

theorem checkGlobals_complete {gs done : List Global} {Γ : Env} (hreg : ctx.Regular)
    (h : Global.ListTyped .blank ctx.env gs Γ) :
    Settles (depth ≤ sizeOf gs) (checkGlobals depth ctx done gs) fun r => Stmt.Behind Γ r.2 := by
  induction gs generalizing ctx done with
  | nil =>
      cases h
      exact .pure ⟨rfl, hreg⟩
  | cons g gs ih =>
      cases h with
      | cons hg hrest =>
          refine ((g.check_complete hreg hg).mono fun hs => ?_).bind ?_
          · simp only [List.cons.sizeOf_spec]
            omega
          rintro ⟨g', ctx'⟩ _ ⟨henv, hreg'⟩
          rw [← henv] at hrest
          refine (ih hreg' hrest).mono fun hs => ?_
          simp only [List.cons.sizeOf_spec]
          omega

theorem checkBodies_complete {fs done : List Function} {signatures : List Signature}
    (hreg : ctx.Regular)
    (h : List.Forall₂ (Function.BodyTyped .blank ctx.env) fs signatures) :
    Settles (depth ≤ sizeOf fs) (checkBodies depth ctx done (fs.zip signatures)) fun _ => True := by
  induction fs generalizing ctx done signatures with
  | nil => exact .pure trivial
  | cons f fs ih =>
      obtain ⟨s, signatures, hf, hfs, rfl⟩ := List.forall₂_cons_left_iff.mp h
      refine ((f.checkBody_complete hreg hf).mono fun hs => ?_).bind ?_
      · simp only [List.cons.sizeOf_spec]
        omega
      rintro ⟨f', ctx'⟩ _ ⟨henv, hreg'⟩
      rw [← henv] at hfs
      refine (ih hreg' hfs).mono fun hs => ?_
      simp only [List.cons.sizeOf_spec]
      omega

theorem checkWithin_complete {p : Program} (h : p.WellFormed) (depth : Nat) :
    Settles (depth ≤ sizeOf p) (p.checkWithin depth) fun _ => True := by
  obtain ⟨globals, functions⟩ := p
  obtain ⟨Γ, signatures, hglobals, hdecl, hnodup, hmain, hbodies⟩ := h
  rw [← Context.env_outermost] at hglobals
  refine ((checkGlobals_complete .outermost hglobals).mono fun hs => ?_).bind ?_
  · simp only [mk.sizeOf_spec]
    dsimp only at hs
    omega
  rintro ⟨globals', ctx⟩ hok ⟨rfl, hreg⟩
  have hfuns := checkGlobals_functions hok .outermost
  have hnew : NewSignatures [.print] functions signatures := by
    obtain ⟨hprint, hnodup⟩ := List.nodup_cons.mp hnodup
    refine ⟨hdecl, hnodup, fun s hs hkey => hprint ?_⟩
    rw [← List.mem_singleton.mp hkey]
    exact List.mem_map_of_mem hs
  obtain ⟨henv, hreg'⟩ := foldl_env hfuns hreg hnew
  have hfuns' := functions_foldl hfuns hnew.2.1 hnew.2.2
  rw [← henv] at hbodies
  refine .bind_ok ((declareFunctions_eq_ok hfuns).mpr ⟨signatures, hnew, rfl, rfl⟩) ?_
  refine .bind_ok ((requireMain_eq_ok (u := ()) hfuns' hnodup).mpr hmain) ?_
  refine ((checkBodies_complete hreg' hbodies).mono fun hs => ?_).bind fun _ _ _ => .pure trivial
  simp only [mk.sizeOf_spec]
  dsimp only at hs
  omega

theorem wellFormed_of_checkWithin {p q : Program} (h : p.checkWithin depth = .ok q) :
    p.WellFormed :=
  let everything : Ty → Prop := fun _ => True
  have hall : ∀ T, T.Concrete → everything T := fun _ _ => trivial
  (checkWithin_sound hall (fun _ _ => trivial) h).1

/-- The checker decides the type system: unless the program is nested too deeply, it is accepted if
and only if it follows the rules. For every program that follows them some budget is enough. -/
theorem check_iff_wellFormed (p : Program) :
    (p.check = .error ⟨.tooDeep, none⟩ ∨ ((∃ q, p.check = .ok q) ↔ p.WellFormed)) ∧
      ((∃ depth q, p.checkWithin depth = .ok q) ↔ p.WellFormed) := by
  refine ⟨?_, fun ⟨_, _, h⟩ => wellFormed_of_checkWithin h, fun h => ?_⟩
  · by_cases hp : p.WellFormed
    · obtain ⟨q, hq, _⟩ | ⟨_, hdeep⟩ := checkWithin_complete hp checkDepth
      · exact .inr ⟨fun _ => hp, fun _ => ⟨q, hq⟩⟩
      · exact .inl hdeep
    · exact .inr ⟨fun ⟨_, h⟩ => absurd (wellFormed_of_checkWithin h) hp, fun h => absurd h hp⟩
  · obtain ⟨q, hq, _⟩ | ⟨hshort, _⟩ := checkWithin_complete h (sizeOf p + 1)
    · exact ⟨_, q, hq⟩
    · omega

end Program

end PlcLang
