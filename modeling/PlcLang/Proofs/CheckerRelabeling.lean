import PlcLang.Proofs.ContextRelabeling

namespace PlcLang

variable {ρ : Relabeling}

/-- The second tree has the places that the relabeling gives, and numbers for the same variables. -/
def Expr.Like (ρ : Relabeling) (e e' : Expr) : Prop := e'.relabel ρ.renumbered = e.relabel ρ

def Stmt.Like (ρ : Relabeling) (x x' : Stmt) : Prop := x'.relabel ρ.renumbered = x.relabel ρ

def Case.Like (ρ : Relabeling) (c c' : Case) : Prop := c'.relabel ρ.renumbered = c.relabel ρ

def Global.Like (ρ : Relabeling) (g g' : Global) : Prop := g'.relabel ρ.renumbered = g.relabel ρ

def Function.Like (ρ : Relabeling) (f f' : Function) : Prop := f'.relabel ρ.renumbered = f.relabel ρ

section

variable {o o' : Nat}

theorem namedType_alike (name : String) (ho : o' = ρ.place o) :
    Check.Alike ρ Eq (namedType name o) (namedType name o') := by
  subst ho
  unfold namedType
  cases Ty.ofName? name with
  | none => exact .throw rfl
  | some T => exact .pure rfl

theorem fits_alike (T S : Ty) (ho : o' = ρ.place o) :
    Check.Alike ρ Eq (fits T S o) (fits T S o') := by
  subst ho
  exact .ite (.pure rfl) (.throw rfl)

theorem sameType_alike (T S : Ty) (ho : o' = ρ.place o) :
    Check.Alike ρ Eq (sameType T S o) (sameType T S o') := by
  subst ho
  exact .ite (.pure rfl) (.throw rfl)

theorem Literal.type_alike (value : Literal) (o : Nat) :
    Check.Alike ρ Eq (value.type o) (value.type (ρ.place o)) := by
  cases value with
  | nil | boolean | character | string => exact .pure rfl
  | integer | decimal => exact .ite (.pure rfl) (.throw rfl)

theorem BinOp.type_alike (op : BinOp) (L R : Ty) {a a' b b' : Nat} (ha : a' = ρ.place a)
    (hb : b' = ρ.place b) : Check.Alike ρ Eq (op.type L R a b) (op.type L R a' b') := by
  have hright := sameType_alike L R hb
  cases op with
  | and | or | pow =>
      exact (sameType_alike _ L ha).bind fun _ _ _ => (sameType_alike _ R hb).bind fun _ _ _ =>
        .pure rfl
  | eq | ne => exact hright.bind fun _ _ _ => .pure rfl
  | lt | gt =>
      subst ha
      exact .guard rfl (hright.bind fun _ _ _ => .pure rfl)
  | add | sub | mul | div =>
      subst ha
      rw [type, type]
      exact .ite (.pure rfl) (.guard rfl (hright.bind fun _ _ _ => .pure rfl))
  | other symbol => exact .throw rfl

end

namespace Expr

variable {ctx ctx' : Context} {e e' : Expr}

theorem isBinary_relabel (e : Expr) : (e.relabel ρ).isBinary = e.isBinary := by
  cases e <;> rfl

theorem isCall_relabel (e : Expr) : (e.relabel ρ).isCall = e.isCall := by
  cases e <;> rfl

theorem type_eq {v v' : Variable} (h : v'.relabel ρ = v.relabel ρ) : v'.type = v.type := by
  have hT := congrArg Variable.type h
  exact hT

theorem Like.offset (h : e.Like ρ e') : e'.offset = ρ.place e.offset := by
  rw [← offset_relabel, ← h, offset_relabel]
  rfl

theorem lookup_alike (h : ctx.Alike ρ ctx') (name : String) (o : Nat) :
    Check.Alike ρ (fun v v' => v'.relabel ρ = v.relabel ρ) (lookup ctx name o)
      (lookup ctx' name (ρ.place o)) := by
  have hfound := h.findVariable? name
  unfold lookup
  cases hv : ctx.findVariable? name with
  | none =>
      rw [hv, Option.map_none, Option.map_eq_none_iff] at hfound
      rw [hfound]
      exact .throw rfl
  | some v =>
      rw [hv, Option.map_some, Option.map_eq_some_iff] at hfound
      obtain ⟨v', hv', heq⟩ := hfound
      rw [hv']
      exact .pure heq

theorem lookupFunction_alike (h : ctx.Alike ρ ctx') (name : String) (arity o : Nat) :
    Check.Alike ρ Eq (lookupFunction ctx name arity o)
      (lookupFunction ctx' name arity (ρ.place o)) := by
  unfold lookupFunction
  rw [h.findFunction?, h.hasOverload]
  cases ctx.findFunction? name arity with
  | some s => exact .pure rfl
  | none => exact .ite (.throw rfl) (.throw rfl)

theorem check_alike (h : ctx.Alike ρ ctx') (depth : Nat) (e : Expr) :
    Check.Alike ρ (fun r r' => r.1 = r'.1 ∧ r.2.Like ρ r'.2) (e.check ctx depth)
      ((e.relabel ρ).check ctx' depth) := by
  induction depth generalizing e with
  | zero => exact .throw rfl
  | succ depth ih =>
      cases e with
      | literal info value =>
          refine (value.type_alike info.offset).bind fun T _ hT => ?_
          subst hT
          exact .pure ⟨rfl, rfl⟩
      | group info inner =>
          rw [relabel, check, check, isBinary_relabel]
          refine .guard rfl ((ih inner).bind ?_)
          rintro ⟨T, inner⟩ ⟨_, inner'⟩ ⟨(rfl : T = _), hinner⟩
          exact .pure ⟨rfl, congrArg (group _) hinner⟩
      | binary info op left right =>
          rw [relabel, check, check]
          apply (ih left).bind
          rintro ⟨L, left⟩ ⟨_, left'⟩ ⟨(rfl : L = _), hleft⟩
          apply (ih right).bind
          rintro ⟨R, right⟩ ⟨_, right'⟩ ⟨(rfl : R = _), hright⟩
          apply (op.type_alike L R hleft.offset hright.offset).bind
          rintro T _ rfl
          exact .pure ⟨rfl, congrArg₂ (binary _ op) hleft hright⟩
      | access info name slot =>
          apply (lookup_alike h name info.offset).bind
          intro v v' hv
          refine .pure ⟨(type_eq hv).symm, ?_⟩
          simp only [Like, relabel, Info.relabel, Option.map_some, type_eq hv]
          exact congrArg (fun v => access _ name (some v)) hv
      | element info name index slot =>
          rw [relabel, check, check]
          apply (lookup_alike h name info.offset).bind
          intro v v' hv
          apply (ih index).bind
          rintro ⟨T, index⟩ ⟨_, index'⟩ ⟨(rfl : T = _), hindex⟩
          apply (sameType_alike _ T hindex.offset).bind
          rintro _ _ _
          refine .pure ⟨(type_eq hv).symm, ?_⟩
          simp only [Like, relabel, Info.relabel, Option.map_some, type_eq hv]
          exact congrArg₂ (fun i v => element _ name i (some v)) hindex hv
      | call info name arguments slot =>
          rw [relabel, check, check, relabelEach_eq_map, List.length_map]
          apply (lookupFunction_alike h name arguments.length info.offset).bind
          rintro s _ rfl
          have harguments : List.Forall₂ (fun p p' => p' = (p.1.relabel ρ, p.2))
              (arguments.zip s.parameters) ((arguments.map (relabel ρ)).zip s.parameters) := by
            rw [List.zip_map_left]
            exact forall₂_map_right _ _
          apply (Check.Alike.mapM (S := Like ρ) harguments ?_).bind
          · intro arguments arguments' hall
            refine .pure ⟨rfl, ?_⟩
            rw [Like, relabel, relabel, relabelEach_eq_map, relabelEach_eq_map,
              map_eq_map_of_forall₂ hall]
            rfl
          · rintro ⟨argument, T⟩ _ rfl
            apply (ih argument).bind
            rintro ⟨S, argument⟩ ⟨_, argument'⟩ ⟨(rfl : S = _), hargument⟩
            exact (fits_alike T S hargument.offset).bind fun _ _ _ => .pure hargument
      | list info elements =>
          cases elements with
          | nil => exact .throw rfl
          | cons first others =>
              rw [relabel, relabelEach_eq_map, List.map_cons, check, check]
              apply (ih first).bind
              rintro ⟨T, first⟩ ⟨_, first'⟩ ⟨(rfl : T = _), hfirst⟩
              apply (Check.Alike.mapM (S := Like ρ) (forall₂_map_right (relabel ρ) others) ?_).bind
              · intro others others' hall
                refine .pure ⟨rfl, ?_⟩
                rw [Like, relabel, relabel, relabelEach_eq_map, relabelEach_eq_map, List.map_cons,
                  List.map_cons, map_eq_map_of_forall₂ hall, hfirst]
                rfl
              · rintro other _ rfl
                apply (ih other).bind
                rintro ⟨S, other⟩ ⟨_, other'⟩ ⟨(rfl : S = _), hother⟩
                exact (sameType_alike T S hother.offset).bind fun _ _ _ => .pure hother
      | unknown start node => exact .throw rfl

end Expr

namespace Stmt

theorem checkAssignment_access_eq (ctx : Context) (depth offset : Nat) (info : Info)
    (name : String) (slot : Option Variable) (value : Expr) :
    checkAssignment ctx (depth + 1) offset (.access info name slot) value = (do
      let v ← Expr.lookup ctx name info.offset
      if !v.mutable then throw ⟨.immutable name, some offset⟩
      let r ← value.check ctx (depth + 1)
      fits v.type r.1 r.2.offset
      return .assignment offset (.access { info with type := some v.type } name (some v)) r.2) := by
  rw [checkAssignment, Expr.check]
  cases Expr.lookup ctx name info.offset <;> rfl

theorem checkAssignment_element_eq (ctx : Context) (depth offset : Nat) (info : Info)
    (name : String) (index : Expr) (slot : Option Variable) (value : Expr) :
    checkAssignment ctx (depth + 1) offset (.element info name index slot) value = (do
      let v ← Expr.lookup ctx name info.offset
      let i ← index.check ctx depth
      sameType .integer i.1 i.2.offset
      if !v.mutable then throw ⟨.immutable name, some offset⟩
      let r ← value.check ctx (depth + 1)
      fits v.type r.1 r.2.offset
      return .assignment offset (.element { info with type := some v.type } name i.2 (some v))
        r.2) := by
  rw [checkAssignment, Expr.check]
  cases Expr.lookup ctx name info.offset with
  | error v => rfl
  | ok v =>
      cases index.check ctx depth with
      | error v => rfl
      | ok i =>
          simp only [bind, Except.bind]
          cases sameType .integer i.1 i.2.offset <;> rfl

variable {ctx ctx' : Context}

theorem checkCondition_alike (h : ctx.Alike ρ ctx') (depth : Nat) (e : Expr) :
    Check.Alike ρ (Expr.Like ρ) (checkCondition ctx depth e)
      (checkCondition ctx' depth (e.relabel ρ)) := by
  apply (Expr.check_alike h depth e).bind
  rintro ⟨T, e⟩ ⟨_, e'⟩ ⟨(rfl : T = _), he⟩
  exact (sameType_alike .boolean T he.offset).bind fun _ _ _ => .pure he

theorem checkDeclaration_alike (h : ctx.Alike ρ ctx') (depth o : Nat) (name : String)
    (typeName : Option String) (value : Option Expr) :
    Check.Alike ρ (fun r r' => r.1.Like ρ r'.1 ∧ r.2.Alike ρ r'.2)
      (checkDeclaration ctx depth o name typeName value)
      (checkDeclaration ctx' depth (ρ.place o) name typeName (value.map (Expr.relabel ρ))) := by
  cases typeName with
  | none =>
      cases value with
      | none => exact .throw rfl
      | some e =>
          rw [Option.map_some, checkDeclaration_value, checkDeclaration_value]
          apply (Expr.check_alike h depth e).bind
          rintro ⟨T, e⟩ ⟨_, e'⟩ ⟨(rfl : T = _), he⟩
          apply (h.declare name T true rfl).bind
          rintro ⟨v, ctx⟩ ⟨v', ctx'⟩ ⟨hv, hctx⟩
          exact .pure ⟨congrArg₂ (fun e v => declaration _ name none (some e) (some v)) he hv, hctx⟩
  | some typeName =>
      cases value with
      | none =>
          rw [Option.map_none, checkDeclaration_type, checkDeclaration_type]
          apply (namedType_alike typeName rfl).bind
          rintro T _ rfl
          apply (h.declare name T true rfl).bind
          rintro ⟨v, ctx⟩ ⟨v', ctx'⟩ ⟨hv, hctx⟩
          exact .pure ⟨congrArg (fun v => declaration _ name _ none (some v)) hv, hctx⟩
      | some e =>
          rw [Option.map_some, checkDeclaration_both, checkDeclaration_both]
          apply (namedType_alike typeName rfl).bind
          rintro T _ rfl
          apply (Expr.check_alike h depth e).bind
          rintro ⟨S, e⟩ ⟨_, e'⟩ ⟨(rfl : S = _), he⟩
          refine (fits_alike T S he.offset).bind fun _ _ _ => ?_
          apply (h.declare name T true rfl).bind
          rintro ⟨v, ctx⟩ ⟨v', ctx'⟩ ⟨hv, hctx⟩
          exact .pure ⟨congrArg₂ (fun e v => declaration _ name _ (some e) (some v)) he hv, hctx⟩

theorem checkValue_alike (h : ctx.Alike ρ ctx') (depth o : Nat) (value : Expr)
    {receiver receiver' : Expr} (hr : receiver.Like ρ receiver') {T T' : Ty} (hT : T' = T) :
    Check.Alike ρ (Like ρ)
      (value.check ctx depth >>= fun r => fits T r.1 r.2.offset >>= fun _ =>
        pure (assignment o receiver r.2))
      ((value.relabel ρ).check ctx' depth >>= fun r => fits T' r.1 r.2.offset >>= fun _ =>
        pure (assignment (ρ.place o) receiver' r.2)) := by
  subst hT
  apply (Expr.check_alike h depth value).bind
  rintro ⟨S, value⟩ ⟨_, value'⟩ ⟨(rfl : S = _), hvalue⟩
  apply (fits_alike _ S hvalue.offset).bind
  intro _ _ _
  exact .pure (congrArg₂ (assignment _) hr hvalue)

theorem checkAssignment_alike (h : ctx.Alike ρ ctx') (depth o : Nat) (receiver value : Expr) :
    Check.Alike ρ (Like ρ) (checkAssignment ctx depth o receiver value)
      (checkAssignment ctx' depth (ρ.place o) (receiver.relabel ρ) (value.relabel ρ)) := by
  have hmutable {v v' : Variable} (hv : v'.relabel ρ = v.relabel ρ) : v'.mutable = v.mutable := by
    have hm := congrArg Variable.mutable hv
    exact hm
  cases receiver with
  | access info name slot =>
      cases depth with
      | zero => exact .throw rfl
      | succ depth =>
          rw [Expr.relabel, checkAssignment_access_eq, checkAssignment_access_eq]
          apply (Expr.lookup_alike h name info.offset).bind
          intro v v' hv
          rw [hmutable hv]
          refine .guard rfl (checkValue_alike h _ o value ?_ (Expr.type_eq hv))
          simp only [Expr.Like, Expr.relabel, Info.relabel, Option.map_some, Expr.type_eq hv]
          exact congrArg (fun v => Expr.access _ name (some v)) hv
  | element info name index slot =>
      cases depth with
      | zero => exact .throw rfl
      | succ depth =>
          rw [Expr.relabel, checkAssignment_element_eq, checkAssignment_element_eq]
          apply (Expr.lookup_alike h name info.offset).bind
          intro v v' hv
          apply (Expr.check_alike h depth index).bind
          rintro ⟨T, index⟩ ⟨_, index'⟩ ⟨(rfl : T = _), hindex⟩
          refine (sameType_alike _ T hindex.offset).bind fun _ _ _ => ?_
          rw [hmutable hv]
          refine .guard rfl (checkValue_alike h _ o value ?_ (Expr.type_eq hv))
          simp only [Expr.Like, Expr.relabel, Info.relabel, Option.map_some, Expr.type_eq hv]
          exact congrArg₂ (fun i v => Expr.element _ name i (some v)) hindex hv
  | literal | group | binary | call | list | unknown => exact .throw rfl

def StepAlike (ρ : Relabeling) (step : Context → Stmt → Check (Stmt × Context)) : Prop :=
  ∀ ⦃ctx ctx' : Context⦄ (x : Stmt), ctx.Alike ρ ctx' →
    Check.Alike ρ (fun r r' => r.1.Like ρ r'.1 ∧ r.2.Alike ρ r'.2) (step ctx x)
      (step ctx' (x.relabel ρ))

variable {step : Context → Stmt → Check (Stmt × Context)}

theorem checkEach_alike (hstep : StepAlike ρ step) (h : ctx.Alike ρ ctx') {done done' : List Stmt}
    (hdone : List.Forall₂ (Like ρ) done done') (xs : List Stmt) :
    Check.Alike ρ
      (fun ys ys' => List.Forall₂ (Like ρ) ys ys' ∧
        (checkEach step ctx done xs).1.Alike ρ (checkEach step ctx' done' (xs.map (relabel ρ))).1)
      (checkEach step ctx done xs).2 (checkEach step ctx' done' (xs.map (relabel ρ))).2 := by
  induction xs generalizing ctx ctx' done done' with
  | nil => exact .ok ⟨List.rel_reverse hdone, h⟩
  | cons x xs ih =>
      have hx := hstep x h
      rw [List.map_cons, checkEach, checkEach]
      generalize step ctx x = r, step ctx' (x.relabel ρ) = r' at hx
      cases hx with
      | ok hr => exact ih hr.2 (.cons hr.1 hdone)
      | error hv => exact .error hv

theorem checkBlock_alike (hstep : StepAlike ρ step) (h : ctx.Alike ρ ctx') (xs : List Stmt) :
    Check.Alike ρ (fun r r' => List.Forall₂ (Like ρ) r.1 r'.1 ∧ r.2.Alike ρ r'.2)
      (checkBlock step ctx xs) (checkBlock step ctx' (xs.map (relabel ρ))) := by
  have hxs := checkEach_alike hstep h.push .nil xs
  unfold checkBlock
  generalize checkEach step ctx.push [] xs = r, checkEach step ctx'.push [] _ = r' at hxs
  obtain ⟨inner, ys⟩ := r
  obtain ⟨inner', ys'⟩ := r'
  cases hxs with
  | ok hr => exact .ok ⟨hr.1, h.leave hr.2⟩
  | error hv => exact .error hv

theorem checkCases_alike (hstep : StepAlike ρ step) (depth : Nat) (T : Ty) (h : ctx.Alike ρ ctx')
    {done done' : List Case} (hdone : List.Forall₂ (Case.Like ρ) done done') (cases : List Case) :
    Check.Alike ρ (fun r r' => List.Forall₂ (Case.Like ρ) r.1 r'.1 ∧ r.2.Alike ρ r'.2)
      (checkCases step depth T ctx done cases)
      (checkCases step depth T ctx' done' (cases.map (Case.relabel ρ))) := by
  induction cases generalizing ctx ctx' done done' with
  | nil => exact .pure ⟨List.rel_reverse hdone, h⟩
  | cons c cases ih =>
      have hcase {o : Nat} {value value' : Option Expr} {body body' : List Stmt}
          (hvalue : value'.map (Expr.relabel ρ.renumbered) = value.map (Expr.relabel ρ))
          (hbody : List.Forall₂ (Like ρ) body body') :
          Case.Like ρ (.mk o value body) (.mk (ρ.place o) value' body') := by
        rw [Case.Like, Case.relabel, Case.relabel, relabelEach_eq_map, relabelEach_eq_map,
          map_eq_map_of_forall₂ hbody, hvalue]
        rfl
      obtain ⟨o, value, body⟩ := c
      rw [List.map_cons, Case.relabel, relabelEach_eq_map]
      cases value with
      | none =>
          rw [Option.map_none, checkCases_default, checkCases_default]
          apply (checkBlock_alike hstep h body).bind
          rintro ⟨body, ctx⟩ ⟨body', ctx'⟩ ⟨hbody, hctx⟩
          exact ih hctx (.cons (hcase rfl hbody) hdone)
      | some e =>
          rw [Option.map_some, checkCases_value, checkCases_value]
          apply (Expr.check_alike h depth e).bind
          rintro ⟨S, e⟩ ⟨_, e'⟩ ⟨(rfl : S = _), he⟩
          refine (sameType_alike T S he.offset).bind fun _ _ _ => ?_
          apply (checkBlock_alike hstep h body).bind
          rintro ⟨body, ctx⟩ ⟨body', ctx'⟩ ⟨hbody, hctx⟩
          exact ih hctx (.cons (hcase (congrArg some he) hbody) hdone)

theorem check_alike (returns : Ty) (depth : Nat) : StepAlike ρ (check returns depth) := by
  induction depth with
  | zero => exact fun _ _ _ _ => .throw rfl
  | succ depth ih =>
      intro ctx ctx' x h
      cases x with
      | expression o value =>
          rw [relabel, check, check, Expr.isCall_relabel]
          apply Check.Alike.guard rfl
          apply (Expr.check_alike h depth value).bind
          rintro ⟨T, value⟩ ⟨_, value'⟩ ⟨(rfl : T = _), hvalue⟩
          exact .pure ⟨congrArg (expression _) hvalue, h⟩
      | declaration o name typeName value slot =>
          exact checkDeclaration_alike h depth o name typeName value
      | assignment o receiver value =>
          exact (checkAssignment_alike h depth o receiver value).bind fun _ _ hx => .pure ⟨hx, h⟩
      | ifElse o condition thenBody elseBody =>
          rw [relabel, check, check, relabelEach_eq_map, relabelEach_eq_map, List.isEmpty_map]
          apply (checkCondition_alike h depth condition).bind
          intro condition condition' hcondition
          apply Check.Alike.guard rfl
          apply (checkBlock_alike ih h thenBody).bind
          rintro ⟨thenBody, ctx⟩ ⟨thenBody', ctx'⟩ ⟨hthen, h⟩
          apply (checkBlock_alike ih h elseBody).bind
          rintro ⟨elseBody, ctx⟩ ⟨elseBody', ctx'⟩ ⟨helse, h⟩
          refine .pure ⟨?_, h⟩
          rw [Like, relabel, relabel, relabelEach_eq_map, relabelEach_eq_map, relabelEach_eq_map,
            relabelEach_eq_map, map_eq_map_of_forall₂ hthen, map_eq_map_of_forall₂ helse,
            hcondition]
          rfl
      | switch o condition cases =>
          have hlast : (cases.map (Case.relabel ρ)).getLast?.any (·.value.isNone) =
              cases.getLast?.any (·.value.isNone) := by
            rw [List.getLast?_map, Option.any_map]
            congr 1
            funext c
            obtain ⟨o, value, body⟩ := c
            exact Option.isNone_map
          rw [relabel, check, check, Case.relabelEach_eq_map, hlast]
          apply (Expr.check_alike h depth condition).bind
          rintro ⟨T, condition⟩ ⟨_, condition'⟩ ⟨(rfl : T = _), hcondition⟩
          apply (checkCases_alike ih depth T h .nil cases).bind
          rintro ⟨checked, ctx⟩ ⟨checked', ctx'⟩ ⟨hchecked, h⟩
          refine .guard rfl (.pure ⟨?_, h⟩)
          rw [Like, relabel, relabel, Case.relabelEach_eq_map, Case.relabelEach_eq_map,
            map_eq_map_of_forall₂ hchecked, hcondition]
          rfl
      | whileDo o condition body =>
          rw [relabel, check, check, relabelEach_eq_map]
          apply (checkCondition_alike h depth condition).bind
          intro condition condition' hcondition
          apply (checkBlock_alike ih h body).bind
          rintro ⟨body, ctx⟩ ⟨body', ctx'⟩ ⟨hbody, h⟩
          refine .pure ⟨?_, h⟩
          rw [Like, relabel, relabel, relabelEach_eq_map, relabelEach_eq_map,
            map_eq_map_of_forall₂ hbody, hcondition]
          rfl
      | ret o value =>
          cases value with
          | none => exact (fits_alike returns .nil rfl).bind fun _ _ _ => .pure ⟨rfl, h⟩
          | some e =>
              rw [relabel, check, check, Option.map_some, checkOptional, checkOptional]
              rw [bind_assoc, bind_assoc]
              apply (Expr.check_alike h depth e).bind
              rintro ⟨T, e⟩ ⟨_, e'⟩ ⟨(rfl : T = _), he⟩
              exact (fits_alike returns T rfl).bind fun _ _ _ =>
                .pure ⟨congrArg (fun e => ret _ (some e)) he, h⟩
      | unknown start node => exact .throw rfl

end Stmt

theorem Global.check_alike {ctx ctx' : Context} (h : ctx.Alike ρ ctx') (depth : Nat) (g : Global) :
    Check.Alike ρ (fun r r' => r.1.Like ρ r'.1 ∧ r.2.Alike ρ r'.2) (g.check depth ctx)
      ((g.relabel ρ).check depth ctx') := by
  obtain ⟨o, name, typeName, mutable, value, slot⟩ := g
  rw [relabel]
  cases value with
  | none =>
      rw [Option.map_none, check_bare, check_bare]
      apply (namedType_alike typeName rfl).bind
      rintro T _ rfl
      apply (h.declare name T mutable rfl).bind
      rintro ⟨v, ctx⟩ ⟨v', ctx'⟩ ⟨hv, hctx⟩
      exact .pure ⟨congrArg (fun v => Global.mk _ name typeName mutable none (some v)) hv, hctx⟩
  | some e =>
      rw [Option.map_some, check_value, check_value]
      apply (namedType_alike typeName rfl).bind
      rintro T _ rfl
      apply (Expr.check_alike h depth e).bind
      rintro ⟨S, e⟩ ⟨_, e'⟩ ⟨(rfl : S = _), he⟩
      refine (fits_alike T S he.offset).bind fun _ _ _ => ?_
      apply (h.declare name T mutable rfl).bind
      rintro ⟨v, ctx⟩ ⟨v', ctx'⟩ ⟨hv, hctx⟩
      exact .pure
        ⟨congrArg₂ (fun e v => Global.mk _ name typeName mutable (some e) (some v)) he hv, hctx⟩

namespace Function

variable {ctx ctx' : Context}

theorem written_alike (typeName : Option String) (o : Nat) :
    Check.Alike ρ Eq (typeName.mapM (namedType · o)) (typeName.mapM (namedType · (ρ.place o))) := by
  cases typeName with
  | none => exact .pure rfl
  | some typeName =>
      rw [Option.mapM_some, Option.mapM_some]
      exact Matched.map (namedType_alike typeName rfl) fun _ _ h => congrArg some h

theorem declare_alike (h : ctx.Alike ρ ctx') (f : Function) :
    Check.Alike ρ (fun r r' => r.1 = r'.1 ∧ r.2.Alike ρ r'.2) (f.declare ctx)
      ((f.relabel ρ).declare ctx') := by
  have hnames : Check.Alike ρ (List.Forall₂ Eq) (f.parameterTypes.mapM (namedType · f.offset))
      (f.parameterTypes.mapM (namedType · (ρ.place f.offset))) :=
    .mapM (List.forall₂_same.2 fun _ _ => rfl) fun name _ hname =>
      hname ▸ namedType_alike name rfl
  refine hnames.bind fun parameters parameters' hparameters => ?_
  obtain rfl := List.forall₂_eq_eq_eq ▸ hparameters
  apply (written_alike f.returnType f.offset).bind
  rintro returns _ rfl
  have howns := h.ownsFunction (f.relabel ρ).name parameters.length
  rw [howns]
  exact .guard rfl (.pure ⟨rfl, h.putFunction _⟩)

theorem declareParameters_alike (h : ctx.Alike ρ ctx') (o : Nat) (parameters : List (String × Ty)) :
    Check.Alike ρ (Context.Alike ρ) (declareParameters ctx o parameters)
      (declareParameters ctx' (ρ.place o) parameters) := by
  induction parameters generalizing ctx ctx' with
  | nil => exact .pure h
  | cons p parameters ih =>
      obtain ⟨name, T⟩ := p
      apply (h.declare name T true rfl).bind
      rintro ⟨v, ctx⟩ ⟨v', ctx'⟩ ⟨_, hctx⟩
      exact ih hctx

theorem checkBody_alike (h : ctx.Alike ρ ctx') (depth : Nat) (f : Function) (s : Signature) :
    Check.Alike ρ (fun r r' => r.1.Like ρ r'.1 ∧ r.2.Alike ρ r'.2) (f.checkBody depth ctx s)
      ((f.relabel ρ).checkBody depth ctx' s) := by
  apply (declareParameters_alike h.push f.offset (f.parameters.zip s.parameters)).bind
  intro inner inner' hinner
  have hbody := Stmt.checkEach_alike (Stmt.check_alike s.returns depth) hinner .nil f.body
  dsimp only [relabel]
  generalize Stmt.checkEach _ inner [] f.body = r, Stmt.checkEach _ inner' [] _ = r' at hbody
  obtain ⟨inner, body⟩ := r
  obtain ⟨inner', body'⟩ := r'
  cases hbody with
  | ok hr =>
      refine .pure ⟨?_, h.leave hr.2⟩
      exact congrArg (fun b => { f with offset := ρ.place f.offset, body := b, slot := some s })
        (map_eq_map_of_forall₂ hr.1)
  | error hv => exact .throw hv

end Function

namespace Program

variable {ctx ctx' : Context}

theorem checkGlobals_alike (h : ctx.Alike ρ ctx') (depth : Nat) {done done' : List Global}
    (hdone : List.Forall₂ (Global.Like ρ) done done') (gs : List Global) :
    Check.Alike ρ (fun r r' => List.Forall₂ (Global.Like ρ) r.1 r'.1 ∧ r.2.Alike ρ r'.2)
      (checkGlobals depth ctx done gs)
      (checkGlobals depth ctx' done' (gs.map (Global.relabel ρ))) := by
  induction gs generalizing ctx ctx' done done' with
  | nil => exact .pure ⟨List.rel_reverse hdone, h⟩
  | cons g gs ih =>
      apply (g.check_alike h depth).bind
      rintro ⟨g, ctx⟩ ⟨g', ctx'⟩ ⟨hg, hctx⟩
      exact ih hctx (.cons hg hdone)

theorem declareFunctions_alike (h : ctx.Alike ρ ctx') {done done' : List (Function × Signature)}
    (hdone : List.Forall₂ (fun p p' => p' = (p.1.relabel ρ, p.2)) done done') (fs : List Function) :
    Check.Alike ρ
      (fun r r' => List.Forall₂ (fun p p' => p' = (p.1.relabel ρ, p.2)) r.1 r'.1 ∧
        r.2.Alike ρ r'.2)
      (declareFunctions ctx done fs)
      (declareFunctions ctx' done' (fs.map (Function.relabel ρ))) := by
  induction fs generalizing ctx ctx' done done' with
  | nil => exact .pure ⟨List.rel_reverse hdone, h⟩
  | cons f fs ih =>
      apply (f.declare_alike h).bind
      rintro ⟨s, ctx⟩ ⟨_, ctx'⟩ ⟨(rfl : s = _), hctx⟩
      exact ih hctx (.cons rfl hdone)

theorem checkBodies_alike (h : ctx.Alike ρ ctx') (depth : Nat) {done done' : List Function}
    (hdone : List.Forall₂ (Function.Like ρ) done done') {fs fs' : List (Function × Signature)}
    (hfs : List.Forall₂ (fun p p' => p' = (p.1.relabel ρ, p.2)) fs fs') :
    Check.Alike ρ (List.Forall₂ (Function.Like ρ)) (checkBodies depth ctx done fs)
      (checkBodies depth ctx' done' fs') := by
  induction hfs generalizing ctx ctx' done done' with
  | nil => exact .pure (List.rel_reverse hdone)
  | @cons p _ _ _ hp _ ih =>
      obtain ⟨f, s⟩ := p
      subst hp
      apply (f.checkBody_alike h depth s).bind
      rintro ⟨f, ctx⟩ ⟨f', ctx'⟩ ⟨hf, hctx⟩
      exact ih hctx (.cons hf hdone)

theorem requireMain_alike (h : ctx.Alike ρ ctx') :
    Check.Alike ρ Eq (requireMain ctx) (requireMain ctx') := by
  unfold requireMain
  rw [h.findFunction?]
  cases ctx.findFunction? "main" 0 with
  | none => exact .throw rfl
  | some s => exact .ite (.pure rfl) (.throw rfl)

theorem checkWithin_alike (depth : Nat) (p : Program) :
    Check.Alike ρ (fun q q' => q'.relabel ρ.renumbered = q.relabel ρ) (p.checkWithin depth)
      ((p.relabel ρ).checkWithin depth) := by
  apply (checkGlobals_alike (.refl .outermost) depth .nil p.globals).bind
  rintro ⟨gs, ctx⟩ ⟨gs', ctx'⟩ ⟨hgs, hctx⟩
  apply (declareFunctions_alike hctx .nil p.functions).bind
  rintro ⟨fs, ctx⟩ ⟨fs', ctx'⟩ ⟨hfs, hctx⟩
  refine (requireMain_alike hctx).bind fun _ _ _ => ?_
  apply (checkBodies_alike hctx depth .nil hfs).bind
  intro checked checked' hchecked
  exact .pure (congrArg₂ Program.mk (map_eq_map_of_forall₂ hgs) (map_eq_map_of_forall₂ hchecked))

end Program

end PlcLang
