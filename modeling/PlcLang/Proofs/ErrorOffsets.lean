import PlcLang.Proofs.CheckerFunctions
import PlcLang.Proofs.TreeNodes

namespace PlcLang

namespace Node

variable {P : Nat → Prop} {n m : Node}

def AllAt (P : Nat → Prop) (n : Node) : Prop := ∀ m, n.Has m → P m.offset

theorem AllAt.here (h : n.AllAt P) : P n.offset := h n .refl

theorem AllAt.child (h : n.AllAt P) (hm : m ∈ n.children) : m.AllAt P :=
  fun x hx => h x (.child hm hx)

end Node

namespace Check

variable {α β : Type} {P : Nat → Prop} {x : Check α}

/-- If the check fails at a place, then at one that is as described. -/
def FailsAt (P : Nat → Prop) (x : Check α) : Prop :=
  ∀ v n, x = .error v → v.offset = some n → P n

theorem FailsAt.pure (a : α) : FailsAt P (Pure.pure a : Check α) := nofun

theorem FailsAt.nowhere (cause : ViolationCause) :
    FailsAt P (throw ⟨cause, none⟩ : Check α) := by
  rintro _ n ⟨⟩ ⟨⟩

theorem FailsAt.throw {cause : ViolationCause} {offset : Nat} (h : P offset) :
    FailsAt P (throw ⟨cause, some offset⟩ : Check α) := by
  rintro _ n ⟨⟩ ⟨⟩
  exact h

theorem FailsAt.bind {f : α → Check β} (hx : FailsAt P x) (hf : ∀ a, x = .ok a → FailsAt P (f a)) :
    FailsAt P (x >>= f) := by
  cases hresult : x with
  | error v =>
      rintro _ n ⟨⟩
      exact hx v n hresult
  | ok a => exact hf a hresult

theorem FailsAt.ite {c : Prop} [Decidable c] {y : Check α} (hx : FailsAt P x) (hy : FailsAt P y) :
    FailsAt P (if c then x else y) := by
  split
  · exact hx
  · exact hy

theorem FailsAt.mapM {f : α → Check β} {as : List α} (h : ∀ a ∈ as, FailsAt P (f a)) :
    FailsAt P (as.mapM f) := by
  induction as with
  | nil => exact .pure []
  | cons a as ih =>
      obtain ⟨ha, has⟩ := List.forall_mem_cons.mp h
      rw [List.mapM_cons]
      exact ha.bind fun b _ => (ih has).bind fun bs _ => .pure _

end Check

open Check

variable {P : Nat → Prop} {offset : Nat}

theorem namedType_failsAt (h : P offset) (name : String) : FailsAt P (namedType name offset) := by
  unfold namedType
  split
  · exact .pure _
  · exact .throw h

theorem fits_failsAt (h : P offset) (target source : Ty) : FailsAt P (fits target source offset) :=
  .ite (.pure ()) (.throw h)

theorem sameType_failsAt (h : P offset) (expected actual : Ty) :
    FailsAt P (sameType expected actual offset) :=
  .ite (.pure ()) (.throw h)

theorem Literal.type_failsAt (h : P offset) (value : Literal) : FailsAt P (value.type offset) := by
  cases value with
  | integer n => exact .ite (.pure _) (.throw h)
  | decimal d => exact .ite (.pure _) (.throw h)
  | _ => exact .pure _

theorem BinOp.type_failsAt {leftOffset rightOffset : Nat} (hleft : P leftOffset)
    (hright : P rightOffset) (op : BinOp) (left right : Ty) :
    FailsAt P (op.type left right leftOffset rightOffset) := by
  have hsame (expected actual type : Ty) :
      FailsAt P (do sameType expected actual rightOffset; return type) :=
    (sameType_failsAt hright expected actual).bind fun _ _ => .pure _
  cases op with
  | and | or | pow => exact (sameType_failsAt hleft _ _).bind fun _ _ => hsame _ _ _
  | eq | ne => exact hsame _ _ _
  | lt | gt => exact .ite (.throw hleft) (hsame _ _ _)
  | add | sub | mul | div =>
      rw [type]
      exact .ite (.pure _) (.ite (.throw hleft) (hsame _ _ _))
  | other symbol => exact .nowhere _

theorem Context.declare_failsAt (h : P offset) (ctx : Context) (name : String) (type : Ty)
    (mutable : Bool) : FailsAt P (ctx.declare name type mutable offset) :=
  .ite (.throw h) (.pure _)

namespace Expr

variable (ctx : Context) (depth : Nat)

theorem lookup_failsAt (h : P offset) (name : String) : FailsAt P (lookup ctx name offset) := by
  unfold lookup
  split
  · exact .pure _
  · exact .throw h

theorem lookupFunction_failsAt (h : P offset) (name : String) (arity : Nat) :
    FailsAt P (lookupFunction ctx name arity offset) := by
  unfold lookupFunction
  split
  · exact .pure _
  · exact .ite (.throw h) (.throw h)

theorem check_offset {e e' : Expr} {T : Ty} (h : e.check ctx depth = .ok (T, e')) :
    e'.offset = e.offset := by
  cases depth with
  | zero => exact (Check.throw_eq_ok.mp h).elim
  | succ depth =>
      cases e with
      | literal | access | element | group | binary | call =>
          simp only [check, Check.throw_bind, Check.ite_throw_eq_ok, Check.bind_eq_ok,
            Check.pure_eq_ok, Prod.mk.injEq, Prod.exists] at h
          grind [offset, info]
      | list info elements =>
          cases elements with
          | nil => exact (Check.throw_eq_ok.mp h).elim
          | cons first others =>
              simp only [check, Check.bind_eq_ok, Check.pure_eq_ok, Prod.mk.injEq, Prod.exists] at h
              obtain ⟨T, first', _, others', _, _, rfl⟩ := h
              rfl
      | unknown start node => exact (Check.throw_eq_ok.mp h).elim

theorem check_failsAt {e : Expr} (h : (Node.expr e).AllAt P) : FailsAt P (e.check ctx depth) := by
  induction depth generalizing e with
  | zero => exact .nowhere _
  | succ depth ih =>
      have hhere := h.here
      have hchild {a : Expr} (ha : a ∈ e.children) : (Node.expr a).AllAt P :=
        h.child (List.mem_map_of_mem ha)
      have hoffset {a a' : Expr} {T : Ty} (ha : a ∈ e.children)
          (hcheck : a.check ctx depth = .ok (T, a')) : P a'.offset :=
        check_offset ctx depth hcheck ▸ (hchild ha).here
      cases e with
      | literal info value => exact (value.type_failsAt hhere).bind fun _ _ => .pure _
      | group info inner =>
          refine .ite (.throw hhere) ?_
          exact (ih (hchild List.mem_cons_self)).bind fun _ _ => .pure _
      | binary info op left right =>
          have hleft : left ∈ (binary info op left right).children := List.mem_cons_self
          have hright : right ∈ (binary info op left right).children :=
            List.mem_cons_of_mem _ List.mem_cons_self
          refine (ih (hchild hleft)).bind fun l hl => (ih (hchild hright)).bind fun r hr => ?_
          refine (BinOp.type_failsAt ?_ ?_ op l.1 r.1).bind fun _ _ => .pure _
          · exact hoffset hleft hl
          · exact hoffset hright hr
      | access info name slot => exact (lookup_failsAt ctx hhere name).bind fun _ _ => .pure _
      | element info name index slot =>
          have hindex : index ∈ (element info name index slot).children := List.mem_cons_self
          refine (lookup_failsAt ctx hhere name).bind fun v _ => ?_
          refine (ih (hchild hindex)).bind fun r hr => ?_
          exact (sameType_failsAt (hoffset hindex hr) _ _).bind fun _ _ => .pure _
      | call info name arguments slot =>
          refine (lookupFunction_failsAt ctx hhere name _).bind fun s _ => ?_
          refine FailsAt.bind (.mapM fun p hp => ?_) fun _ _ => .pure _
          have hargument : p.1 ∈ (call info name arguments slot).children := (List.of_mem_zip hp).1
          refine (ih (hchild hargument)).bind fun r hr => ?_
          exact (fits_failsAt (hoffset hargument hr) _ _).bind fun _ _ => .pure _
      | list info elements =>
          cases elements with
          | nil => exact .throw hhere
          | cons first others =>
              refine (ih (hchild List.mem_cons_self)).bind fun r _ => ?_
              refine FailsAt.bind (.mapM fun other hother => ?_) fun _ _ => .pure _
              have hmem : other ∈ (list info (first :: others)).children :=
                List.mem_cons_of_mem first hother
              refine (ih (hchild hmem)).bind fun r hr => ?_
              exact (sameType_failsAt (hoffset hmem hr) _ _).bind fun _ _ => .pure _
      | unknown start node => exact .nowhere _

end Expr

namespace Stmt

variable {returns : Ty} {step : Context → Stmt → Check (Stmt × Context)}

def StepFailsAt (P : Nat → Prop) (step : Context → Stmt → Check (Stmt × Context)) : Prop :=
  ∀ (ctx : Context) (x : Stmt), (Node.stmt x).AllAt P → FailsAt P (step ctx x)

theorem checkEach_failsAt (hstep : StepFailsAt P step) {xs : List Stmt}
    (h : ∀ x ∈ xs, (Node.stmt x).AllAt P) (ctx : Context) (done : List Stmt) :
    FailsAt P (checkEach step ctx done xs).2 := by
  induction xs generalizing ctx done with
  | nil => exact .pure _
  | cons x xs ih =>
      obtain ⟨hx, hxs⟩ := List.forall_mem_cons.mp h
      have hfails := hstep ctx x hx
      unfold checkEach
      cases hresult : step ctx x with
      | ok r => exact ih hxs r.2 (r.1 :: done)
      | error v =>
          rintro _ n ⟨⟩
          exact hfails v n hresult

theorem checkBlock_failsAt (hstep : StepFailsAt P step) {xs : List Stmt}
    (h : ∀ x ∈ xs, (Node.stmt x).AllAt P) (ctx : Context) : FailsAt P (checkBlock step ctx xs) := by
  have heach := checkEach_failsAt hstep h ctx.push []
  unfold checkBlock
  split
  · exact .pure _
  · next inner v hresult =>
      rw [hresult] at heach
      rintro _ n ⟨⟩
      exact heach v n rfl

variable (ctx : Context) (depth : Nat)

theorem checkOptional_failsAt {value : Option Expr}
    (h : ∀ e, value = some e → (Node.expr e).AllAt P) : FailsAt P (checkOptional ctx depth value) := by
  cases value with
  | none => exact .pure _
  | some e => exact (e.check_failsAt ctx depth (h e rfl)).bind fun _ _ => .pure _

theorem checkCondition_failsAt {e : Expr} (h : (Node.expr e).AllAt P) :
    FailsAt P (checkCondition ctx depth e) := by
  refine (e.check_failsAt ctx depth h).bind fun r hr => ?_
  have hoffset : P r.2.offset := Expr.check_offset ctx depth hr ▸ h.here
  exact (sameType_failsAt hoffset _ _).bind fun _ _ => .pure _

theorem checkDeclaration_failsAt (hoffset : P offset) (name : String) (typeName : Option String)
    {value : Option Expr} (h : ∀ e, value = some e → (Node.expr e).AllAt P) :
    FailsAt P (checkDeclaration ctx depth offset name typeName value) := by
  have hdeclare (type : Ty) (typeName : Option String) (value : Option Expr) : FailsAt P (do
      let p ← ctx.declare name type true offset
      return (Stmt.declaration offset name typeName value (some p.1), p.2)) :=
    (ctx.declare_failsAt hoffset name type true).bind fun _ _ => .pure _
  cases value with
  | none =>
      cases typeName with
      | none => exact .throw hoffset
      | some typeName =>
          rw [checkDeclaration_type]
          exact (namedType_failsAt hoffset typeName).bind fun type _ => hdeclare _ _ _
  | some e =>
      have he := e.check_failsAt ctx depth (h e rfl)
      cases typeName with
      | none =>
          rw [checkDeclaration_value]
          exact he.bind fun r _ => hdeclare _ _ _
      | some typeName =>
          rw [checkDeclaration_both]
          refine (namedType_failsAt hoffset typeName).bind fun type _ => he.bind fun r hr => ?_
          have hvalue : P r.2.offset := Expr.check_offset ctx depth hr ▸ (h e rfl).here
          exact (fits_failsAt hvalue _ _).bind fun _ _ => hdeclare _ _ _

theorem checkAssignment_failsAt (hoffset : P offset) {receiver value : Expr}
    (hreceiver : (Node.expr receiver).AllAt P) (hvalue : (Node.expr value).AllAt P) :
    FailsAt P (checkAssignment ctx depth offset receiver value) := by
  have hrest (target : Ty) (receiver : Expr) : FailsAt P (do
      let r ← value.check ctx depth
      fits target r.1 r.2.offset
      return Stmt.assignment offset receiver r.2) := by
    refine (value.check_failsAt ctx depth hvalue).bind fun r hr => ?_
    have hvalue' : P r.2.offset := Expr.check_offset ctx depth hr ▸ hvalue.here
    exact (fits_failsAt hvalue' _ _).bind fun _ _ => .pure _
  cases receiver with
  | access info name slot | element info name index slot =>
      refine (Expr.check_failsAt ctx depth hreceiver).bind fun r _ => ?_
      dsimp only
      split
      · exact .ite (.throw hoffset) (hrest _ _)
      · exact .ite (.throw hoffset) (hrest _ _)
      · exact hrest _ _
  | _ => exact .throw hoffset

theorem checkCases_failsAt (hstep : StepFailsAt P step) {cases : List Case}
    (h : ∀ c ∈ cases, (Node.branch c).AllAt P) (type : Ty) (done : List Case) :
    FailsAt P (checkCases step depth type ctx done cases) := by
  induction cases generalizing ctx done with
  | nil => exact .pure _
  | cons c cases ih =>
      obtain ⟨hc, hcases⟩ := List.forall_mem_cons.mp h
      obtain ⟨offset, value, body⟩ := c
      have hbody : ∀ x ∈ body, (Node.stmt x).AllAt P := fun x hx =>
        hc.child (List.mem_append_right _ (List.mem_map_of_mem hx))
      have hrest (value : Option Expr) : FailsAt P (do
          let b ← checkBlock step ctx body
          checkCases step depth type b.2 (.mk offset value b.1 :: done) cases) :=
        (checkBlock_failsAt hstep hbody ctx).bind fun b _ => ih b.2 hcases _
      cases value with
      | none => exact hrest none
      | some e =>
          have he : (Node.expr e).AllAt P := hc.child List.mem_cons_self
          rw [checkCases_value]
          refine (e.check_failsAt ctx depth he).bind fun r hr => ?_
          have hoffset : P r.2.offset := Expr.check_offset ctx depth hr ▸ he.here
          exact (sameType_failsAt hoffset _ _).bind fun _ _ => hrest _

theorem allAt_of_value {n : Node} (h : n.AllAt P) {value : Option Expr}
    (hchildren : n.children = value.toList.map .expr) :
    ∀ e, value = some e → (Node.expr e).AllAt P := by
  rintro e rfl
  exact h.child (by rw [hchildren]; exact List.mem_singleton_self _)

theorem check_failsAt (depth : Nat) : StepFailsAt P (check returns depth) := by
  induction depth with
  | zero => exact fun _ _ _ => .nowhere _
  | succ depth ih =>
      intro ctx x h
      have hhere := h.here
      cases x with
      | expression offset value =>
          refine .ite (.throw hhere) ?_
          exact (Expr.check_failsAt ctx depth (h.child List.mem_cons_self)).bind fun _ _ => .pure _
      | declaration offset name typeName value slot =>
          exact checkDeclaration_failsAt ctx depth hhere name typeName (allAt_of_value h rfl)
      | assignment offset receiver value =>
          refine (checkAssignment_failsAt ctx depth hhere ?_ ?_).bind fun _ _ => .pure _
          · exact h.child List.mem_cons_self
          · exact h.child (List.mem_cons_of_mem _ List.mem_cons_self)
      | ifElse offset condition thenBody elseBody =>
          refine (checkCondition_failsAt ctx depth (h.child List.mem_cons_self)).bind fun _ _ => ?_
          refine .ite (.throw hhere) ?_
          refine (checkBlock_failsAt ih (fun x hx => ?_) ctx).bind fun b _ => ?_
          · exact h.child (List.mem_cons_of_mem _ (List.mem_append_left _ (List.mem_map_of_mem hx)))
          refine (checkBlock_failsAt ih (fun x hx => ?_) b.2).bind fun _ _ => .pure _
          exact h.child (List.mem_cons_of_mem _ (List.mem_append_right _ (List.mem_map_of_mem hx)))
      | switch offset condition cases =>
          refine (Expr.check_failsAt ctx depth (h.child List.mem_cons_self)).bind fun r _ => ?_
          refine (checkCases_failsAt ctx depth ih (fun c hc => ?_) _ _).bind fun _ _ => ?_
          · exact h.child (List.mem_cons_of_mem _ (List.mem_map_of_mem hc))
          · exact .ite (.throw hhere) (.pure _)
      | whileDo offset condition body =>
          refine (checkCondition_failsAt ctx depth (h.child List.mem_cons_self)).bind fun _ _ => ?_
          refine (checkBlock_failsAt ih (fun x hx => ?_) ctx).bind fun _ _ => .pure _
          exact h.child (List.mem_cons_of_mem _ (List.mem_map_of_mem hx))
      | ret offset value =>
          refine (checkOptional_failsAt ctx depth (allAt_of_value h rfl)).bind fun _ _ => ?_
          exact (fits_failsAt hhere _ _).bind fun _ _ => .pure _
      | unknown start node => exact .nowhere _

end Stmt

theorem Global.check_failsAt {g : Global} (h : (Node.global g).AllAt P) (depth : Nat)
    (ctx : Context) : FailsAt P (g.check depth ctx) := by
  have hhere := h.here
  have hvalue := Stmt.allAt_of_value h rfl
  obtain ⟨offset, name, typeName, mutable, value, slot⟩ := g
  have hdeclare (type : Ty) (value : Option Expr) : FailsAt P (do
      let p ← ctx.declare name type mutable offset
      return ((⟨offset, name, typeName, mutable, value, some p.1⟩ : Global), p.2)) :=
    (ctx.declare_failsAt hhere name type mutable).bind fun _ _ => .pure _
  cases value with
  | none =>
      rw [check_bare]
      exact (namedType_failsAt hhere typeName).bind fun type _ => hdeclare _ _
  | some e =>
      rw [check_value]
      refine (namedType_failsAt hhere typeName).bind fun type _ => ?_
      refine (e.check_failsAt ctx depth (hvalue e rfl)).bind fun r hr => ?_
      have hoffset : P r.2.offset := Expr.check_offset ctx depth hr ▸ (hvalue e rfl).here
      exact (fits_failsAt hoffset _ _).bind fun _ _ => hdeclare _ _

namespace Function

theorem declare_failsAt {f : Function} (h : P f.offset) (ctx : Context) :
    FailsAt P (f.declare ctx) := by
  have hreturns : FailsAt P (f.returnType.mapM (namedType · f.offset)) := by
    cases f.returnType with
    | none => exact .pure _
    | some name => exact (namedType_failsAt h name).bind fun _ _ => .pure _
  refine FailsAt.bind (.mapM fun name _ => namedType_failsAt h name) fun parameters _ => ?_
  exact hreturns.bind fun returns _ => .ite (.throw h) (.pure _)

theorem declareParameters_failsAt (h : P offset) (ctx : Context)
    (parameters : List (String × Ty)) : FailsAt P (declareParameters ctx offset parameters) := by
  induction parameters generalizing ctx with
  | nil => exact .pure _
  | cons p parameters ih => exact (ctx.declare_failsAt h _ _ _).bind fun r _ => ih r.2

theorem checkBody_failsAt {f : Function} (h : (Node.function f).AllAt P) (depth : Nat)
    (ctx : Context) (s : Signature) : FailsAt P (f.checkBody depth ctx s) := by
  have hhere : P f.offset := h.here
  refine (declareParameters_failsAt hhere _ _).bind fun inner _ => ?_
  have hstep : Stmt.StepFailsAt P (Stmt.check s.returns depth) := Stmt.check_failsAt depth
  have hbody : ∀ x ∈ f.body, (Node.stmt x).AllAt P := fun x hx =>
    h.child (List.mem_map_of_mem hx)
  have heach := Stmt.checkEach_failsAt hstep hbody inner []
  split
  · exact .pure _
  · next inner' v hresult =>
      rw [hresult] at heach
      rintro _ n ⟨⟩
      exact heach v n rfl

end Function

namespace Program

variable (depth : Nat) (ctx : Context)

theorem checkGlobals_failsAt {gs : List Global} (h : ∀ g ∈ gs, (Node.global g).AllAt P)
    (done : List Global) : FailsAt P (checkGlobals depth ctx done gs) := by
  induction gs generalizing ctx done with
  | nil => exact .pure _
  | cons g gs ih =>
      obtain ⟨hg, hgs⟩ := List.forall_mem_cons.mp h
      exact (g.check_failsAt hg depth ctx).bind fun r _ => ih r.2 hgs _

theorem declareFunctions_failsAt {fs : List Function} (h : ∀ f ∈ fs, P f.offset)
    (done : List (Function × Signature)) : FailsAt P (declareFunctions ctx done fs) := by
  induction fs generalizing ctx done with
  | nil => exact .pure _
  | cons f fs ih =>
      obtain ⟨hf, hfs⟩ := List.forall_mem_cons.mp h
      exact (f.declare_failsAt hf ctx).bind fun r _ => ih r.2 hfs _

theorem checkBodies_failsAt {pairs : List (Function × Signature)}
    (h : ∀ p ∈ pairs, (Node.function p.1).AllAt P) (done : List Function) :
    FailsAt P (checkBodies depth ctx done pairs) := by
  induction pairs generalizing ctx done with
  | nil => exact .pure _
  | cons p pairs ih =>
      obtain ⟨hp, hpairs⟩ := List.forall_mem_cons.mp h
      exact (Function.checkBody_failsAt hp depth ctx p.2).bind fun r _ => ih r.2 hpairs _

theorem requireMain_failsAt : FailsAt P (requireMain ctx) := by
  unfold requireMain
  split
  · exact .nowhere _
  · exact .ite (.pure _) (.nowhere _)

/-- If a program is refused at a place, then a node of the program is there. -/
theorem checkWithin_offset {p : Program} {v : Violation} {n : Nat}
    (h : p.checkWithin depth = .error v) (hv : v.offset = some n) :
    ∃ node, p.Contains node ∧ node.offset = n := by
  have hnodes : ∀ root ∈ p.nodes,
      root.AllAt fun n => ∃ node, p.Contains node ∧ node.offset = n :=
    fun root hroot node hnode => ⟨node, ⟨root, hroot, hnode⟩, rfl⟩
  obtain ⟨hglobals, hfunctions⟩ := List.forall_mem_append.mp hnodes
  rw [List.forall_mem_map] at hglobals hfunctions
  suffices hfails : FailsAt (fun n => ∃ node, p.Contains node ∧ node.offset = n)
      (p.checkWithin depth) from hfails v n h hv
  refine (checkGlobals_failsAt depth _ hglobals []).bind fun r hr => ?_
  refine (declareFunctions_failsAt r.2 (fun f hf => (hfunctions f hf).here) []).bind fun s hs => ?_
  refine (requireMain_failsAt s.2).bind fun _ _ => ?_
  refine (checkBodies_failsAt depth s.2 ?_ []).bind fun _ _ => .pure _
  have hfuns := checkGlobals_functions hr .outermost
  obtain ⟨signatures, _, hpairs, _⟩ := (declareFunctions_eq_ok hfuns).mp hs
  rw [hpairs, List.reverse_nil, List.nil_append]
  exact fun p hp => hfunctions p.1 (List.of_mem_zip hp).1

end Program

end PlcLang
