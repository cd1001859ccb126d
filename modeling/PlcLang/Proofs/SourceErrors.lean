import PlcLang.Pipeline
import PlcLang.Proofs.CheckerFunctions
import PlcLang.Proofs.ParserExact

namespace PlcLang

open Rule

/-- All but a literal token without a value. -/
def ParseCause.Ordinary : ParseCause → Prop
  | badEscape | badNumber => False
  | _ => True

/-- All but a node that is not of the language. -/
def ViolationCause.Ordinary : ViolationCause → Prop
  | unknownStatement _ | unknownExpression _ | unknownOperator _ => False
  | _ => True

def SourceError.Ordinary : SourceError → Prop
  | lex _ => True
  | parse e => e.cause.Ordinary
  | check v => v.cause.Ordinary

namespace Check

variable {α β : Type} {x : Check α}

def Ordinary (x : Check α) : Prop := ∀ v, x = .error v → v.cause.Ordinary

theorem Ordinary.pure (a : α) : Ordinary (Pure.pure a : Check α) := nofun

theorem Ordinary.throw {v : Violation} (h : v.cause.Ordinary) : Ordinary (throw v : Check α) := by
  rintro _ ⟨⟩
  exact h

theorem Ordinary.bind {f : α → Check β} (hx : Ordinary x) (hf : ∀ a, x = .ok a → Ordinary (f a)) :
    Ordinary (x >>= f) := by
  cases hresult : x with
  | error v =>
      rintro _ ⟨⟩
      exact hx v hresult
  | ok a => exact hf a hresult

theorem Ordinary.ite {c : Prop} [Decidable c] {y : Check α} (hx : c → Ordinary x)
    (hy : ¬ c → Ordinary y) : Ordinary (if c then x else y) := by
  split
  · next h => exact hx h
  · next h => exact hy h

theorem Ordinary.mapM {f : α → Check β} {as : List α} (h : ∀ a ∈ as, Ordinary (f a)) :
    Ordinary (as.mapM f) := by
  induction as with
  | nil => exact .pure []
  | cons a as ih =>
      obtain ⟨ha, has⟩ := List.forall_mem_cons.mp h
      rw [List.mapM_cons]
      exact ha.bind fun b _ => (ih has).bind fun bs _ => .pure _

end Check

open Check

theorem namedType_ordinary (name : String) (offset : Nat) : Ordinary (namedType name offset) := by
  unfold namedType
  split
  · exact .pure _
  · exact .throw trivial

theorem fits_ordinary (target source : Ty) (offset : Nat) : Ordinary (fits target source offset) :=
  .ite (fun _ => .pure ()) fun _ => .throw trivial

theorem sameType_ordinary (expected actual : Ty) (offset : Nat) :
    Ordinary (sameType expected actual offset) :=
  .ite (fun _ => .pure ()) fun _ => .throw trivial

theorem Literal.type_ordinary (offset : Nat) (value : Literal) : Ordinary (value.type offset) := by
  cases value with
  | integer n => exact .ite (fun _ => .pure _) fun _ => .throw trivial
  | decimal d => exact .ite (fun _ => .pure _) fun _ => .throw trivial
  | _ => exact .pure _

theorem BinOp.type_ordinary {op : BinOp} (hop : op.level < 5) (left right : Ty)
    (leftOffset rightOffset : Nat) : Ordinary (op.type left right leftOffset rightOffset) := by
  have hsame (expected actual : Ty) (offset : Nat) (type : Ty) :
      Ordinary (do sameType expected actual offset; return type) :=
    (sameType_ordinary expected actual offset).bind fun _ _ => .pure _
  cases op with
  | and | or | pow => exact (sameType_ordinary _ _ _).bind fun _ _ => hsame _ _ _ _
  | eq | ne => exact hsame _ _ _ _
  | lt | gt => exact .ite (fun _ => .throw trivial) fun _ => hsame _ _ _ _
  | add | sub | mul | div =>
      rw [type]
      exact .ite (fun _ => .pure _) fun _ => .ite (fun _ => .throw trivial) fun _ => hsame _ _ _ _
  | other symbol => exact absurd hop (by simp [level])

theorem Context.declare_ordinary (ctx : Context) (name : String) (type : Ty) (mutable : Bool)
    (offset : Nat) : Ordinary (ctx.declare name type mutable offset) :=
  .ite (fun _ => .throw trivial) fun _ => .pure _

namespace Expr

variable (ctx : Context) (depth : Nat)

theorem lookup_ordinary (name : String) (offset : Nat) : Ordinary (lookup ctx name offset) := by
  unfold lookup
  split
  · exact .pure _
  · exact .throw trivial

theorem lookupFunction_ordinary (name : String) (arity offset : Nat) :
    Ordinary (lookupFunction ctx name arity offset) := by
  unfold lookupFunction
  split
  · exact .pure _
  · exact .ite (fun _ => .throw trivial) fun _ => .throw trivial

theorem check_ordinary {e : Expr} (h : e.Proper) : Ordinary (e.check ctx depth) := by
  induction depth generalizing e with
  | zero => exact .throw trivial
  | succ depth ih =>
      have hformed := h e .refl
      cases e with
      | literal info value => exact (value.type_ordinary info.offset).bind fun _ _ => .pure _
      | group info inner =>
          refine .ite (fun _ => .throw trivial) fun _ => ?_
          exact (ih fun x hx => h x (.group hx)).bind fun r _ => .pure _
      | binary info op left right =>
          refine (ih fun x hx => h x (.left hx)).bind fun l _ => ?_
          refine (ih fun x hx => h x (.right hx)).bind fun r _ => ?_
          exact (BinOp.type_ordinary hformed.1 _ _ _ _).bind fun type _ => .pure _
      | access info name slot =>
          exact (lookup_ordinary ctx name info.offset).bind fun v _ => .pure _
      | element info name index slot =>
          refine (lookup_ordinary ctx name info.offset).bind fun v _ => ?_
          refine (ih fun x hx => h x (.index hx)).bind fun r _ => ?_
          exact (sameType_ordinary _ _ _).bind fun _ _ => .pure _
      | call info name arguments slot =>
          refine (lookupFunction_ordinary ctx name _ _).bind fun s _ => ?_
          refine Ordinary.bind (.mapM fun p hp => ?_) fun arguments' _ => .pure _
          have hargument := (List.of_mem_zip hp).1
          refine (ih fun x hx => h x (.argument hargument hx)).bind fun r _ => ?_
          exact (fits_ordinary _ _ _).bind fun _ _ => .pure _
      | list info elements =>
          cases elements with
          | nil => exact .throw trivial
          | cons first others =>
              refine (ih fun x hx => h x (.element List.mem_cons_self hx)).bind fun r _ => ?_
              refine Ordinary.bind (.mapM fun other hother => ?_) fun others' _ => .pure _
              have hmem := List.mem_cons_of_mem first hother
              refine (ih fun x hx => h x (.element hmem hx)).bind fun r _ => ?_
              exact (sameType_ordinary _ _ _).bind fun _ _ => .pure _
      | unknown start node => exact hformed.elim

end Expr

namespace Stmt

variable {returns : Ty} {step : Context → Stmt → Check (Stmt × Context)}

def StepOrdinary (step : Context → Stmt → Check (Stmt × Context)) (S : Rule Stmt) : Prop :=
  ∀ (ctx : Context) (ts : List Token) (stmt : Stmt), S ts stmt → Ordinary (step ctx stmt)

variable {S : Rule Stmt} {ts : List Token}

theorem checkEach_ordinary (hstep : StepOrdinary step S) {stmts : List Stmt} (h : Many S ts stmts)
    (ctx : Context) (done : List Stmt) : Ordinary (checkEach step ctx done stmts).2 := by
  induction h generalizing ctx done with
  | nil => exact .pure _
  | @cons us vs stmt stmts hstmt _ ih =>
      have hordinary := hstep ctx us stmt hstmt
      unfold checkEach
      cases hresult : step ctx stmt with
      | ok r => exact ih r.2 (r.1 :: done)
      | error v => exact .throw (hordinary v hresult)

theorem checkBlock_ordinary (hstep : StepOrdinary step S) {stmts : List Stmt} (h : Many S ts stmts)
    (ctx : Context) : Ordinary (checkBlock step ctx stmts) := by
  have heach := checkEach_ordinary hstep h ctx.push []
  unfold checkBlock
  split
  · exact .pure _
  · next inner v hresult =>
      rw [hresult] at heach
      exact .throw (heach v rfl)

variable (ctx : Context) (depth offset : Nat)

theorem checkCondition_ordinary {e : Expr} (h : e.Proper) :
    Ordinary (checkCondition ctx depth e) :=
  (e.check_ordinary ctx depth h).bind fun _ _ => (sameType_ordinary _ _ _).bind fun _ _ => .pure _

theorem checkDeclaration_ordinary (name : String) (typeName : Option String) {value : Option Expr}
    (h : ∀ e, value = some e → e.Proper) :
    Ordinary (checkDeclaration ctx depth offset name typeName value) := by
  have hdeclare (type : Ty) (typeName : Option String) (value : Option Expr) : Ordinary (do
      let p ← ctx.declare name type true offset
      return (Stmt.declaration offset name typeName value (some p.1), p.2)) :=
    (ctx.declare_ordinary name type true offset).bind fun _ _ => .pure _
  cases typeName with
  | none =>
      cases value with
      | none => exact .throw trivial
      | some e =>
          rw [checkDeclaration_value]
          exact (e.check_ordinary ctx depth (h e rfl)).bind fun r _ => hdeclare _ _ _
  | some typeName =>
      cases value with
      | none =>
          rw [checkDeclaration_type]
          exact (namedType_ordinary typeName offset).bind fun type _ => hdeclare _ _ _
      | some e =>
          rw [checkDeclaration_both]
          refine (namedType_ordinary typeName offset).bind fun type _ => ?_
          refine (e.check_ordinary ctx depth (h e rfl)).bind fun r _ => ?_
          exact (fits_ordinary _ _ _).bind fun _ _ => hdeclare _ _ _

theorem checkAssignment_ordinary {receiver value : Expr} (hreceiver : receiver.Proper)
    (hvalue : value.Proper) : Ordinary (checkAssignment ctx depth offset receiver value) := by
  have hrest (target : Ty) (receiver : Expr) : Ordinary (do
      let r ← value.check ctx depth
      fits target r.1 r.2.offset
      return Stmt.assignment offset receiver r.2) :=
    (value.check_ordinary ctx depth hvalue).bind fun _ _ =>
      (fits_ordinary _ _ _).bind fun _ _ => .pure _
  cases receiver with
  | access info name slot | element info name index slot =>
      refine (Expr.check_ordinary ctx depth hreceiver).bind fun r _ => ?_
      dsimp only
      split
      · exact .ite (fun _ => .throw trivial) fun _ => hrest _ _
      · exact .ite (fun _ => .throw trivial) fun _ => hrest _ _
      · exact hrest _ _
  | _ => exact .throw trivial

theorem checkOptional_ordinary {value : Option Expr} (h : ∀ e, value = some e → e.Proper) :
    Ordinary (checkOptional ctx depth value) := by
  cases value with
  | none => exact .pure _
  | some e => exact (e.check_ordinary ctx depth (h e rfl)).bind fun _ _ => .pure _

theorem checkCases_ordinary (hstep : StepOrdinary step S) {cases : List Case}
    (h : ∀ c ∈ cases, (∀ e, c.value = some e → e.Proper) ∧ ∃ us, Many S us c.body) (type : Ty)
    (done : List Case) : Ordinary (checkCases step depth type ctx done cases) := by
  induction cases generalizing ctx done with
  | nil => exact .pure _
  | cons c cases ih =>
      obtain ⟨⟨hvalue, us, hbody⟩, hcases⟩ := List.forall_mem_cons.mp h
      obtain ⟨offset, value, body⟩ := c
      have hrest (value : Option Expr) : Ordinary (do
          let b ← checkBlock step ctx body
          checkCases step depth type b.2 (.mk offset value b.1 :: done) cases) :=
        (checkBlock_ordinary hstep hbody ctx).bind fun b _ => ih b.2 hcases _
      cases value with
      | none => exact hrest none
      | some e =>
          rw [checkCases_value]
          refine (e.check_ordinary ctx depth (hvalue e rfl)).bind fun r _ => ?_
          exact (sameType_ordinary _ _ _).bind fun _ _ => hrest _

theorem check_ordinary (depth d : Nat) : StepOrdinary (check returns depth) (Within d) := by
  induction depth generalizing d with
  | zero => exact fun _ _ _ _ => .throw trivial
  | succ depth ih =>
      intro ctx ts stmt h
      cases d with
      | zero => exact h.elim
      | succ d =>
          cases h with
          | declaration _ _ _ hvs _ =>
              refine checkDeclaration_ordinary ctx depth _ _ _ ?_
              rintro e rfl
              obtain ⟨us, he⟩ := hvs.derived
              exact he.proper
          | switch _ he hcs hds _ =>
              refine (Expr.check_ordinary ctx depth he.proper).bind fun r _ => ?_
              refine (checkCases_ordinary ctx depth (ih d) ?_ _ _).bind fun r _ => ?_
              · intro c hc
                obtain ⟨hvalue, hbody⟩ := Case.derived hcs hds hc
                exact ⟨fun e h => (hvalue e h).elim fun us he => he.proper, hbody⟩
              · exact .ite (fun _ => .throw trivial) fun _ => .pure _
          | ifElse _ he _ hbs hes _ =>
              refine (checkCondition_ordinary ctx depth he.proper).bind fun condition _ => ?_
              refine .ite (fun _ => .throw trivial) fun _ => ?_
              refine (checkBlock_ordinary (ih d) hbs ctx).bind fun b _ => ?_
              refine Ordinary.bind ?_ fun b' _ => .pure _
              cases hes with
              | none => exact checkBlock_ordinary (ih d) .nil _
              | some _ hes => exact checkBlock_ordinary (ih d) hes _
          | whileDo _ he _ hbs _ =>
              refine (checkCondition_ordinary ctx depth he.proper).bind fun condition _ => ?_
              exact (checkBlock_ordinary (ih d) hbs ctx).bind fun b _ => .pure _
          | returnNil _ _ => exact (fits_ordinary _ _ _).bind fun _ _ => .pure _
          | returnValue _ he _ =>
              refine Ordinary.bind (checkOptional_ordinary ctx depth ?_) fun value _ => ?_
              · rintro e ⟨⟩
                exact he.proper
              · exact (fits_ordinary _ _ _).bind fun _ _ => .pure _
          | expression he _ =>
              refine .ite (fun _ => .throw trivial) fun _ => ?_
              exact (Expr.check_ordinary ctx depth he.proper).bind fun r _ => .pure _
          | assignment he _ hv _ =>
              refine (checkAssignment_ordinary ctx depth _ he.proper hv.proper).bind fun r _ => ?_
              exact .pure _

end Stmt

theorem Global.check_ordinary {g : Global} (h : ∀ e, g.value = some e → e.Proper) (depth : Nat)
    (ctx : Context) : Ordinary (g.check depth ctx) := by
  obtain ⟨offset, name, typeName, mutable, value, slot⟩ := g
  have hdeclare (type : Ty) (value : Option Expr) : Ordinary (do
      let p ← ctx.declare name type mutable offset
      return ((⟨offset, name, typeName, mutable, value, some p.1⟩ : Global), p.2)) :=
    (ctx.declare_ordinary name type mutable offset).bind fun _ _ => .pure _
  cases value with
  | none =>
      rw [check_bare]
      exact (namedType_ordinary typeName offset).bind fun type _ => hdeclare _ _
  | some e =>
      rw [check_value]
      refine (namedType_ordinary typeName offset).bind fun type _ => ?_
      refine (e.check_ordinary ctx depth (h e rfl)).bind fun r _ => ?_
      exact (fits_ordinary _ _ _).bind fun _ _ => hdeclare _ _

namespace Function

theorem declare_ordinary (ctx : Context) (f : Function) : Ordinary (f.declare ctx) := by
  have hnamed (name : String) : Ordinary (namedType name f.offset) := namedType_ordinary _ _
  have hreturns : Ordinary (f.returnType.mapM (namedType · f.offset)) := by
    cases f.returnType with
    | none => exact .pure _
    | some name => exact (hnamed name).bind fun _ _ => .pure _
  refine Ordinary.bind (.mapM fun name _ => hnamed name) fun parameters _ => ?_
  refine hreturns.bind fun returns _ => ?_
  exact .ite (fun _ => .throw trivial) fun _ => .pure _

theorem declareParameters_ordinary (ctx : Context) (offset : Nat)
    (parameters : List (String × Ty)) : Ordinary (declareParameters ctx offset parameters) := by
  induction parameters generalizing ctx with
  | nil => exact .pure _
  | cons p parameters ih => exact (ctx.declare_ordinary _ _ _ _).bind fun r _ => ih r.2

theorem checkBody_ordinary {f : Function} {ts : List Token} {d : Nat}
    (h : Many (Stmt.Within d) ts f.body) (depth : Nat) (ctx : Context) (s : Signature) :
    Ordinary (f.checkBody depth ctx s) := by
  refine (declareParameters_ordinary _ _ _).bind fun inner _ => ?_
  have hstep : Stmt.StepOrdinary (Stmt.check s.returns depth) (Stmt.Within d) :=
    Stmt.check_ordinary depth d
  have heach := Stmt.checkEach_ordinary hstep h inner []
  split
  · exact .pure _
  · next inner' v hresult =>
      rw [hresult] at heach
      exact .throw (heach v rfl)

end Function

namespace Program

variable (depth : Nat) (ctx : Context)

theorem checkGlobals_ordinary {gs : List Global} (h : ∀ g ∈ gs, ∀ e, g.value = some e → e.Proper)
    (done : List Global) : Ordinary (checkGlobals depth ctx done gs) := by
  induction gs generalizing ctx done with
  | nil => exact .pure _
  | cons g gs ih =>
      obtain ⟨hg, hgs⟩ := List.forall_mem_cons.mp h
      exact (g.check_ordinary hg depth ctx).bind fun r _ => ih r.2 hgs _

theorem declareFunctions_ordinary (fs : List Function) (done : List (Function × Signature)) :
    Ordinary (declareFunctions ctx done fs) := by
  induction fs generalizing ctx done with
  | nil => exact .pure _
  | cons f fs ih => exact (f.declare_ordinary ctx).bind fun r _ => ih r.2 _

theorem checkBodies_ordinary {d : Nat} {fs : List (Function × Signature)}
    (h : ∀ p ∈ fs, ∃ ts, Many (Stmt.Within d) ts p.1.body) (done : List Function) :
    Ordinary (checkBodies depth ctx done fs) := by
  induction fs generalizing ctx done with
  | nil => exact .pure _
  | cons p fs ih =>
      obtain ⟨⟨ts, hp⟩, hfs⟩ := List.forall_mem_cons.mp h
      exact (Function.checkBody_ordinary hp depth ctx p.2).bind fun r _ => ih r.2 hfs _

theorem requireMain_ordinary : Ordinary (requireMain ctx) := by
  unfold requireMain
  split
  · exact .throw trivial
  · exact .ite (fun _ => .pure _) fun _ => .throw trivial

theorem checkWithin_ordinary {ts : List Token} {p : Program} (h : Derives ts p) :
    Ordinary (p.checkWithin depth) := by
  obtain ⟨d, h⟩ := h
  cases h with
  | @mk gs fs globals functions hgs hfs =>
      have hvalues : ∀ g ∈ globals, ∀ e, g.value = some e → e.Proper := by
        intro g hg e he
        obtain ⟨us, hg⟩ := hgs.derived g hg
        exact hg.proper (fun _ _ => Expr.Within.proper) he
      refine (checkGlobals_ordinary depth _ hvalues []).bind fun r hglobals => ?_
      obtain ⟨globals', ctx⟩ := r
      refine (declareFunctions_ordinary ctx functions []).bind fun r hdeclared => ?_
      obtain ⟨pairs, ctx'⟩ := r
      refine (requireMain_ordinary ctx').bind fun _ _ => ?_
      refine Ordinary.bind (checkBodies_ordinary (d := d) depth ctx' ?_ []) fun _ _ => .pure _
      have hfuns := checkGlobals_functions hglobals .outermost
      obtain ⟨signatures, _, rfl, _⟩ := (declareFunctions_eq_ok hfuns).mp hdeclared
      rintro ⟨f, s⟩ hpair
      obtain ⟨us, hf⟩ := hfs.derived f (List.of_mem_zip hpair).1
      cases hf with
      | mk _ _ _ _ _ _ hbody _ => exact ⟨_, hbody⟩

end Program

namespace Program

theorem ofTokens_ordinary {ts : List Token} (hts : Lexed ts) {e : ParseError}
    (h : ofTokens ts = .error e) : e.cause.Ordinary := by
  obtain ⟨depth, hdepth⟩ : ∃ depth, parseDepth = depth + 2 := ⟨33398, rfl⟩
  have hsized := Input.sized_ofTokens ts
  rw [ofTokens_eq_parsed, hdepth, parsed_eq_error] at h
  cases (parser_fits depth).follows _ hsized with
  | takes hus _ hp => simp [hp _ _ hsized hus rfl] at h
  | deep hp =>
    obtain rfl := Except.error.inj (hp.symm.trans h)
    trivial
  | unreadable ht he _ =>
    rw [Input.tokens_ofTokens hts] at ht
    exact absurd he (Expr.literal?_ne_error (hts _ ht) _)
  | refuses _ hp he _ _ =>
    obtain rfl := Except.error.inj (hp.symm.trans h)
    cases he <;> trivial

inductive Outcome (text : String) : Source Program → Prop
  | lex {e : LexError} : Token.listOfText text = .error e → Outcome text (.error (.lex e))
  | parse {tokens : List Token} {e : ParseError} : Token.listOfText text = .ok tokens →
      ofTokens tokens = .error e → Outcome text (.error (.parse e))
  | check {tokens : List Token} {p : Program} {v : Violation} :
      Token.listOfText text = .ok tokens → ofTokens tokens = .ok p → p.check = .error v →
      Outcome text (.error (.check v))
  | checked {tokens : List Token} {p q : Program} : Token.listOfText text = .ok tokens →
      ofTokens tokens = .ok p → p.check = .ok q → Outcome text (.ok q)

theorem outcome (text : String) : Outcome text (checkedOfText text) := by
  unfold checkedOfText ofText Source.tokens
  cases hlex : Token.listOfText text with
  | error e => exact .lex hlex
  | ok tokens =>
      cases hparse : ofTokens tokens with
      | error e =>
          simp only [Except.mapError, bind, Except.bind, hparse]
          exact .parse hlex hparse
      | ok p =>
          simp only [Except.mapError, bind, Except.bind, hparse]
          cases hcheck : p.check with
          | error v => exact .check hlex hparse hcheck
          | ok q => exact .checked hlex hparse hcheck

/-- A text that leads to no checked program fails for a cause of the language. -/
theorem checkedOfText_ordinary {text : String} {e : SourceError}
    (h : checkedOfText text = .error e) : e.Ordinary := by
  have houtcome := outcome text
  rw [h] at houtcome
  cases houtcome with
  | lex _ => trivial
  | parse hlex hparse => exact ofTokens_ordinary (Token.lexed_of_listOfText hlex) hparse
  | check hlex hparse hcheck =>
      have hderives := derives_of_parsed (Token.lexed_of_listOfText hlex) hparse
      exact checkWithin_ordinary checkDepth hderives _ hcheck

theorem ofText_eq_ok {text : String} {p : Program} :
    ofText text = .ok p ↔ ∃ ts, Token.listOfText text = .ok ts ∧ ofTokens ts = .ok p := by
  unfold ofText Source.tokens
  cases Token.listOfText text with
  | error e => exact ⟨nofun, nofun⟩
  | ok ts =>
      constructor
      · intro h
        refine ⟨ts, rfl, ?_⟩
        cases hparse : ofTokens ts with
        | error e =>
            simp only [Except.mapError, bind, Except.bind, hparse] at h
            cases h
        | ok p' =>
            simp only [Except.mapError, bind, Except.bind, hparse] at h
            cases h
            rfl
      · rintro ⟨_, ⟨⟩, h⟩
        simp only [Except.mapError, bind, Except.bind, h]

theorem checkedOfText_eq_ok {text : String} {q : Program} :
    checkedOfText text = .ok q ↔ ∃ p, ofText text = .ok p ∧ p.check = .ok q := by
  unfold checkedOfText
  cases ofText text with
  | error e => exact ⟨nofun, nofun⟩
  | ok p =>
      constructor
      · intro h
        refine ⟨p, rfl, ?_⟩
        cases hcheck : p.check with
        | error v =>
            simp only [Except.mapError, bind, Except.bind, hcheck] at h
            cases h
        | ok q' =>
            simp only [Except.mapError, bind, Except.bind, hcheck] at h
            cases h
            rfl
      · rintro ⟨_, ⟨⟩, h⟩
        simp only [Except.mapError, bind, Except.bind, h]

end Program

end PlcLang
