import PlcLang.Proofs.RunActions

namespace PlcLang

open Plan Point

structure Contract.OfScopes (C : Contract Unit) : Prop where
  inv : ∀ {s t : Store}, C.inv s → t.scopes = s.scopes → C.inv t
  stops : ∀ why, C.stops why
  expr : ∀ depth scope e s, C.pre () (expr depth scope e) s
  exprs : ∀ depth scope es s, C.pre () (exprs depth scope es) s
  select : ∀ depth scope v cases s, C.pre () (select depth scope v cases) s

namespace Contract.OfScopes

variable {C : Contract Unit} {fact : Point → Store → Prop} {rounds depth scope : Nat} {s : Store}
  {α : Type} {Φ : α → Store → Prop}

variable (h : C.OfScopes)
include h

theorem read {m : Run α} {P : α → Prop} {Q : Stop → Prop} (hm : m.Gives s P Q) (hs : C.inv s)
    (hΦ : ∀ a, P a → Φ a s) : (atomic m).Meets (run rounds) (C.given fact) Φ s :=
  (meets_atomic m s).mpr (hm.ends hs hΦ fun why _ => h.stops why)

theorem evaluated {e : Expr} {Φ : Value → Store → Prop}
    (hΦ : ∀ v t, C.inv t → fact (.expr depth scope e) s →
      e.eval rounds depth scope s = (.ok v, t) → Φ v t) :
    (eval depth scope e).Meets (run rounds) (C.given fact) Φ s :=
  ⟨(), fun _ => h.expr depth scope e s, fun v t hrun ht hpost => hΦ v t ht hpost.1 hrun⟩

theorem decided {e : Expr} {f : Bool → Plan α}
    (hf : ∀ b t, C.inv t → (f b).Meets (run rounds) (C.given fact) Φ t) :
    (do
      let v ← eval depth scope e
      let b ← atomic (Run.truth e.offset v)
      f b).Meets (run rounds) (C.given fact) Φ s :=
  .bind (h.evaluated fun v t ht _ _ => .bind (h.read (Run.truth_gives _ v) ht fun b _ => hf b t ht))

theorem allEvaluated {es : List Expr} {Φ : List Value → Store → Prop}
    (hΦ : ∀ vs t, C.inv t → Φ vs t) :
    (evalAll depth scope es).Meets (run rounds) (C.given fact) Φ s :=
  ⟨(), fun _ => h.exprs depth scope es s, fun vs t _ ht _ => hΦ vs t ht⟩

theorem exprPlan_meets (hs : C.inv s) (hcall : ∀ name arity r values t,
      s.scopes.findFunction? scope name arity = some r → C.pre () (call depth r values) t)
    (e : Expr) : (exprPlan depth scope e).Meets (run rounds) (C.given fact) (fun _ _ => True) s := by
  cases e with
  | literal info value => trivial
  | group info inner => exact h.evaluated fun _ _ _ _ _ => trivial
  | binary info op left right =>
      cases op with
      | and =>
          refine h.decided fun b t _ => ?_
          cases b with
          | false => trivial
          | true => exact h.decided fun _ _ _ => trivial
      | or =>
          refine h.decided fun b t _ => ?_
          cases b with
          | false => exact h.decided fun _ _ _ => trivial
          | true => trivial
      | _ =>
          exact .bind (h.evaluated fun v t _ _ _ => .bind (h.evaluated fun w u hu _ _ =>
            h.read (Run.operate_gives depth info.offset _ v w) hu fun _ _ => trivial))
  | access info name slot =>
      exact .bind (h.read (Run.lookup_gives scope name _) hs fun _ _ => trivial)
  | element info name index slot =>
      refine .bind (h.read (Run.lookup_gives scope name _) hs fun found _ => ?_)
      refine .bind (h.read (Run.addressOf_gives name _ found.2.value) hs fun address _ => ?_)
      refine .bind (h.read (Run.lengthOf_gives address) hs fun length _ => ?_)
      refine .bind (h.evaluated fun v t ht _ _ => ?_)
      refine .bind (h.read (Run.position_gives _ _ v) ht fun i _ => ?_)
      exact .bind (h.read (Run.elements_gives address) ht fun _ _ => trivial)
  | call info name arguments slot =>
      refine .bind (h.read (Run.lookupRoutine_gives scope name _ _) hs fun r hr => ?_)
      refine .bind (h.allEvaluated fun vs t _ => ?_)
      exact ⟨(), fun _ => hcall name _ r vs t hr, fun _ _ _ _ _ => trivial⟩
  | list info elements =>
      exact .bind (h.allEvaluated fun vs t ht => (meets_atomic _ t).mpr ⟨h.inv ht rfl, trivial⟩)
  | unknown start node => exact h.stops _

theorem elementAssigned (hs : C.inv s) (offset : Nat) (info : Info) (name : String) (index : Expr)
    (slot : Option Variable) (value : Expr) :
    (stmtPlan rounds depth scope (.assignment offset (.element info name index slot) value)).Meets
      (run rounds) (C.given fact) (fun _ _ => True) s := by
  refine .bind (h.read (Run.lookup_gives scope name _) hs fun found _ => ?_)
  refine .bind (h.read (Run.requireMutable_gives found.2 name offset) hs fun _ _ => ?_)
  refine .bind (h.read (Run.addressOf_gives name _ found.2.value) hs fun address _ => ?_)
  refine .bind (h.read (Run.lengthOf_gives address) hs fun length _ => ?_)
  refine .bind (h.evaluated fun v t ht _ _ => ?_)
  refine .bind (h.read (Run.position_gives _ _ v) ht fun i _ => ?_)
  exact .bind (h.evaluated fun w u hu _ _ => .bind ((meets_atomic _ u).mpr ⟨h.inv hu rfl, trivial⟩))

theorem printed (hs : C.inv s) (signature : Signature) (values : List Value) :
    (callPlan depth ⟨signature, .print⟩ values).Meets (run rounds) (C.given fact)
      (fun _ _ => True) s :=
  .bind (h.read (Run.text_gives depth _) hs fun _ _ =>
    .bind ((meets_atomic _ s).mpr ⟨h.inv hs rfl, trivial⟩))

theorem exprs_meets (es : List Expr) :
    ((Point.exprs depth scope es).plan rounds).Meets (run rounds) (C.given fact)
      (fun _ _ => True) s := by
  cases es with
  | nil => trivial
  | cons e es => exact .bind (h.evaluated fun _ _ _ _ _ => .bind (h.allEvaluated fun _ _ _ => trivial))

theorem select_meets (v : Value) (cases : List Case) :
    ((Point.select depth scope v cases).plan rounds).Meets (run rounds) (C.given fact)
      (fun _ _ => True) s := by
  cases cases with
  | nil => trivial
  | cons c rest =>
      obtain ⟨offset, value, body⟩ := c
      cases value with
      | none => trivial
      | some e =>
          refine .bind (h.evaluated fun w t ht _ _ => ?_)
          refine .bind (h.read (Run.equal_gives depth w v) ht fun b _ => ?_)
          cases b with
          | true => trivial
          | false => exact ⟨(), fun _ => h.select depth scope v rest t, fun _ _ _ _ _ => trivial⟩

end Contract.OfScopes

end PlcLang
