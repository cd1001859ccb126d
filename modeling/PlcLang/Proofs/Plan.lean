import Mathlib.Logic.Basic
import PlcLang.Execution.Interpreter

namespace PlcLang

/-- What is run at a point of a run. -/
inductive Point
  | expr (depth scope : Nat) (e : Expr)
  | exprs (depth scope : Nat) (es : List Expr)
  | stmt (depth scope : Nat) (stmt : Stmt)
  | stmts (depth scope : Nat) (stmts : List Stmt)
  | loop (rounds depth scope : Nat) (condition : Expr) (body : List Stmt)
  | select (depth scope : Nat) (value : Value) (cases : List Case)
  | call (depth : Nat) (routine : Routine) (values : List Value)
  | globals (depth : Nat) (gs : List Global)
  | program (depth : Nat) (p : Program)

abbrev Point.Result : Point → Type
  | expr .. | call .. | program .. => Value
  | exprs .. => List Value
  | stmt .. | stmts .. | loop .. => Option Value
  | select .. => List Stmt
  | globals .. => Unit

inductive Plan (α : Type)
  | done (a : α)
  | stop (why : Stop)
  | look (next : Store → Plan α)
  | change (s : Store) (next : Plan α)
  | ask (pt : Point) (next : pt.Result → Plan α)

namespace Plan

variable {α β γ : Type}

def bind : Plan α → (α → Plan β) → Plan β
  | done a, f => f a
  | stop why, _ => .stop why
  | look next, f => .look fun s => (next s).bind f
  | change s next, f => .change s (next.bind f)
  | ask pt next, f => .ask pt fun r => (next r).bind f

instance : Monad Plan where
  pure := done
  bind := bind

def atomic (m : Run α) : Plan α :=
  look fun s =>
    match m s with
    | (.ok a, s') => change s' (done a)
    | (.error why, s') => change s' (stop why)

def await (pt : Point) : Plan pt.Result := ask pt done

section Follow

variable (answer : (pt : Point) → Run pt.Result)

/-- The run that a plan stands for, where the points it asks for are run as given. -/
def follow : Plan α → Run α
  | done a => pure a
  | stop why => throw why
  | look next => fun s => (next s).follow s
  | change s next => fun _ => next.follow s
  | ask pt next => answer pt >>= fun r => (next r).follow

/-- The plan asks for the point in the store `t` when it is followed from `s`. -/
def Asks : Plan α → Store → Point → Store → Prop
  | done _, _, _, _ | stop _, _, _, _ => False
  | look next, s, pt, t => (next s).Asks s pt t
  | change s next, _, pt, t => next.Asks s pt t
  | ask sub next, s, pt, t =>
    pt = sub ∧ t = s ∨ ∃ r s', answer sub s = (.ok r, s') ∧ (next r).Asks s' pt t

/-- The store is there at some time while the plan is followed from `s`. -/
def Passes : Plan α → Store → Store → Prop
  | done _, s, t | stop _, s, t => t = s
  | look next, s, t => (next s).Passes s t
  | change s' next, s, t => t = s ∨ next.Passes s' t
  | ask sub next, s, t =>
    t = s ∨ t = (answer sub s).2 ∨ ∃ r s', answer sub s = (.ok r, s') ∧ (next r).Passes s' t

end Follow

end Plan

/-- What holds in every store, what a run may stop for, and what holds before and after a point
that is run to its end. The index ties what holds after to what holds before. -/
structure Contract (ι : Type) where
  inv : Store → Prop
  stops : Stop → Prop
  pre : ι → Point → Store → Prop
  post : ι → (pt : Point) → Store → pt.Result → Store → Prop

/-- The contract under which a fact about the points that are asked for may be used. -/
def Contract.given {ι : Type} (C : Contract ι) (fact : Point → Store → Prop) : Contract ι where
  inv := C.inv
  stops := C.stops
  pre i pt s := fact pt s → C.pre i pt s
  post i pt s r s' := fact pt s ∧ C.post i pt s r s'

/-- The contract under which a fact is known of the points that have been run to their ends. -/
def Contract.after {ι : Type} (C : Contract ι) (fact : Point → Store → Prop) : Contract ι where
  inv := C.inv
  stops := C.stops
  pre := C.pre
  post i pt s r s' := fact pt s ∧ C.post i pt s r s'

def Contract.Ends {ι α : Type} (C : Contract ι) (Φ : α → Store → Prop) :
    Except Stop α × Store → Prop
  | (.ok a, s) => C.inv s ∧ Φ a s
  | (.error why, s) => C.inv s ∧ C.stops why

theorem Contract.Ends.inv {ι α : Type} {C : Contract ι} {Φ : α → Store → Prop}
    {outcome : Except Stop α × Store} (h : C.Ends Φ outcome) : C.inv outcome.2 := by
  obtain ⟨_ | _, s⟩ := outcome <;> exact h.1

namespace Plan

variable {α β ι : Type} {answer : (pt : Point) → Run pt.Result} {C : Contract ι}

/-- The plan, followed from a store, keeps to the contract, and if it comes to its end, then as `Φ`
says. -/
def Meets (answer : (pt : Point) → Run pt.Result) (C : Contract ι) (Φ : α → Store → Prop) :
    Plan α → Store → Prop
  | done a, s => Φ a s
  | stop why, _ => C.stops why
  | look next, s => (next s).Meets answer C Φ s
  | change s next, _ => C.inv s ∧ next.Meets answer C Φ s
  | ask sub next, s => ∃ i, C.pre i sub s ∧ ∀ r s', answer sub s = (.ok r, s') → C.inv s' →
      C.post i sub s r s' → (next r).Meets answer C Φ s'

theorem meets_bind {Φ : β → Store → Prop} (x : Plan α) (f : α → Plan β) (s : Store) :
    (x >>= f).Meets answer C Φ s ↔ x.Meets answer C (fun a t => (f a).Meets answer C Φ t) s := by
  change (x.bind f).Meets answer C Φ s ↔ _
  induction x generalizing s with
  | done a => rfl
  | stop why => rfl
  | look next ih => exact ih s s
  | change s' next ih => exact and_congr_right fun _ => ih s'
  | ask pt next ih => simp only [bind, Meets, ih]

theorem Meets.bind {Φ : β → Store → Prop} {x : Plan α} {f : α → Plan β} {s : Store}
    (h : x.Meets answer C (fun a t => (f a).Meets answer C Φ t) s) :
    (x >>= f).Meets answer C Φ s :=
  (meets_bind x f s).mpr h

theorem Meets.imp {Φ Ψ : α → Store → Prop} {plan : Plan α} {s : Store}
    (h : plan.Meets answer C Φ s) (hΦΨ : ∀ a t, Φ a t → Ψ a t) : plan.Meets answer C Ψ s := by
  induction plan generalizing s with
  | done a => exact hΦΨ a s h
  | stop why => exact h
  | look next ih => exact ih s h
  | change s' next ih => exact ⟨h.1, ih h.2⟩
  | ask pt next ih =>
      obtain ⟨i, hpre, hnext⟩ := h
      exact ⟨i, hpre, fun r t hrun ht hpost => ih r (hnext r t hrun ht hpost)⟩

theorem meets_atomic {Φ : α → Store → Prop} (m : Run α) (s : Store) :
    (atomic m).Meets answer C Φ s ↔ C.Ends Φ (m s) := by
  simp only [atomic, Meets]
  split <;> next h => rw [h]; rfl

theorem follow_bind (x : Plan α) (f : α → Plan β) :
    (x >>= f).follow answer = x.follow answer >>= fun a => (f a).follow answer := by
  change (x.bind f).follow answer = _
  induction x with
  | done a => rfl
  | stop why => rfl
  | look next ih =>
      funext s
      exact congrFun (ih s) s
  | change s next ih =>
      funext _
      exact congrFun ih s
  | ask pt next ih =>
      simp only [bind, follow, ih]
      exact (bind_assoc _ _ _).symm

theorem follow_pure (a : α) : (pure a : Plan α).follow answer = pure a := rfl

theorem follow_atomic (m : Run α) : (atomic m).follow answer = m := by
  funext s
  simp only [atomic, follow]
  split <;> next h => exact h.symm

theorem follow_await (pt : Point) : (await pt).follow answer = answer pt := bind_pure _

theorem follow_ite (c : Prop) [Decidable c] (x y : Plan α) :
    (if c then x else y).follow answer = if c then x.follow answer else y.follow answer :=
  apply_ite _ c x y

theorem follow_ask_ok {pt : Point} {next : pt.Result → Plan α} {s s' : Store} {r : pt.Result}
    (h : answer pt s = (.ok r, s')) :
    (ask pt next).follow answer s = (next r).follow answer s' := by
  change (answer pt >>= fun r => (next r).follow answer) s = _
  simp only [Bind.bind, ExceptT.bind, ExceptT.mk, StateT.bind, h]
  rfl

theorem follow_ask_error {pt : Point} {next : pt.Result → Plan α} {s s' : Store} {why : Stop}
    (h : answer pt s = (.error why, s')) : (ask pt next).follow answer s = (.error why, s') := by
  change (answer pt >>= fun r => (next r).follow answer) s = _
  simp only [Bind.bind, ExceptT.bind, ExceptT.mk, StateT.bind, h]
  rfl

theorem passes_end (plan : Plan α) (s : Store) :
    plan.Passes answer s (plan.follow answer s).2 := by
  induction plan generalizing s with
  | done a => rfl
  | stop why => rfl
  | look next ih => exact ih s s
  | change s' next ih => exact .inr (ih s')
  | ask pt next ih =>
      cases hrun : answer pt s with
      | mk r s' =>
          cases r with
          | ok r =>
              rw [follow_ask_ok hrun]
              exact .inr (.inr ⟨r, s', hrun, ih r s'⟩)
          | error why =>
              rw [follow_ask_error hrun]
              exact .inr (.inl (congrArg Prod.snd hrun).symm)

/-- If each point that is asked for keeps to the contract, so does the plan. -/
theorem Meets.followed {Φ : α → Store → Prop} {plan : Plan α} {s : Store}
    (h : plan.Meets answer C Φ s) (hs : C.inv s)
    (hsub : ∀ sub t, plan.Asks answer s sub t → C.inv t → ∀ i, C.pre i sub t →
      C.Ends (C.post i sub t) (answer sub t)) :
    C.Ends Φ (plan.follow answer s) ∧
      (∀ sub t, plan.Asks answer s sub t → C.inv t ∧ ∃ i, C.pre i sub t) ∧
      ∀ t, plan.Passes answer s t → C.inv t := by
  induction plan generalizing s with
  | done a => exact ⟨⟨hs, h⟩, nofun, fun t ht => ht ▸ hs⟩
  | stop why => exact ⟨⟨hs, h⟩, nofun, fun t ht => ht ▸ hs⟩
  | look next ih => exact ih s h hs hsub
  | change s' next ih =>
      obtain ⟨hend, hasks, hpasses⟩ := ih h.2 h.1 hsub
      exact ⟨hend, hasks, fun t ht => ht.elim (fun ht => ht ▸ hs) (hpasses t)⟩
  | ask pt next ih =>
      obtain ⟨i, hpre, hnext⟩ := h
      have hpost := hsub pt s (.inl ⟨rfl, rfl⟩) hs i hpre
      cases hrun : answer pt s with
      | mk r s' =>
          rw [hrun] at hpost
          cases r with
          | ok r =>
              have hnext := hnext r s' hrun hpost.1 hpost.2
              obtain ⟨hend, hasks, hpasses⟩ := ih r hnext hpost.1 fun sub t ht =>
                hsub sub t (.inr ⟨r, s', hrun, ht⟩)
              refine ⟨follow_ask_ok hrun ▸ hend, ?_, ?_⟩
              · rintro sub t (⟨rfl, rfl⟩ | ⟨r', s'', hrun', ht⟩)
                · exact ⟨hs, i, hpre⟩
                · cases hrun.symm.trans hrun'
                  exact hasks sub t ht
              · rintro t (rfl | rfl | ⟨r', s'', hrun', ht⟩)
                · exact hs
                · exact hrun ▸ hpost.1
                · cases hrun.symm.trans hrun'
                  exact hpasses t ht
          | error why =>
              refine ⟨follow_ask_error hrun ▸ hpost, ?_, ?_⟩
              · rintro sub t (⟨rfl, rfl⟩ | ⟨r', s'', hrun', _⟩)
                · exact ⟨hs, i, hpre⟩
                · cases hrun.symm.trans hrun'
              · rintro t (rfl | rfl | ⟨r', s'', hrun', _⟩)
                · exact hs
                · exact hrun ▸ hpost.1
                · cases hrun.symm.trans hrun'

theorem Meets.given {fact : Point → Store → Prop} {Φ : α → Store → Prop} {plan : Plan α} {s : Store}
    (h : plan.Meets answer (C.after fact) Φ s) : plan.Meets answer (C.given fact) Φ s := by
  induction plan generalizing s with
  | done a => exact h
  | stop why => exact h
  | look next ih => exact ih s h
  | change s' next ih => exact ⟨h.1, ih h.2⟩
  | ask pt next ih =>
      obtain ⟨i, hpre, hnext⟩ := h
      exact ⟨i, fun _ => hpre, fun r s' hrun hinv hpost => ih r (hnext r s' hrun hinv hpost)⟩

theorem Meets.of_fact {fact : Point → Store → Prop} {Φ : α → Store → Prop} {plan : Plan α}
    {s : Store} (h : plan.Meets answer (C.given fact) Φ s)
    (hfact : ∀ sub t, plan.Asks answer s sub t → fact sub t) : plan.Meets answer C Φ s := by
  induction plan generalizing s with
  | done a => exact h
  | stop why => exact h
  | look next ih => exact ih s h hfact
  | change s' next ih => exact ⟨h.1, ih h.2 hfact⟩
  | ask pt next ih =>
      obtain ⟨i, hpre, hnext⟩ := h
      have hpt := hfact pt s (.inl ⟨rfl, rfl⟩)
      refine ⟨i, hpre hpt, fun r s' hrun hinv hpost => ?_⟩
      exact ih r (hnext r s' hrun hinv ⟨hpt, hpost⟩) fun sub t ht =>
        hfact sub t (.inr ⟨r, s', hrun, ht⟩)

end Plan

end PlcLang
