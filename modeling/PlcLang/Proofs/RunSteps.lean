import Mathlib.Logic.Relation
import PlcLang.Proofs.RunActions

namespace PlcLang

open Relation (ReflTransGen)

namespace Plan

variable {α β : Type}

section Steps

variable (answer : (pt : Point) → Run pt.Result)

/-- The plan, followed from `s`, itself changes the store `u` to `u'`. -/
def Steps : Plan α → Store → Store → Store → Prop
  | done _, _, _, _ | stop _, _, _, _ => False
  | look next, s, u, u' => (next s).Steps s u u'
  | change s' next, s, u, u' => u = s ∧ u' = s' ∨ next.Steps s' u u'
  | ask sub next, s, u, u' => ∃ r s', answer sub s = (.ok r, s') ∧ (next r).Steps s' u u'

def Moves (R : Store → Store → Prop) (plan : Plan α) (s : Store) : Prop :=
  ∀ u u', plan.Steps answer s u u' → R u u'

end Steps

variable {answer : (pt : Point) → Run pt.Result} {R : Store → Store → Prop} {s t : Store}

theorem passes_start (plan : Plan α) (s : Store) : plan.Passes answer s s := by
  induction plan with
  | done a | stop why => rfl
  | look next ih => exact ih s
  | change s' next ih | ask pt next ih => exact .inl rfl

theorem Steps.passes {plan : Plan α} {u u' : Store} (h : plan.Steps answer s u u') :
    plan.Passes answer s u ∧ plan.Passes answer s u' := by
  induction plan generalizing s with
  | done a | stop why => exact h.elim
  | look next ih => exact ih s h
  | change s' next ih =>
      obtain ⟨rfl, rfl⟩ | h := h
      · exact ⟨.inl rfl, .inr (passes_start next _)⟩
      · exact ⟨.inr (ih h).1, .inr (ih h).2⟩
  | ask pt next ih =>
      obtain ⟨r, s', hrun, h⟩ := h
      exact ⟨.inr (.inr ⟨r, s', hrun, (ih r h).1⟩), .inr (.inr ⟨r, s', hrun, (ih r h).2⟩)⟩

theorem Moves.done (a : α) : (done a).Moves answer R s := fun _ _ h => h.elim

theorem Moves.stop (why : Stop) : (stop why : Plan α).Moves answer R s := fun _ _ h => h.elim

theorem Moves.await (pt : Point) : (await pt).Moves answer R s := fun _ _ ⟨_, _, _, h⟩ => h.elim

theorem Moves.atomic {m : Run α} (h : R s (m s).2) : (atomic m).Moves answer R s := by
  intro u u' hstep
  cases hrun : m s with
  | mk r s' =>
      simp only [Plan.atomic, Steps, hrun] at hstep h
      cases r with
      | ok a | error why =>
          obtain ⟨rfl, rfl⟩ | hstep := hstep
          · exact h
          · exact hstep.elim

theorem Moves.bind {x : Plan α} {f : α → Plan β} (hx : x.Moves answer R s)
    (hf : ∀ a t, x.follow answer s = (.ok a, t) → (f a).Moves answer R t) :
    (x >>= f).Moves answer R s := by
  change (x.bind f).Moves answer R s
  induction x generalizing s with
  | done a => exact hf a s rfl
  | stop why => exact hx
  | look next ih => exact ih s hx hf
  | change s' next ih =>
      intro u u' hstep
      obtain hstep | hstep := hstep
      · exact hx u u' (.inl hstep)
      · exact ih (fun u u' h => hx u u' (.inr h)) hf u u' hstep
  | ask pt next ih =>
      rintro u u' ⟨r, s', hrun, hstep⟩
      refine ih r (fun u u' h => hx u u' ⟨r, s', hrun, h⟩) (fun a t hfollow => hf a t ?_) u u' hstep
      rw [follow_ask_ok hrun]
      exact hfollow

theorem Moves.asked {pt : Point} {f : pt.Result → Plan β}
    (hf : ∀ r t, answer pt s = (.ok r, t) → (f r).Moves answer R t) :
    (Plan.await pt >>= f).Moves answer R s :=
  .bind (.await pt) fun r t hrun => hf r t (by rwa [follow_await] at hrun)

theorem Moves.read {m : Run α} {P : α → Prop} {Q : Stop → Prop} {f : α → Plan β}
    (h : m.Gives s P Q) (hR : ∀ s, R s s) (hf : ∀ a, P a → (f a).Moves answer R s) :
    (Plan.atomic m >>= f).Moves answer R s := by
  obtain ⟨a, heq, ha⟩ | ⟨why, heq, _⟩ := h
  · refine .bind (.atomic (by rw [heq]; exact hR s)) fun b t hrun => ?_
    rw [follow_atomic, heq] at hrun
    cases hrun
    exact hf a ha
  · refine .bind (.atomic (by rw [heq]; exact hR s)) fun b t hrun => ?_
    rw [follow_atomic, heq] at hrun
    cases hrun

theorem Moves.acted {m : Run α} {a : α} {f : α → Plan β} (h : m s = (.ok a, t)) (hR : R s t)
    (hf : (f a).Moves answer R t) : (Plan.atomic m >>= f).Moves answer R s := by
  refine .bind (.atomic (by rw [h]; exact hR)) fun b u hrun => ?_
  rw [follow_atomic, h] at hrun
  cases hrun
  exact hf

/-- Where the steps of a plan and the runs of the points it asks for lead from store to store, they
lead to all stores that it passes. -/
theorem leads (plan : Plan α) (s : Store) (hsteps : plan.Moves answer R s)
    (hsub : ∀ sub t, plan.Asks answer s sub t → ReflTransGen R t (answer sub t).2) :
    (∀ t, plan.Passes answer s t → ReflTransGen R s t) ∧
      ∀ sub t, plan.Asks answer s sub t → ReflTransGen R s t := by
  induction plan generalizing s with
  | done a | stop why => exact ⟨fun t ht => ht ▸ .refl, nofun⟩
  | look next ih => exact ih s s hsteps hsub
  | change s' next ih =>
      have hfirst := hsteps s s' (.inl ⟨rfl, rfl⟩)
      obtain ⟨hpasses, hasks⟩ := ih s' (fun u u' h => hsteps u u' (.inr h)) hsub
      refine ⟨?_, fun sub t ht => .head hfirst (hasks sub t ht)⟩
      rintro t (rfl | ht)
      · exact .refl
      · exact .head hfirst (hpasses t ht)
  | ask pt next ih =>
      have hanswer := hsub pt s (.inl ⟨rfl, rfl⟩)
      have hnext (r : pt.Result) (s' : Store) (hrun : answer pt s = (.ok r, s')) :=
        ih r s' (fun u u' h => hsteps u u' ⟨r, s', hrun, h⟩) fun sub t ht =>
          hsub sub t (.inr ⟨r, s', hrun, ht⟩)
      constructor
      · rintro t (rfl | rfl | ⟨r, s', hrun, ht⟩)
        · exact .refl
        · exact hanswer
        · rw [hrun] at hanswer
          exact hanswer.trans ((hnext r s' hrun).1 t ht)
      · rintro sub t (⟨rfl, rfl⟩ | ⟨r, s', hrun, ht⟩)
        · exact .refl
        · rw [hrun] at hanswer
          exact hanswer.trans ((hnext r s' hrun).2 sub t ht)

end Plan

namespace Point

open Plan

variable {rounds : Nat} {start pt sub : Point} {s t u : Store}

/-- The run from the first point and store changes the store `u` to `u'`. -/
def Steps (rounds : Nat) (start : Point) (s u u' : Store) : Prop :=
  ∃ pt v, Reaches rounds start s pt v ∧ (pt.plan rounds).Steps (run rounds) v u u'

theorem Reaches.trans (h : Reaches rounds start s pt t) (h' : Reaches rounds pt t sub u) :
    Reaches rounds start s sub u := by
  induction h' with
  | refl => exact h
  | step _ hasks ih => exact .step ih hasks

theorem Reaches.steps (h : Reaches rounds start s pt t) {u u' : Store}
    (h' : Steps rounds pt t u u') : Steps rounds start s u u' := by
  obtain ⟨sub, v, hreach, hstep⟩ := h'
  exact ⟨sub, v, h.trans hreach, hstep⟩

theorem Reaches.leads (h : Reaches rounds start s pt t) :
    (∀ u, (pt.plan rounds).Passes (run rounds) t u → ReflTransGen (Steps rounds start s) t u) ∧
      ∀ sub u, (pt.plan rounds).Asks (run rounds) t sub u →
        ReflTransGen (Steps rounds start s) t u := by
  induction hrank : pt.rank using WellFoundedLT.induction generalizing pt t with
  | ind rank ih =>
      subst hrank
      refine Plan.leads _ t (fun u u' hstep => ⟨pt, t, h, hstep⟩) fun sub u hasks => ?_
      -- The run of a point that is asked for is the plan of a lower point.
      have hlower := (plan_onlyAsks rounds pt).asks hasks
      refine (ih sub.rank hlower (h.step hasks) rfl).1 _ ?_
      rw [congrFun (run_eq_follow rounds sub) u]
      exact passes_end _ u

theorem Visits.leads (h : Visits rounds start s t) : ReflTransGen (Steps rounds start s) s t := by
  obtain ⟨pt, u, hreach, hpasses⟩ := h
  refine .trans ?_ (hreach.leads.1 t hpasses)
  clear hpasses
  induction hreach with
  | refl => exact .refl
  | step hreach hasks ih => exact ih.trans (hreach.leads.2 _ _ hasks)

theorem Steps.visits {u' : Store} (h : Steps rounds start s u u') :
    Visits rounds start s u ∧ Visits rounds start s u' := by
  obtain ⟨pt, v, hreach, hstep⟩ := h
  have hpasses := Plan.Steps.passes hstep
  exact ⟨⟨pt, v, hreach, hpasses.1⟩, ⟨pt, v, hreach, hpasses.2⟩⟩

/-- A store of a run is one of its first plan or of the run of a point that this plan asks for. -/
theorem Visits.cases (h : Visits rounds start s t) :
    (start.plan rounds).Passes (run rounds) s t ∨
      ∃ sub u, (start.plan rounds).Asks (run rounds) s sub u ∧ Visits rounds sub u t := by
  obtain ⟨pt, u, hreach, hpasses⟩ := h
  have hfirst : (pt = start ∧ u = s) ∨ ∃ sub v,
      (start.plan rounds).Asks (run rounds) s sub v ∧ Reaches rounds sub v pt u := by
    clear hpasses
    induction hreach with
    | refl => exact .inl ⟨rfl, rfl⟩
    | step _ hasks ih =>
        obtain ⟨rfl, rfl⟩ | ⟨sub, v, hfirst, hreach⟩ := ih
        · exact .inr ⟨_, _, hasks, .refl⟩
        · exact .inr ⟨sub, v, hfirst, hreach.step hasks⟩
  obtain ⟨rfl, rfl⟩ | ⟨sub, v, hasks, hreach⟩ := hfirst
  · exact .inl hpasses
  · exact .inr ⟨sub, v, hasks, pt, u, hreach, hpasses⟩

theorem Visits.of_stop (h : Visits rounds start s t) {why : Stop}
    (hplan : start.plan rounds = .stop why) : t = s := by
  obtain hpasses | ⟨_, _, hasks, _⟩ := h.cases <;> rw [hplan] at *
  · exact hpasses
  · exact hasks.elim

end Point

theorem Contract.Kept.visits {ι : Type} {C : Contract ι} {rounds : Nat}
    {fact : Point → Store → Prop} (h : C.Kept rounds fact) {start : Point} {s t : Store} {i : ι}
    (hfact : fact start s) (hinv : C.inv s) (hpre : C.pre i start s)
    (hvisits : Point.Visits rounds start s t) : C.inv t := by
  obtain ⟨pt, u, hreach, hpasses⟩ := hvisits
  obtain ⟨hfact', hinv', j, hpre'⟩ := h.reaches hfact hinv hpre hreach
  exact (h.followed hfact' hinv' hpre').2.2 t hpasses

end PlcLang
