import PlcLang.Proofs.RunSteps

namespace PlcLang

namespace Plan

variable {α ι : Type}

section Before

variable (answer : (pt : Point) → Run pt.Result) (broken : Point → Store → Prop)

/-- The plan asks for the point in the store `t`, and nothing that it has asked for before is broken. -/
def AsksBefore : Plan α → Store → Point → Store → Prop
  | done _, _, _, _ | stop _, _, _, _ => False
  | look next, s, pt, t => (next s).AsksBefore s pt t
  | change s next, _, pt, t => next.AsksBefore s pt t
  | ask sub next, s, pt, t => pt = sub ∧ t = s ∨
    ¬ broken sub s ∧ ∃ r s', answer sub s = (.ok r, s') ∧ (next r).AsksBefore s' pt t

def PassesBefore : Plan α → Store → Store → Prop
  | done _, s, t | stop _, s, t => t = s
  | look next, s, t => (next s).PassesBefore s t
  | change s' next, s, t => t = s ∨ next.PassesBefore s' t
  | ask sub next, s, t => t = s ∨ ¬ broken sub s ∧ (t = (answer sub s).2 ∨
    ∃ r s', answer sub s = (.ok r, s') ∧ (next r).PassesBefore s' t)

end Before

variable {answer : (pt : Point) → Run pt.Result} {broken : Point → Store → Prop} {plan : Plan α}
  {s t : Store} {sub : Point}

theorem AsksBefore.asks (h : plan.AsksBefore answer broken s sub t) : plan.Asks answer s sub t := by
  induction plan generalizing s with
  | done a | stop why => exact h
  | look next ih => exact ih s h
  | change s' next ih => exact ih h
  | ask pt next ih => exact h.imp_right fun ⟨_, r, s', hrun, hnext⟩ => ⟨r, s', hrun, ih r hnext⟩

theorem Asks.before (h : plan.Asks answer s sub t)
    (hnone : ∀ pt u, plan.Asks answer s pt u → ¬ broken pt u) :
    plan.AsksBefore answer broken s sub t := by
  induction plan generalizing s with
  | done a | stop why => exact h
  | look next ih => exact ih s h hnone
  | change s' next ih => exact ih h hnone
  | ask pt next ih =>
      refine h.imp_right fun ⟨r, s', hrun, hnext⟩ => ⟨hnone pt s (.inl ⟨rfl, rfl⟩), r, s', hrun, ?_⟩
      exact ih r hnext fun pt u hasks => hnone pt u (.inr ⟨r, s', hrun, hasks⟩)

theorem Passes.before (h : plan.Passes answer s t)
    (hnone : ∀ pt u, plan.Asks answer s pt u → ¬ broken pt u) :
    plan.PassesBefore answer broken s t := by
  induction plan generalizing s with
  | done a | stop why => exact h
  | look next ih => exact ih s h hnone
  | change s' next ih => exact h.imp_right fun hnext => ih hnext hnone
  | ask pt next ih =>
      refine h.imp_right fun h => ⟨hnone pt s (.inl ⟨rfl, rfl⟩), h.imp_right ?_⟩
      rintro ⟨r, s', hrun, hnext⟩
      exact ⟨r, s', hrun, ih r hnext fun pt u hasks => hnone pt u (.inr ⟨r, s', hrun, hasks⟩)⟩

section Read

variable {β : Type} {m : Run β} {f : β → Plan α}

theorem AsksBefore.of_read {P : β → Prop} {Q : Stop → Prop} (hm : m.Gives s P Q)
    (h : (atomic m >>= f).AsksBefore answer broken s sub t) :
    ∃ a, m s = (.ok a, s) ∧ (f a).AsksBefore answer broken s sub t := by
  change ((atomic m).bind f).AsksBefore answer broken s sub t at h
  obtain ⟨a, heq, _⟩ | ⟨why, heq, _⟩ := hm <;> simp only [atomic, Plan.bind, AsksBefore, heq] at h
  exact ⟨a, heq, h⟩

theorem Asks.read {a : β} (hm : m s = (.ok a, s)) (h : (f a).Asks answer s sub t) :
    (atomic m >>= f).Asks answer s sub t := by
  change ((atomic m).bind f).Asks answer s sub t
  simp only [atomic, Plan.bind, Asks, hm]
  exact h

end Read

/-- Up to a point that breaks the contract, it is kept. -/
theorem Meets.before {C : Contract ι} {fact : Point → Store → Prop} {Φ : α → Store → Prop}
    (h : plan.Meets answer (C.after fact) Φ s) (hs : C.inv s)
    (hsub : ∀ sub t, plan.Asks answer s sub t → ¬ broken sub t → C.inv t → ∀ i, C.pre i sub t →
      fact sub t ∧ C.Ends (C.post i sub t) (answer sub t)) :
    (∀ sub t, plan.AsksBefore answer broken s sub t → C.inv t ∧ ∃ i, C.pre i sub t) ∧
      ∀ t, plan.PassesBefore answer broken s t → C.inv t := by
  induction plan generalizing s with
  | done a | stop why => exact ⟨nofun, fun t ht => ht ▸ hs⟩
  | look next ih => exact ih s h hs hsub
  | change s' next ih =>
      obtain ⟨hasks, hpasses⟩ := ih h.2 h.1 hsub
      exact ⟨hasks, fun t ht => ht.elim (fun ht => ht ▸ hs) (hpasses t)⟩
  | ask pt next ih =>
      obtain ⟨i, hpre, hnext⟩ := h
      have hends (hwhole : ¬ broken pt s) := hsub pt s (.inl ⟨rfl, rfl⟩) hwhole hs i hpre
      have hrest {r : pt.Result} {s' : Store} (hwhole : ¬ broken pt s)
          (hrun : answer pt s = (.ok r, s')) := by
        obtain ⟨hfact, hpost⟩ := hends hwhole
        rw [hrun] at hpost
        exact ih r (hnext r s' hrun hpost.1 ⟨hfact, hpost.2⟩) hpost.1 fun sub t hasks =>
          hsub sub t (.inr ⟨r, s', hrun, hasks⟩)
      constructor
      · rintro sub t (⟨rfl, rfl⟩ | ⟨hwhole, r, s', hrun, ht⟩)
        · exact ⟨hs, i, hpre⟩
        · exact (hrest hwhole hrun).1 sub t ht
      · rintro t (rfl | ⟨hwhole, rfl | ⟨r, s', hrun, ht⟩⟩)
        · exact hs
        · exact (hends hwhole).2.inv
        · exact (hrest hwhole hrun).2 t ht

end Plan

namespace Point

open Plan

variable (rounds : Nat) (breaks : Point → Store → Prop)

def Breaking (pt : Point) (s : Store) : Prop :=
  ∃ sub t, Reaches rounds pt s sub t ∧ breaks sub t

/-- The run comes to the point in the store, and nothing that has been run before breaks. -/
inductive ReachesBefore (start : Point) (s : Store) : Point → Store → Prop
  | refl : ReachesBefore start s start s
  | step {pt sub : Point} {t u : Store} : ReachesBefore start s pt t →
      (pt.plan rounds).AsksBefore (run rounds) (Breaking rounds breaks) t sub u →
      ReachesBefore start s sub u

/-- The store is there at some time of the run, and nothing that has been run before breaks. The
stores of a point that breaks itself are those of the points that it asks for. -/
def VisitsBefore (start : Point) (s t : Store) : Prop :=
  ∃ pt u, ReachesBefore rounds breaks start s pt u ∧ ¬ breaks pt u ∧
    (pt.plan rounds).PassesBefore (run rounds) (Breaking rounds breaks) u t

variable {rounds : Nat} {breaks : Point → Store → Prop} {start pt sub : Point} {s t : Store}

theorem ReachesBefore.reaches (h : ReachesBefore rounds breaks start s pt t) :
    Reaches rounds start s pt t := by
  induction h with
  | refl => exact .refl
  | step _ hasks ih => exact ih.step hasks.asks

theorem Breaking.of_reaches (h : Reaches rounds start s pt t) (hpt : Breaking rounds breaks pt t) :
    Breaking rounds breaks start s := by
  obtain ⟨sub, u, hreach, hsub⟩ := hpt
  exact ⟨sub, u, h.trans hreach, hsub⟩

section

variable (hwhole : ¬ Breaking rounds breaks start s)
include hwhole

theorem Reaches.asks_whole (h : Reaches rounds start s pt t) (sub : Point) (u : Store)
    (hasks : (pt.plan rounds).Asks (run rounds) t sub u) : ¬ Breaking rounds breaks sub u :=
  fun hbreaks => hwhole (.of_reaches (h.step hasks) hbreaks)

theorem Reaches.before (h : Reaches rounds start s pt t) :
    ReachesBefore rounds breaks start s pt t := by
  induction h with
  | refl => exact .refl
  | step hreach hasks ih => exact .step ih (hasks.before (hreach.asks_whole hwhole))

theorem Visits.before (h : Visits rounds start s t) : VisitsBefore rounds breaks start s t := by
  obtain ⟨pt, u, hreach, hpasses⟩ := h
  exact ⟨pt, u, hreach.before hwhole, fun hbreaks => hwhole ⟨pt, u, hreach, hbreaks⟩,
    hpasses.before (hreach.asks_whole hwhole)⟩

end

end Point

end PlcLang
