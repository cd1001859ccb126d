import PlcLang.Proofs.TypeRules
import PlcLang.Typing.Checker

namespace PlcLang

namespace Check

variable {α β : Type}

theorem bind_eq_ok {x : Check α} {f : α → Check β} {b : β} :
    (x >>= f) = .ok b ↔ ∃ a, x = .ok a ∧ f a = .ok b := by
  cases x with
  | error v => exact ⟨fun h => (nomatch h), fun ⟨_, h, _⟩ => (nomatch h)⟩
  | ok a => exact ⟨fun h => ⟨a, rfl, h⟩, fun ⟨_, ha, hb⟩ => by cases ha; exact hb⟩

theorem pure_eq_ok {a b : α} : (pure a : Check α) = .ok b ↔ a = b :=
  ⟨fun h => by cases h; rfl, fun h => by rw [h]; rfl⟩

theorem throw_eq_ok {v : Violation} {b : α} : (throw v : Check α) = .ok b ↔ False :=
  ⟨fun h => (nomatch h), False.elim⟩

theorem throw_bind {v : Violation} {f : α → Check β} : ((throw v : Check α) >>= f) = throw v := rfl

theorem ite_throw_eq_ok {c : Prop} [Decidable c] {v : Violation} {x : Check α} {a : α} :
    (if c then throw v else x) = .ok a ↔ ¬ c ∧ x = .ok a := by
  split
  · next h => exact ⟨fun hf => (nomatch hf), fun hf => absurd h hf.1⟩
  · next h => exact ⟨fun hx => ⟨h, hx⟩, fun hx => hx.2⟩

theorem mapM_eq_ok {f : α → Check β} {as : List α} {bs : List β} :
    as.mapM f = .ok bs ↔ List.Forall₂ (fun a b => f a = .ok b) as bs := by
  induction as generalizing bs with
  | nil =>
      rw [List.mapM_nil, pure_eq_ok, List.forall₂_nil_left_iff]
      exact eq_comm
  | cons a as ih =>
      simp only [List.mapM_cons, bind_eq_ok, pure_eq_ok, ih, List.forall₂_cons_left_iff]
      constructor
      · rintro ⟨b, hb, bs, hbs, rfl⟩
        exact ⟨b, bs, hb, hbs, rfl⟩
      · rintro ⟨b, bs, hb, hbs, rfl⟩
        exact ⟨b, hb, bs, hbs, rfl⟩

end Check

theorem Ty.ofName?_eq_some {name : String} {T : Ty} : ofName? name = some T ↔ T.name = name := by
  constructor
  · intro h
    unfold ofName? at h
    split at h <;> cases h <;> rfl
  · rintro rfl
    cases T <;> rfl

theorem Ty.name_injective : Function.Injective Ty.name := fun _ _ h =>
  Option.some.inj ((ofName?_eq_some.mpr h).symm.trans (ofName?_eq_some.mpr rfl))

theorem Ty.assignable_iff {T S : Ty} : T.assignable S = true ↔ T.Accepts S := by
  constructor
  · intro h
    cases T <;> cases S <;> first
      | exact .same _
      | exact .any (by decide)
      | exact .comparable (by decide)
      | exact absurd h (by decide)
  · rintro (_ | h | h)
    · cases T <;> rfl
    · cases S <;> first | rfl | exact absurd h (by decide)
    · cases S <;> first | rfl | exact absurd h (by decide)

theorem namedType_eq_ok {name : String} {offset : Nat} {T : Ty} :
    namedType name offset = .ok T ↔ T.name = name := by
  rw [← Ty.ofName?_eq_some, namedType]
  cases Ty.ofName? name with
  | none => exact ⟨fun h => (nomatch h), fun h => (nomatch h)⟩
  | some S =>
      rw [Option.some.injEq]
      exact Check.pure_eq_ok

theorem fits_eq_ok {T S : Ty} {offset : Nat} {u : Unit} :
    fits T S offset = .ok u ↔ T.Accepts S := by
  rw [← Ty.assignable_iff, fits]
  split
  · next h => exact ⟨fun _ => h, fun _ => rfl⟩
  · next h => exact ⟨fun hf => (nomatch hf), fun hf => absurd hf h⟩

theorem sameType_eq_ok {T S : Ty} {offset : Nat} {u : Unit} :
    sameType T S offset = .ok u ↔ S = T := by
  rw [sameType]
  split
  · next h => exact ⟨fun _ => h, fun _ => rfl⟩
  · next h => exact ⟨fun hf => (nomatch hf), fun hf => absurd hf h⟩

theorem Literal.type_eq_ok {value : Literal} {offset : Nat} {T : Ty} :
    value.type offset = .ok T ↔ value.HasType T := by
  cases value with
  | nil | boolean | character | string =>
      rw [type, Check.pure_eq_ok]
      exact ⟨fun h => h ▸ (by constructor), fun h => by cases h; rfl⟩
  | integer n =>
      rw [type]
      split
      · next h =>
          rw [Check.pure_eq_ok]
          exact ⟨fun hT => hT ▸ .integer h.1 h.2, fun hT => by cases hT; rfl⟩
      · next h =>
          rw [Check.throw_eq_ok]
          refine ⟨False.elim, fun hT => ?_⟩
          cases hT with
          | integer hmin hmax => exact h ⟨hmin, hmax⟩
  | decimal d =>
      rw [type]
      split
      · next h =>
          rw [Check.pure_eq_ok]
          exact ⟨fun hT => hT ▸ .decimal (d.inRange_iff.mp h), fun hT => by cases hT; rfl⟩
      · next h =>
          rw [Check.throw_eq_ok]
          refine ⟨False.elim, fun hT => ?_⟩
          cases hT with
          | decimal hd => exact h (d.inRange_iff.mpr hd)

namespace Ty

theorem ordered_iff {T : Ty} : T.ordered = true ↔ T ∈ [integer, decimal, character, string] := by
  cases T <;> decide

theorem numeric_iff {T : Ty} : T.numeric = true ↔ T ∈ [integer, decimal] := by
  cases T <;> decide

end Ty

theorem BinOp.HasType.of_type {op : BinOp} {L R T : Ty} {a b : Nat}
    (h : op.type L R a b = .ok T) : op.HasType L R T := by
  cases op with
  | and | or =>
      simp only [type, Check.bind_eq_ok, sameType_eq_ok, Check.pure_eq_ok] at h
      obtain ⟨_, rfl, _, rfl, rfl⟩ := h
      exact .logical (by decide)
  | lt | gt =>
      simp only [type, Check.throw_bind, Check.ite_throw_eq_ok, Check.bind_eq_ok, sameType_eq_ok,
        Check.pure_eq_ok, Bool.not_eq_true', Bool.not_eq_false] at h
      obtain ⟨ho, _, rfl, rfl⟩ := h
      exact .order (by decide) (Ty.ordered_iff.mp ho)
  | eq | ne =>
      simp only [type, Check.bind_eq_ok, sameType_eq_ok, Check.pure_eq_ok] at h
      obtain ⟨_, rfl, rfl⟩ := h
      exact .equality (by decide)
  | add =>
      rw [type] at h
      split at h
      · next hs =>
          obtain rfl := Check.pure_eq_ok.mp h
          exact .concatenation hs.2
      · simp only [Check.throw_bind, Check.ite_throw_eq_ok, Check.bind_eq_ok, sameType_eq_ok,
          Check.pure_eq_ok, Bool.not_eq_true', Bool.not_eq_false] at h
        obtain ⟨hn, _, rfl, rfl⟩ := h
        exact .arithmetic (by decide) (Ty.numeric_iff.mp hn)
  | sub | mul | div =>
      rw [type, if_neg (fun hs => by simp at hs)] at h
      simp only [Check.throw_bind, Check.ite_throw_eq_ok, Check.bind_eq_ok, sameType_eq_ok,
        Check.pure_eq_ok, Bool.not_eq_true', Bool.not_eq_false] at h
      obtain ⟨hn, _, rfl, rfl⟩ := h
      exact .arithmetic (by decide) (Ty.numeric_iff.mp hn)
  | pow =>
      simp only [type, Check.bind_eq_ok, sameType_eq_ok, Check.pure_eq_ok] at h
      obtain ⟨_, rfl, _, rfl, rfl⟩ := h
      exact .power
  | other symbol => exact (Check.throw_eq_ok.mp h).elim

theorem BinOp.HasType.type_eq {op : BinOp} {L R T : Ty} (h : op.HasType L R T) (a b : Nat) :
    op.type L R a b = .ok T := by
  cases h with
  | logical hop =>
      simp only [List.mem_cons, List.not_mem_nil, or_false] at hop
      rcases hop with rfl | rfl <;> rfl
  | order hop hT =>
      simp only [List.mem_cons, List.not_mem_nil, or_false] at hop hT
      rcases hop with rfl | rfl <;> rcases hT with rfl | rfl | rfl | rfl <;> rfl
  | equality hop =>
      simp only [List.mem_cons, List.not_mem_nil, or_false] at hop
      rcases hop with rfl | rfl <;> simp [type, sameType] <;> rfl
  | concatenation hs => simp [type, hs]; rfl
  | arithmetic hop hT =>
      simp only [List.mem_cons, List.not_mem_nil, or_false] at hop hT
      rcases hop with rfl | rfl | rfl | rfl <;> rcases hT with rfl | rfl <;> rfl
  | power => rfl

end PlcLang
