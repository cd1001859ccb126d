import Mathlib.Logic.Relation
import PlcLang.Proofs.ScopeChain

namespace PlcLang

namespace Arena

inductive Event (ν φ : Type) where
  | opened (parent : Option Nat)
  | variableDefined (scope : Nat) (name : String) (entry : ν)
  | functionDefined (scope : Nat) (name : String) (arity : Nat) (entry : φ)

abbrev History (ν φ : Type) := List (Event ν φ)

section Outward

variable {α : Type} (parent : Nat → Option Nat) (own : Nat → Option α)

/-- The first scope is the second one or a descendant of it. -/
def Within : Nat → Nat → Prop := Relation.ReflTransGen fun s p => parent s = some p

/-- Of the scopes on the way outward from `s` that have something of their own, `d` is the first,
and what it has is `x`. -/
structure Nearest (s d : Nat) (x : α) : Prop where
  within : Within parent s d
  has : own d = some x
  first : ∀ e, Within parent s e → (own e).isSome → Within parent d e

/-- On the way outward from `s` to `d` an earlier scope has something of its own. -/
def Shielded (d s : Nat) : Prop :=
  ∃ e, Within parent s e ∧ Within parent e d ∧ e ≠ d ∧ (own e).isSome

end Outward

namespace Event

variable {ν φ : Type}

def apply (a : Arena ν φ) : Event ν φ → Arena ν φ
  | .opened parent => a.push parent
  | .variableDefined scope name entry => a.putVariable scope name entry
  | .functionDefined scope name arity entry => a.putFunction scope name arity entry

def parent? : Event ν φ → Option (Option Nat)
  | .opened parent => some parent
  | _ => none

def variableOf? (scope : Nat) (name : String) : Event ν φ → Option ν
  | .variableDefined s n entry => if s = scope ∧ n = name then some entry else none
  | _ => none

def functionOf? (scope : Nat) (name : String) (arity : Nat) : Event ν φ → Option φ
  | .functionDefined s n k entry => if s = scope ∧ n = name ∧ k = arity then some entry else none
  | _ => none

def Refers (n : Nat) : Event ν φ → Prop
  | .opened parent => ∀ p, parent = some p → p < n
  | .variableDefined scope _ _ => scope < n
  | .functionDefined scope _ _ _ => scope < n

instance (n : Nat) : (e : Event ν φ) → Decidable (e.Refers n)
  | .opened none => .isTrue nofun
  | .opened (some p) => decidable_of_iff (p < n) (by simp [Refers])
  | .variableDefined scope _ _ => inferInstanceAs (Decidable (scope < n))
  | .functionDefined scope _ _ _ => inferInstanceAs (Decidable (scope < n))

end Event

namespace History

variable {ν φ α : Type}

def arena (h : History ν φ) : Arena ν φ := h.foldl Event.apply {}

def parents (h : History ν φ) : List (Option Nat) := h.filterMap Event.parent?

def parent? (h : History ν φ) (scope : Nat) : Option Nat := (h.parents[scope]?).join

def latest? (h : History ν φ) (pick : Event ν φ → Option α) : Option α :=
  (h.filterMap pick).getLast?

def latestVariable? (h : History ν φ) (scope : Nat) (name : String) : Option ν :=
  h.latest? (Event.variableOf? scope name)

def latestFunction? (h : History ν φ) (scope : Nat) (name : String) (arity : Nat) : Option φ :=
  h.latest? (Event.functionOf? scope name arity)

inductive Valid : History ν φ → Prop
  | nil : Valid []
  | snoc {h : History ν φ} {e : Event ν φ} :
    Valid h → e.Refers h.parents.length → Valid (h ++ [e])

end History

section Search

variable {ν φ α : Type} {a : Arena ν φ} {ask : Frame ν φ → Option α}

theorem within_iff {parent : Nat → Option Nat} {s d : Nat} :
    Within parent s d ↔ s = d ∨ ∃ p, parent s = some p ∧ Within parent p d := by
  rw [Within, Relation.ReflTransGen.cases_head_iff]

theorem Within.le {parent : Nat → Option Nat} (older : ∀ i p, parent i = some p → p < i)
    {s d : Nat} (h : Within parent s d) : d ≤ s := by
  induction h with
  | refl => exact Nat.le_refl _
  | tail _ hp ih => exact Nat.le_trans (Nat.le_of_lt (older _ _ hp)) ih

theorem Within.antisymm {parent : Nat → Option Nat} (older : ∀ i p, parent i = some p → p < i)
    {s d : Nat} (h : Within parent s d) (h' : Within parent d s) : s = d :=
  Nat.le_antisymm (h'.le older) (h.le older)

/-- Where a scope has nothing of its own, the scopes outward that have something are those of the
parent. -/
theorem within_iff_of_none {parent : Nat → Option Nat} {own : Nat → Option α} {s d : Nat}
    (hown : own s = none) :
    Within parent s d ∧ (own d).isSome ↔
      ∃ p, parent s = some p ∧ Within parent p d ∧ (own d).isSome := by
  rw [within_iff]
  constructor
  · rintro ⟨rfl | ⟨p, hp, hwithin⟩, hsome⟩
    · rw [hown] at hsome
      cases hsome
    · exact ⟨p, hp, hwithin, hsome⟩
  · rintro ⟨p, hp, hwithin, hsome⟩
    exact ⟨.inr ⟨p, hp, hwithin⟩, hsome⟩

theorem nearest_iff_of_none {parent : Nat → Option Nat} {own : Nat → Option α} {s d : Nat} {x : α}
    (hown : own s = none) :
    Nearest parent own s d x ↔ ∃ p, parent s = some p ∧ Nearest parent own p d x := by
  constructor
  · rintro ⟨hwithin, has, first⟩
    obtain ⟨p, hp, hwithin, _⟩ :=
      (within_iff_of_none hown).mp ⟨hwithin, Option.isSome_of_eq_some has⟩
    exact ⟨p, hp, hwithin, has, fun e he => first e (within_iff.mpr (.inr ⟨p, hp, he⟩))⟩
  · rintro ⟨p, hp, hwithin, has, first⟩
    refine ⟨within_iff.mpr (.inr ⟨p, hp, hwithin⟩), has, fun e he hsome => ?_⟩
    obtain ⟨p', hp', he, _⟩ := (within_iff_of_none hown).mp ⟨he, hsome⟩
    cases hp.symm.trans hp'
    exact first e he hsome

theorem search_eq_some_iff (older : ∀ i p, a.parent? i = some p → p < i) {s d : Nat} {x : α} :
    a.search ask s = some (d, x) ↔ Nearest a.parent? (a.own? ask) s d x := by
  induction s using Nat.strong_induction_on with
  | _ s ih =>
      rw [search_eq older]
      cases hown : a.own? ask s with
      | some y =>
          simp only [Option.map_some, Option.some_or, Option.some.injEq, Prod.mk.injEq]
          constructor
          · rintro ⟨rfl, rfl⟩
            exact ⟨.refl, hown, fun e he _ => he⟩
          · rintro ⟨hwithin, has, first⟩
            have heq := hwithin.antisymm older (first s .refl (by rw [hown]; rfl))
            subst heq
            exact ⟨rfl, Option.some.inj (hown.symm.trans has)⟩
      | none =>
          rw [nearest_iff_of_none hown, Option.map_none, Option.none_or, Option.bind_eq_some_iff]
          exact exists_congr fun p => and_congr_right fun hp => ih p (older s p hp)

theorem search_isSome_iff (older : ∀ i p, a.parent? i = some p → p < i) {s : Nat} :
    (a.search ask s).isSome ↔ ∃ d, Within a.parent? s d ∧ (a.own? ask d).isSome := by
  induction s using Nat.strong_induction_on with
  | _ s ih =>
      rw [search_eq older]
      cases hown : a.own? ask s with
      | some y => exact ⟨fun _ => ⟨s, .refl, by rw [hown]; rfl⟩, fun _ => rfl⟩
      | none =>
          simp only [Option.map_none, Option.none_or, within_iff_of_none hown]
          cases hp : a.parent? s with
          | none => simp
          | some p => simpa using ih p (older s p hp)

/-- A change of the frame of one scope is seen from the scopes within it that nothing shields. -/
theorem search_modifyFrame (older : ∀ i p, a.parent? i = some p → p < i) {d : Nat}
    (f : Frame ν φ → Frame ν φ) {s : Nat}
    (hunseen : ¬ Within a.parent? s d ∨ Shielded a.parent? (a.own? ask) d s) :
    (a.modifyFrame d f).search ask s = a.search ask s := by
  have older' (i p : Nat) (hp : (a.modifyFrame d f).parent? i = some p) : p < i :=
    older i p (by rwa [parent?_modifyFrame] at hp)
  induction s using Nat.strong_induction_on with
  | _ s ih =>
      have hne : d ≠ s := by
        rintro rfl
        obtain hout | ⟨e, hde, hed, hne, _⟩ := hunseen
        · exact hout .refl
        · exact hne (hed.antisymm older hde)
      rw [search_eq older, search_eq older', own?_modifyFrame, if_neg hne, parent?_modifyFrame]
      cases hown : a.own? ask s with
      | some y => rfl
      | none =>
          cases hp : a.parent? s with
          | none => rfl
          | some p =>
              rw [Option.bind_some, Option.bind_some, ih p (older s p hp)]
              obtain hout | ⟨e, hse, hed, hne, hsome⟩ := hunseen
              · exact .inl fun hin => hout (within_iff.mpr (.inr ⟨p, hp, hin⟩))
              · obtain ⟨p', hp', hpe, _⟩ := (within_iff_of_none hown).mp ⟨hse, hsome⟩
                cases hp.symm.trans hp'
                exact .inr ⟨e, hpe, hed, hne, hsome⟩

/-- Lookups depend on the parents and on what the scopes themselves answer. -/
theorem search_congr {a' : Arena ν φ} (older : ∀ i p, a.parent? i = some p → p < i)
    (hparent : a'.parent? = a.parent?) (hown : a'.own? ask = a.own? ask) (s : Nat) :
    a'.search ask s = a.search ask s := by
  have older' (i p : Nat) (hp : a'.parent? i = some p) : p < i := older i p (by rwa [hparent] at hp)
  refine Option.ext fun ⟨d, x⟩ => ?_
  rw [search_eq_some_iff older, search_eq_some_iff older', hparent, hown]

theorem search_modifyFrame_of_eq (older : ∀ i p, a.parent? i = some p → p < i)
    (ask : Frame ν φ → Option α) (d : Nat) (f : Frame ν φ → Frame ν φ)
    (hask : ∀ frame, ask (f frame) = ask frame) (s : Nat) :
    (a.modifyFrame d f).search ask s = a.search ask s := by
  refine search_congr older (funext fun i => parent?_modifyFrame d f i) (funext fun i => ?_) s
  rw [own?_modifyFrame, funext hask, ite_self]

end Search

section Own

variable {ν φ : Type} {a : Arena ν φ} {d : Nat}

theorem own?_putVariable (h : d < a.nodes.size) (name : String) (entry : ν) (i : Nat)
    (key : String) : (a.putVariable d name entry).own? (·.findVariable? key) i =
      if d = i ∧ name = key then some entry else a.own? (·.findVariable? key) i := by
  rw [putVariable, own?_modifyFrame]
  by_cases hi : d = i
  · subst hi
    simp only [own?, Array.getElem?_eq_getElem h, Option.bind_some, true_and, if_true]
    exact Frame.findVariable?_putVariable ..
  · rw [if_neg hi, if_neg (fun hboth => hi hboth.1)]

theorem own?_putFunction (h : d < a.nodes.size) (name : String) (arity : Nat) (entry : φ) (i : Nat)
    (key : String) (n : Nat) : (a.putFunction d name arity entry).own? (·.findFunction? key n) i =
      if d = i ∧ name = key ∧ arity = n then some entry
      else a.own? (·.findFunction? key n) i := by
  rw [putFunction, own?_modifyFrame]
  by_cases hi : d = i
  · subst hi
    simp only [own?, Array.getElem?_eq_getElem h, Option.bind_some, true_and, if_true]
    exact Frame.findFunction?_putFunction ..
  · rw [if_neg hi, if_neg (fun hboth => hi hboth.1)]

theorem own?_hasOverload_isSome (name : String) (i : Nat) :
    (a.own? (fun f => if f.hasOverload name then some () else none) i).isSome ↔
      ∃ arity, (a.own? (·.findFunction? name arity) i).isSome := by
  simp only [own?]
  cases a.nodes[i]? with
  | none => simp
  | some node =>
      simp only [Option.bind_some, ← Frame.hasOverload_iff]
      split <;> simp_all

end Own

namespace History

variable {ν φ α : Type} {h : History ν φ} {a : Arena ν φ}

theorem arena_snoc (e : Event ν φ) : arena (h ++ [e]) = e.apply h.arena :=
  List.foldl_append

theorem latest?_snoc (e : Event ν φ) (pick : Event ν φ → Option α) :
    latest? (h ++ [e]) pick = (pick e).or (h.latest? pick) := by
  rw [latest?, List.filterMap_append, List.getLast?_append, latest?]
  cases hpick : pick e <;> simp [hpick]

theorem latestVariable?_snoc (e : Event ν φ) (d : Nat) (name : String) :
    latestVariable? (h ++ [e]) d name = (e.variableOf? d name).or (h.latestVariable? d name) :=
  latest?_snoc e _

theorem latestFunction?_snoc (e : Event ν φ) (d : Nat) (name : String) (arity : Nat) :
    latestFunction? (h ++ [e]) d name arity =
      (e.functionOf? d name arity).or (h.latestFunction? d name arity) :=
  latest?_snoc e _

theorem parents_snoc (e : Event ν φ) : parents (h ++ [e]) = h.parents ++ e.parent?.toList := by
  rw [parents, List.filterMap_append, parents]
  cases hparent : e.parent? <;> simp [hparent]

theorem parent?_snoc_opened (parent : Option Nat) (i : Nat) :
    parent? (h ++ [.opened parent]) i =
      if i = h.parents.length then parent else h.parent? i := by
  rw [parent?, parents_snoc, parent?]
  obtain hlt | rfl | hgt := Nat.lt_trichotomy i h.parents.length
  · rw [List.getElem?_append_left hlt, if_neg (Nat.ne_of_lt hlt)]
  · simp [Event.parent?]
  · rw [if_neg (Nat.ne_of_gt hgt), List.getElem?_eq_none (by simp [Event.parent?]; omega),
      List.getElem?_eq_none (Nat.le_of_lt hgt)]

theorem parent?_snoc_of_none {e : Event ν φ} (he : e.parent? = none) :
    parent? (h ++ [e]) = h.parent? := by
  funext i
  rw [parent?, parents_snoc, he, Option.toList_none, List.append_nil, parent?]

structure Recorded (h : History ν φ) (a : Arena ν φ) : Prop where
  size : a.nodes.size = h.parents.length
  parent : a.parent? = h.parent?
  older : ∀ i p, a.parent? i = some p → p < i
  variableOwn : ∀ name d, a.own? (·.findVariable? name) d = h.latestVariable? d name
  functionOwn : ∀ name arity d,
    a.own? (·.findFunction? name arity) d = h.latestFunction? d name arity

theorem recorded_nil : Recorded ([] : History ν φ) {} where
  size := rfl
  parent := rfl
  older := nofun
  variableOwn _ _ := rfl
  functionOwn _ _ _ := rfl

namespace Recorded

theorem opened (hr : Recorded h a) {parent : Option Nat}
    (hp : ∀ p, parent = some p → p < h.parents.length) :
    Recorded (h ++ [.opened parent]) (a.push parent) where
  size := by simp [parents_snoc, push, hr.size, Event.parent?]
  parent := by
    funext i
    rw [parent?_push, parent?_snoc_opened, hr.size, hr.parent]
  older i p hi := by
    rw [parent?_push] at hi
    split at hi
    · next heq =>
        rw [heq, hr.size]
        exact hp p hi
    · exact hr.older i p hi
  variableOwn name i := by
    rw [own?_push _ rfl, hr.variableOwn, latestVariable?_snoc]
    rfl
  functionOwn name arity i := by
    rw [own?_push _ rfl, hr.functionOwn, latestFunction?_snoc]
    rfl

theorem parents_kept (hr : Recorded h a) {e : Event ν φ} (he : e.parent? = none) (d : Nat)
    (f : Frame ν φ → Frame ν φ) :
    (a.modifyFrame d f).nodes.size = (parents (h ++ [e])).length ∧
      (a.modifyFrame d f).parent? = parent? (h ++ [e]) ∧
      ∀ i p, (a.modifyFrame d f).parent? i = some p → p < i := by
  have hparent : (a.modifyFrame d f).parent? = a.parent? :=
    funext fun i => parent?_modifyFrame d f i
  rw [parents_snoc, he, Option.toList_none, List.append_nil, parent?_snoc_of_none he, hparent]
  exact ⟨Array.size_modify.trans hr.size, hr.parent, hr.older⟩

theorem variableDefined (hr : Recorded h a) {d : Nat} (hd : d < h.parents.length) (name : String)
    (entry : ν) :
    Recorded (h ++ [.variableDefined d name entry]) (a.putVariable d name entry) := by
  obtain ⟨hsize, hparent, holder⟩ :=
    hr.parents_kept (e := .variableDefined d name entry) rfl d (·.putVariable name entry)
  refine ⟨hsize, hparent, holder, fun key i => ?_, fun key arity i => ?_⟩
  · rw [own?_putVariable (hr.size ▸ hd), hr.variableOwn, latestVariable?_snoc, Event.variableOf?]
    split <;> rfl
  · rw [putVariable, own?_modifyFrame, latestFunction?_snoc]
    exact (ite_self _).trans (hr.functionOwn key arity i)

theorem functionDefined (hr : Recorded h a) {d : Nat} (hd : d < h.parents.length) (name : String)
    (arity : Nat) (entry : φ) :
    Recorded (h ++ [.functionDefined d name arity entry]) (a.putFunction d name arity entry) := by
  obtain ⟨hsize, hparent, holder⟩ := hr.parents_kept
    (e := .functionDefined d name arity entry) rfl d (·.putFunction name arity entry)
  refine ⟨hsize, hparent, holder, fun key i => ?_, fun key n i => ?_⟩
  · rw [putFunction, own?_modifyFrame, latestVariable?_snoc]
    exact (ite_self _).trans (hr.variableOwn key i)
  · rw [own?_putFunction (hr.size ▸ hd), hr.functionOwn, latestFunction?_snoc, Event.functionOf?]
    split <;> rfl

theorem apply (hr : Recorded h a) {e : Event ν φ} (he : e.Refers h.parents.length) :
    Recorded (h ++ [e]) (e.apply a) := by
  cases e with
  | opened parent => exact hr.opened he
  | variableDefined d name entry => exact hr.variableDefined he name entry
  | functionDefined d name arity entry => exact hr.functionDefined he name arity entry

end Recorded

theorem Valid.recorded (hv : h.Valid) : h.Recorded h.arena := by
  induction hv with
  | nil => exact recorded_nil
  | snoc _ he ih =>
      rw [arena_snoc]
      exact ih.apply he

structure Lexical (h : History ν φ) : Prop where
  variable_found : ∀ s name d x, h.arena.findVariable? s name = some (d, x) ↔
    Nearest h.parent? (h.latestVariable? · name) s d x
  variable_missing : ∀ s name, h.arena.findVariable? s name = none ↔
    ∀ d, Within h.parent? s d → h.latestVariable? d name = none
  function_found : ∀ s name arity x, h.arena.findFunction? s name arity = some x ↔
    ∃ d, Nearest h.parent? (h.latestFunction? · name arity) s d x
  function_missing : ∀ s name arity, h.arena.findFunction? s name arity = none ↔
    ∀ d, Within h.parent? s d → h.latestFunction? d name arity = none
  overload_found : ∀ s name, h.arena.hasOverload s name = true ↔
    ∃ arity x, h.arena.findFunction? s name arity = some x

/-- What one more definition leaves as it is: the lookups of other keys, those from scopes outside
its own, and those from scopes within that a nearer definition shields. -/
structure Framed (h : History ν φ) : Prop where
  variableDefined_variable : ∀ d name entry s key,
    ¬ Within h.parent? s d ∨ key ≠ name ∨ Shielded h.parent? (h.latestVariable? · key) d s →
    (arena (h ++ [.variableDefined d name entry])).findVariable? s key =
      h.arena.findVariable? s key
  variableDefined_function : ∀ d name entry s key arity,
    (arena (h ++ [.variableDefined d name entry])).findFunction? s key arity =
      h.arena.findFunction? s key arity
  functionDefined_function : ∀ d name arity entry s key n,
    ¬ Within h.parent? s d ∨ (key, n) ≠ (name, arity) ∨
      Shielded h.parent? (h.latestFunction? · key n) d s →
    (arena (h ++ [.functionDefined d name arity entry])).findFunction? s key n =
      h.arena.findFunction? s key n
  functionDefined_variable : ∀ d name arity entry s key,
    (arena (h ++ [.functionDefined d name arity entry])).findVariable? s key =
      h.arena.findVariable? s key

theorem Recorded.lexical (hr : Recorded h h.arena) : h.Lexical := by
  have hnone {β : Type} (ask : Frame ν φ → Option β) (s : Nat) : h.arena.search ask s = none ↔
      ∀ d, Within h.parent? s d → h.arena.own? ask d = none := by
    rw [← Option.not_isSome_iff_eq_none, search_isSome_iff hr.older, hr.parent]
    simp
  constructor
  · intro s name d x
    rw [findVariable?, search_eq_some_iff hr.older, hr.parent, funext (hr.variableOwn name)]
  · intro s name
    simp only [findVariable?, hnone, hr.variableOwn]
  · intro s name arity x
    simp [findFunction?, search_eq_some_iff hr.older, hr.parent, funext (hr.functionOwn name arity)]
  · intro s name arity
    simp only [findFunction?, Option.map_eq_none_iff, hnone, hr.functionOwn]
  · intro s name
    simp only [hasOverload, search_isSome_iff hr.older, own?_hasOverload_isSome,
      ← Option.isSome_iff_exists, findFunction?, Option.isSome_map]
    constructor
    · rintro ⟨d, hd, arity, hsome⟩
      exact ⟨arity, d, hd, hsome⟩
    · rintro ⟨arity, d, hd, hsome⟩
      exact ⟨d, hd, arity, hsome⟩

theorem Recorded.framed (hr : Recorded h h.arena) : h.Framed := by
  have hshield {β : Type} {ask : Frame ν φ → Option β} {own : Nat → Option β}
      (hown : ∀ i, h.arena.own? ask i = own i) (d : Nat) (f : Frame ν φ → Frame ν φ) (s : Nat)
      (hunseen : ¬ Within h.parent? s d ∨ Shielded h.parent? own d s) :
      (h.arena.modifyFrame d f).search ask s = h.arena.search ask s := by
    rw [← hr.parent, ← funext hown] at hunseen
    exact search_modifyFrame hr.older f hunseen
  constructor
  · intro d name entry s key hkey
    rw [arena_snoc]
    obtain hout | hne | hshielded := hkey
    · exact hshield (hr.variableOwn key) d _ s (.inl hout)
    · refine search_modifyFrame_of_eq hr.older (·.findVariable? key) d _ (fun frame => ?_) s
      exact (Frame.findVariable?_putVariable ..).trans (if_neg (Ne.symm hne))
    · exact hshield (hr.variableOwn key) d _ s (.inr hshielded)
  · intro d name entry s key arity
    rw [arena_snoc]
    exact congrArg (Option.map Prod.snd)
      (search_modifyFrame_of_eq hr.older (·.findFunction? key arity) d
        (·.putVariable name entry) (fun _ => rfl) s)
  · intro d name arity entry s key n hkey
    rw [arena_snoc]
    refine congrArg (Option.map Prod.snd) ?_
    obtain hout | hne | hshielded := hkey
    · exact hshield (hr.functionOwn key n) d _ s (.inl hout)
    · refine search_modifyFrame_of_eq hr.older (·.findFunction? key n) d _ (fun frame => ?_) s
      refine (Frame.findFunction?_putFunction ..).trans (if_neg ?_)
      rintro ⟨rfl, rfl⟩
      exact hne rfl
    · exact hshield (hr.functionOwn key n) d _ s (.inr hshielded)
  · intro d name arity entry s key
    rw [arena_snoc]
    exact search_modifyFrame_of_eq hr.older (·.findVariable? key) d
      (·.putFunction name arity entry) (fun _ => rfl) s

/-- Where each event is about scopes opened before, lookups are those of lexical environments: the
latest definition in the nearest scope that has one. -/
theorem lookups_lexical (hv : h.Valid) : h.Lexical ∧ h.Framed :=
  ⟨hv.recorded.lexical, hv.recorded.framed⟩

/-- A scope and one within it, which both have the variable `x`; the outer one defines it again. -/
def shadowed : History Nat String :=
  [.opened none, .variableDefined 0 "x" 1, .functionDefined 0 "f" 2 "sum", .opened (some 0),
    .variableDefined 1 "x" 2, .variableDefined 0 "x" 3]

theorem shadowed_valid : shadowed.Valid := by
  have outer : Valid ([.opened none] : History Nat String) := .snoc .nil nofun
  have named := (outer.snoc (e := .variableDefined 0 "x" 1) (by decide)).snoc
    (e := .functionDefined 0 "f" 2 "sum") (by decide)
  have inner := (named.snoc (e := .opened (some 0)) (by decide)).snoc
    (e := .variableDefined 1 "x" 2) (by decide)
  exact inner.snoc (e := .variableDefined 0 "x" 3) (by decide)

theorem shadowed_lookups_lexical :
    shadowed.Valid ∧ shadowed.arena.findVariable? 1 "x" = some (1, 2) ∧
      shadowed.Lexical ∧ shadowed.Framed :=
  ⟨shadowed_valid, by decide, lookups_lexical shadowed_valid⟩

end History

end Arena

end PlcLang
