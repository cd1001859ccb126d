namespace PlcLang

/-- A finite map in which each key stands at most once. -/
abbrev Table (κ ν : Type) := List (κ × ν)

namespace Table

variable {κ ν : Type} [DecidableEq κ]

def get? : Table κ ν → κ → Option ν
  | [], _ => none
  | (k, v) :: rest, key => if k = key then some v else get? rest key

def has (t : Table κ ν) (key : κ) : Bool := (t.get? key).isSome

/-- Binds the key, in the place of an earlier binding of it. -/
def put : Table κ ν → κ → ν → Table κ ν
  | [], key, value => [(key, value)]
  | (k, v) :: rest, key, value =>
    if k = key then (key, value) :: rest else (k, v) :: put rest key value

theorem get?_put (t : Table κ ν) (key k : κ) (value : ν) :
    (t.put key value).get? k = if key = k then some value else t.get? k := by
  induction t with
  | nil => rfl
  | cons entry rest ih =>
    obtain ⟨k', v⟩ := entry
    by_cases h : k' = key
    · subst h
      by_cases hk : k' = k <;> simp [put, get?, hk]
    · by_cases hk : k' = k
      · subst hk
        simp [put, get?, h, Ne.symm h]
      · simp [put, get?, h, hk, ih]

end Table

structure Frame (ν φ : Type) where
  vars : Table String ν := []
  funs : Table (String × Nat) φ := []

namespace Frame

variable {ν φ : Type}

def putVariable (f : Frame ν φ) (name : String) (entry : ν) : Frame ν φ :=
  { f with vars := f.vars.put name entry }

def putFunction (f : Frame ν φ) (name : String) (arity : Nat) (entry : φ) : Frame ν φ :=
  { f with funs := f.funs.put (name, arity) entry }

def findVariable? (f : Frame ν φ) (name : String) : Option ν := f.vars.get? name

def findFunction? (f : Frame ν φ) (name : String) (arity : Nat) : Option φ :=
  f.funs.get? (name, arity)

def hasOverload (f : Frame ν φ) (name : String) : Bool := f.funs.any (·.1.1 == name)

theorem findVariable?_putVariable (f : Frame ν φ) (name key : String) (entry : ν) :
    (f.putVariable name entry).findVariable? key =
      if name = key then some entry else f.findVariable? key :=
  Table.get?_put f.vars name key entry

theorem findFunction?_putFunction (f : Frame ν φ) (name key : String) (arity n : Nat) (entry : φ) :
    (f.putFunction name arity entry).findFunction? key n =
      if name = key ∧ arity = n then some entry else f.findFunction? key n := by
  change (f.funs.put (name, arity) entry).get? (key, n) = _
  rw [Table.get?_put]
  by_cases h : name = key ∧ arity = n
  · simp [h]
  · rw [if_neg h, if_neg (fun he => h (Prod.mk.inj he))]
    rfl

theorem hasOverload_iff {f : Frame ν φ} {name : String} :
    f.hasOverload name = true ↔ ∃ arity, (f.findFunction? name arity).isSome := by
  unfold hasOverload findFunction?
  induction f.funs with
  | nil => simp [Table.get?]
  | cons entry rest ih =>
      obtain ⟨⟨name', arity'⟩, r⟩ := entry
      simp only [List.any_cons, Bool.or_eq_true, ih, beq_iff_eq, Table.get?]
      constructor
      · rintro (rfl | ⟨arity, h⟩)
        · exact ⟨arity', by simp⟩
        · refine ⟨arity, ?_⟩
          split
          · rfl
          · exact h
      · rintro ⟨arity, h⟩
        split at h
        · next hkey => exact .inl (Prod.mk.inj hkey).1
        · exact .inr ⟨arity, h⟩

end Frame

namespace Scope

variable {ν φ : Type}

def findVariable? (frames : List (Frame ν φ)) (name : String) : Option ν :=
  frames.findSome? (·.findVariable? name)

def findFunction? (frames : List (Frame ν φ)) (name : String) (arity : Nat) : Option φ :=
  frames.findSome? (·.findFunction? name arity)

/-- Whether some function of this name is visible, of any arity. -/
def hasOverload (frames : List (Frame ν φ)) (name : String) : Bool :=
  frames.any (·.hasOverload name)

theorem findVariable?_cons (frame : Frame ν φ) (outer : List (Frame ν φ)) (name : String) :
    findVariable? (frame :: outer) name =
      (frame.findVariable? name).or (findVariable? outer name) := by
  unfold findVariable?
  rw [List.findSome?_cons]
  cases frame.findVariable? name <;> rfl

theorem findFunction?_cons (frame : Frame ν φ) (outer : List (Frame ν φ)) (name : String)
    (arity : Nat) :
    findFunction? (frame :: outer) name arity =
      (frame.findFunction? name arity).or (findFunction? outer name arity) := by
  unfold findFunction?
  rw [List.findSome?_cons]
  cases frame.findFunction? name arity <;> rfl

end Scope

end PlcLang
