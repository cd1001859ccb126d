import PlcLang.Proofs.CheckerSound
import PlcLang.Proofs.RunNames

namespace PlcLang

variable {allowed : Ty → Prop}

namespace Store

def printRoutine : Routine := ⟨.print, .print⟩

/-- The function prints, or its body follows the rules where it is going to be run. -/
def Fits (allowed : Ty → Prop) (s : Store) (r : Routine) : Prop :=
  r = printRoutine ∨ ∃ parameters statements Γ, r.body = .block parameters statements root ∧
    s.Shows root Γ ∧ Stmt.BlockTyped (.filled allowed) r.signature.returns
      (Γ.enter.withParameters (parameters.zip r.signature.parameters)) statements ∧
    (∀ T ∈ r.signature.parameters, allowed T) ∧ allowed r.signature.returns

def Sound (allowed : Ty → Prop) (s : Store) : Prop :=
  ∀ i name arity r, s.routine? i name arity = some r →
    r.signature.name = name ∧ r.signature.arity = arity ∧ s.Fits allowed r

def OnlyPrints (s : Store) : Prop := ∀ i name arity r, s.routine? i name arity = some r →
  r.signature.name = name ∧ r.signature.arity = arity ∧ r = printRoutine

variable {s t : Store}

theorem OnlyPrints.sound (h : s.OnlyPrints) : s.Sound allowed := fun i name arity r hr =>
  have ⟨hname, harity, hprint⟩ := h i name arity r hr
  ⟨hname, harity, .inl hprint⟩

theorem OnlyPrints.of_keeps (h : s.OnlyPrints) {bound : Nat} (hk : s.Keeps bound t) :
    t.OnlyPrints := fun i name arity r hr => h i name arity r (hk.routine?_eq_some hr)

theorem Fits.of_keeps {r : Routine} (h : s.Fits allowed r) (hs : s.Ordered) (ht : t.Ordered)
    {bound : Nat} (hk : s.Keeps bound t) (hbound : root < bound) : t.Fits allowed r := by
  refine h.imp_right ?_
  rintro ⟨parameters, statements, Γ, hbody, hshows, htyped⟩
  exact ⟨parameters, statements, Γ, hbody, hshows.of_keeps hs ht hk hs.root_lt hbound, htyped⟩

theorem Sound.of_keeps (h : s.Sound allowed) (hs : s.Ordered) (ht : t.Ordered) {bound : Nat}
    (hk : s.Keeps bound t) (hbound : root < bound) : t.Sound allowed := by
  intro i name arity r hr
  obtain ⟨hname, harity, hfits⟩ := h i name arity r (hk.routine?_eq_some hr)
  exact ⟨hname, harity, hfits.of_keeps hs ht hk hbound⟩

theorem initial_nodes :
    initial.scopes.nodes = #[⟨⟨[], [(("print", 1), printRoutine)]⟩, none⟩] := rfl

theorem initial_parent? (i : Nat) : initial.parent? i = none := by
  rw [parent?, initial_nodes]
  cases i <;> rfl

theorem initial_cell? (i : Nat) (name : String) : initial.cell? i name = none := by
  rw [cell?, initial_nodes]
  cases i <;> rfl

theorem initial_routine? (i : Nat) (name : String) (arity : Nat) : initial.routine? i name arity =
    if i = root ∧ "print" = name ∧ 1 = arity then some printRoutine else none := by
  rw [routine?, initial_nodes]
  cases i with
  | zero =>
      simp [Frame.findFunction?, Table.get?, root]
  | succ i =>
      simp [root]

theorem initial_ordered : initial.Ordered where
  root_lt := Nat.one_pos
  older i p hp := by
    rw [initial_parent?] at hp
    cases hp
  atRoot i name arity r hr := by
    rw [initial_routine?] at hr
    split at hr
    · cases hr
      exact nofun
    · cases hr

theorem initial_onlyPrints : initial.OnlyPrints := by
  intro i name arity r hr
  rw [initial_routine?] at hr
  split at hr
  · next h =>
      cases hr
      exact ⟨h.2.1, h.2.2, rfl⟩
  · cases hr

theorem initial_shows : initial.Shows root .initial where
  vars name := by
    rw [visible?_eq initial_ordered, binding?, initial_cell?, initial_parent?]
    rfl
  funs name arity := by
    rw [findFunction?_eq initial_ordered, initial_routine?, initial_parent?]
    by_cases h : "print" = name ∧ 1 = arity
    · simp [h, Env.initial, Env.lookupIn, printRoutine, Signature.print, Signature.arity]
    · simp [h, Env.initial, Env.lookupIn, Signature.print, Signature.arity]

theorem Ordered.parent?_root (hs : s.Ordered) : s.parent? root = none := by
  cases hp : s.parent? root with
  | none => rfl
  | some p => exact absurd (hs.older root p hp) (Nat.not_lt_zero p)

end Store

def Function.routine (f : Function) (s : Signature) : Routine :=
  ⟨s, .block f.parameters f.body Store.root⟩

def Function.routines (fs : List Function) (signatures : List Signature) : List Routine :=
  List.zipWith Function.routine fs signatures

def Store.withRoutines (s : Store) (rs : List Routine) : Store :=
  rs.foldl (fun s r => s.defineRoutine root r) s

theorem Program.addFunctions_eq {fs : List Function} {signatures : List Signature}
    (h : List.Forall₂ (fun f s => f.slot = some s) fs signatures) (s : Store) :
    addFunctions Store.root fs s =
      (.ok (), s.withRoutines (Function.routines fs signatures)) := by
  induction h generalizing s with
  | nil => rfl
  | @cons f signature fs signatures hslot _ ih =>
      obtain ⟨offset, name, parameters, parameterTypes, returnType, body, slot⟩ := f
      cases hslot
      exact ih _

namespace Store

variable {s : Store} {rs : List Routine}

theorem cell?_withRoutines (s : Store) (rs : List Routine) (i : Nat) (name : String) :
    (s.withRoutines rs).cell? i name = s.cell? i name := by
  induction rs generalizing s with
  | nil => rfl
  | cons r rs ih => exact (ih _).trans (cell?_defineRoutine s root r i name)

theorem Ordered.withRoutines (hs : s.Ordered) (h : ∀ r ∈ rs, r.AtRoot) :
    (s.withRoutines rs).Ordered := by
  induction rs generalizing s with
  | nil => exact hs
  | cons r rs ih =>
      obtain ⟨hr, hrs⟩ := List.forall_mem_cons.mp h
      exact ih (hs.defineRoutine root hr) hrs

/-- Functions with different keys are all there in the end, and hide what was there before. -/
theorem routine?_withRoutines (hs : s.Ordered) (h : ∀ r ∈ rs, r.AtRoot)
    (hnodup : (rs.map fun r => r.signature.key).Nodup) (name : String) (arity : Nat) :
    (s.withRoutines rs).routine? root name arity =
      (rs.find? fun r => r.signature.name = name ∧ r.signature.arity = arity).or
        (s.routine? root name arity) := by
  induction rs generalizing s with
  | nil => rfl
  | cons r rs ih =>
      obtain ⟨hr, hrs⟩ := List.forall_mem_cons.mp h
      obtain ⟨hfresh, hnodup⟩ := List.nodup_cons.mp hnodup
      refine (ih (hs.defineRoutine root hr) hrs hnodup).trans ?_
      rw [routine?_defineRoutine_self s root r hs.root_lt, List.find?_cons]
      by_cases hkey : r.signature.name = name ∧ r.signature.arity = arity
      · have hnone : (rs.find? fun r => r.signature.name = name ∧ r.signature.arity = arity) =
            none := by
          rw [List.find?_eq_none]
          intro r' hr' hkey'
          refine hfresh (List.mem_map.mpr ⟨r', hr', ?_⟩)
          have hkey' := of_decide_eq_true hkey'
          simp only [Signature.key, hkey, hkey']
        rw [hnone]
        simp [hkey]
      · simp [hkey]

theorem routine?_withRoutines_of_ne (s : Store) (rs : List Routine) {i : Nat} (hi : i ≠ root)
    (name : String) (arity : Nat) :
    (s.withRoutines rs).routine? i name arity = s.routine? i name arity := by
  induction rs generalizing s with
  | nil => rfl
  | cons r rs ih => exact (ih _).trans (routine?_defineRoutine_of_ne s root r hi.symm name arity)

theorem lookupIn_map (rs : List Routine) (name : String) (arity : Nat) :
    (rs.find? fun r => r.signature.name = name ∧ r.signature.arity = arity).map Routine.signature =
      Env.lookupIn (rs.map Routine.signature) name arity := by
  rw [Env.lookupIn, List.find?_map]
  rfl

theorem lookupIn_print_or {signatures : List Signature}
    (hnodup : ((Signature.print :: signatures).map Signature.key).Nodup) (name : String)
    (arity : Nat) : (Env.lookupIn signatures name arity).or (Env.lookupIn [.print] name arity) =
      Env.lookupIn (.print :: signatures) name arity := by
  obtain ⟨hfresh, _⟩ := List.nodup_cons.mp hnodup
  by_cases h : Signature.print.name = name ∧ Signature.print.arity = arity
  · have hnone : Env.lookupIn signatures name arity = none := by
      rw [← Option.not_isSome_iff_eq_none, Context.lookupIn_isSome]
      rwa [Signature.key, h.1, h.2] at hfresh
    rw [hnone]
    simp [Env.lookupIn, h]
  · simp [Env.lookupIn, h]

theorem Shows.withRoutines {Γ : Env} (hshows : s.Shows root Γ) (hs : s.Ordered)
    (hfuns : Γ.funs = Env.lookupIn [.print]) (h : ∀ r ∈ rs, r.AtRoot)
    (hnodup : ((Signature.print :: rs.map Routine.signature).map Signature.key).Nodup) :
    (s.withRoutines rs).Shows root (Γ.withFunctions (rs.map Routine.signature)) where
  vars name := by
    have hs' := hs.withRoutines h
    have hbefore := hshows.vars name
    rw [visible?_eq hs, hs.parent?_root] at hbefore
    rw [visible?_eq hs', hs'.parent?_root, binding?, cell?_withRoutines]
    exact hbefore
  funs name arity := by
    have hs' := hs.withRoutines h
    have hbefore := hshows.funs name arity
    rw [findFunction?_eq hs, hs.parent?_root, Option.bind_none, Option.or_none, hfuns] at hbefore
    have hnodup' : (rs.map fun r => r.signature.key).Nodup := by
      rw [List.map_cons, List.map_map] at hnodup
      exact (List.nodup_cons.mp hnodup).2
    rw [findFunction?_eq hs', hs'.parent?_root, Option.bind_none, Option.or_none,
      routine?_withRoutines hs h hnodup', Option.map_or, lookupIn_map, hbefore]
    exact lookupIn_print_or hnodup name arity

theorem OnlyPrints.withRoutines (h : s.OnlyPrints) (hs : s.Ordered) (hrs : ∀ r ∈ rs, r.AtRoot)
    (hnodup : (rs.map fun r => r.signature.key).Nodup)
    (hfits : ∀ r ∈ rs, (s.withRoutines rs).Fits allowed r) :
    (s.withRoutines rs).Sound allowed := by
  intro i name arity r hr
  have hbefore (hr : s.routine? i name arity = some r) : r.signature.name = name ∧
      r.signature.arity = arity ∧ (s.withRoutines rs).Fits allowed r := by
    obtain ⟨hname, harity, hprint⟩ := h i name arity r hr
    exact ⟨hname, harity, .inl hprint⟩
  by_cases hi : i = root
  · subst hi
    rw [routine?_withRoutines hs hrs hnodup] at hr
    cases hfind : rs.find? fun r => r.signature.name = name ∧ r.signature.arity = arity with
    | none =>
        rw [hfind] at hr
        exact hbefore hr
    | some r' =>
        rw [hfind] at hr
        cases hr
        have hkey : r.signature.name = name ∧ r.signature.arity = arity := by
          simpa using List.find?_some hfind
        exact ⟨hkey.1, hkey.2, hfits r (List.mem_of_find?_eq_some hfind)⟩
  · rw [routine?_withRoutines_of_ne s rs hi] at hr
    exact hbefore hr

end Store

namespace Function

variable {fs : List Function} {signatures : List Signature}

theorem forall_routines {P : Routine → Prop} {R : Function → Signature → Prop}
    (h : List.Forall₂ R fs signatures) (hP : ∀ f s, R f s → P (f.routine s)) :
    ∀ r ∈ routines fs signatures, P r := by
  induction h with
  | nil => exact nofun
  | cons hf _ ih => exact List.forall_mem_cons.mpr ⟨hP _ _ hf, ih⟩

theorem map_signature_routines (h : fs.length = signatures.length) :
    (routines fs signatures).map Routine.signature = signatures := by
  induction fs generalizing signatures with
  | nil => exact (List.length_eq_zero_iff.mp h.symm).symm
  | cons f fs ih =>
      cases signatures with
      | nil => cases h
      | cons s signatures => exact congrArg (s :: ·) (ih (Nat.succ.inj h))

end Function

end PlcLang
