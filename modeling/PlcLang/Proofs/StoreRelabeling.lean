import PlcLang.Proofs.Relabeling
import PlcLang.Proofs.RunFunctions

namespace PlcLang

section

variable (ρ : Relabeling)

def Fault.relabel (f : Fault) : Fault := ⟨f.cause, f.offset.map ρ.place⟩

def Stop.relabel : Stop → Stop
  | fault f => fault (f.relabel ρ)
  | why => why

def Body.relabel : Body → Body
  | print => print
  | block parameters statements home => block parameters (statements.map (Stmt.relabel ρ)) home

def Routine.relabel (r : Routine) : Routine := ⟨r.signature, r.body.relabel ρ⟩

end

/-- The stores have the same scopes, variables, lists and output, and their functions differ in
places and numbers only. -/
structure Store.Alike (ρ : Relabeling) (s s' : Store) : Prop where
  size : s'.size = s.size
  parent : s'.parent? = s.parent?
  cell : s'.cell? = s.cell?
  routine : ∀ i name arity,
    s'.routine? i name arity = (s.routine? i name arity).map (Routine.relabel ρ)
  heap : s'.heap = s.heap
  output : s'.output = s.output

variable {ρ : Relabeling}

namespace Store

variable {s s' : Store}

theorem searchFrom_variable (s : Store) (n scope : Nat) (name : String) :
    s.scopes.searchFrom (·.findVariable? name) (n + 1) scope =
      ((s.cell? scope name).map (scope, ·)).or
        ((s.parent? scope).bind fun p => s.scopes.searchFrom (·.findVariable? name) n p) := by
  rw [Arena.searchFrom, cell?, parent?]
  cases s.scopes.nodes[scope]? with
  | none => rfl
  | some node =>
      rw [Option.bind_some, Option.bind_some]
      dsimp only
      cases node.frame.findVariable? name with
      | some c => rfl
      | none => cases node.parent <;> rfl

theorem searchFrom_function (s : Store) (n scope : Nat) (name : String) (arity : Nat) :
    s.scopes.searchFrom (·.findFunction? name arity) (n + 1) scope =
      ((s.routine? scope name arity).map (scope, ·)).or
        ((s.parent? scope).bind fun p => s.scopes.searchFrom (·.findFunction? name arity) n p) := by
  rw [Arena.searchFrom, routine?, parent?]
  cases s.scopes.nodes[scope]? with
  | none => rfl
  | some node =>
      rw [Option.bind_some, Option.bind_some]
      dsimp only
      cases node.frame.findFunction? name arity with
      | some c => rfl
      | none => cases node.parent <;> rfl

namespace Alike

theorem findVariable? (h : s.Alike ρ s') (scope : Nat) (name : String) :
    s'.scopes.findVariable? scope name = s.scopes.findVariable? scope name := by
  have hsearch (n i : Nat) : s'.scopes.searchFrom (·.findVariable? name) n i =
      s.scopes.searchFrom (·.findVariable? name) n i := by
    induction n generalizing i with
    | zero => rfl
    | succ n ih =>
        rw [searchFrom_variable, searchFrom_variable, h.cell, h.parent]
        congr 2
        funext p
        exact ih p
  exact hsearch (scope + 1) scope

theorem findFunction? (h : s.Alike ρ s') (scope : Nat) (name : String) (arity : Nat) :
    s'.scopes.findFunction? scope name arity =
      (s.scopes.findFunction? scope name arity).map (Routine.relabel ρ) := by
  have hsearch (n i : Nat) : s'.scopes.searchFrom (·.findFunction? name arity) n i =
      (s.scopes.searchFrom (·.findFunction? name arity) n i).map (Prod.map id (Routine.relabel ρ)) := by
    induction n generalizing i with
    | zero => rfl
    | succ n ih =>
        rw [searchFrom_function, searchFrom_function, h.routine, h.parent, Option.map_or]
        congr 1
        · cases s.routine? i name arity <;> rfl
        · cases s.parent? i with
          | none => rfl
          | some p => exact ih p
  rw [Arena.findFunction?, Arena.findFunction?, Arena.search, Arena.search, hsearch, Option.map_map,
    Option.map_map]
  rfl

theorem of_scopes (h : s.Alike ρ s') {t t' : Store} (ht : t.scopes = s.scopes)
    (ht' : t'.scopes = s'.scopes) (hheap : t'.heap = t.heap) (houtput : t'.output = t.output) :
    t.Alike ρ t' := by
  obtain ⟨scopes, heap, output⟩ := t
  obtain ⟨scopes', heap', output'⟩ := t'
  cases ht
  cases ht'
  exact ⟨h.size, h.parent, h.cell, h.routine, hheap, houtput⟩

theorem opened (h : s.Alike ρ s') (parent : Nat) : (s.opened parent).Alike ρ (s'.opened parent) where
  size := by rw [size_opened, size_opened, h.size]
  parent := by
    funext i
    rw [parent?_opened_eq, parent?_opened_eq, h.size, h.parent]
  cell := by
    funext i name
    rw [cell?_opened, cell?_opened, h.cell]
  routine i name arity := by
    rw [routine?_opened, routine?_opened, h.routine]
  heap := h.heap
  output := h.output

theorem define (h : s.Alike ρ s') (scope : Nat) (name : String) (cell : Cell) :
    (s.define scope name cell).Alike ρ (s'.define scope name cell) where
  size := by rw [size_define, size_define, h.size]
  parent := by
    funext i
    rw [parent?_define, parent?_define, h.parent]
  cell := by
    funext i n
    rw [cell?_define, cell?_define, h.size, h.cell]
  routine i f arity := by
    rw [routine?_define, routine?_define, h.routine]
  heap := h.heap
  output := h.output

theorem initial : Store.initial.Alike ρ Store.initial where
  size := rfl
  parent := rfl
  cell := rfl
  routine i name arity := by
    rw [initial_routine?]
    split <;> rfl
  heap := rfl
  output := rfl

end Alike

end Store

namespace Store

theorem withRoutines_same (s : Store) (rs : List Routine) :
    (s.withRoutines rs).size = s.size ∧ (s.withRoutines rs).parent? = s.parent? ∧
      (s.withRoutines rs).heap = s.heap ∧ (s.withRoutines rs).output = s.output := by
  induction rs generalizing s with
  | nil => exact ⟨rfl, rfl, rfl, rfl⟩
  | cons r rs ih =>
      obtain ⟨hsize, hparent, hheap, houtput⟩ := ih (s.defineRoutine root r)
      refine ⟨hsize.trans (size_defineRoutine s root r), hparent.trans ?_, hheap, houtput⟩
      exact funext (parent?_defineRoutine s root r)

theorem find?_eq_some {rs : List Routine} (h : (rs.map fun r => r.signature.key).Nodup)
    {name : String} {arity : Nat} {r : Routine} :
    (rs.find? fun r => r.signature.name = name ∧ r.signature.arity = arity) = some r ↔
      r ∈ rs ∧ r.signature.name = name ∧ r.signature.arity = arity := by
  constructor
  · intro hr
    exact ⟨List.mem_of_find?_eq_some hr, by simpa using List.find?_some hr⟩
  · rintro ⟨hmem, hkey⟩
    have hsome : (rs.find? fun r => r.signature.name = name ∧ r.signature.arity = arity).isSome :=
      List.find?_isSome.mpr ⟨r, hmem, decide_eq_true hkey⟩
    obtain ⟨r', hr'⟩ := Option.isSome_iff_exists.mp hsome
    have hkey' : r'.signature.name = name ∧ r'.signature.arity = arity := by
      simpa using List.find?_some hr'
    have hsame : r'.signature.key = r.signature.key :=
      Prod.ext (hkey'.1.trans hkey.1.symm) (hkey'.2.trans hkey.2.symm)
    rw [hr', List.inj_on_of_nodup_map h (List.mem_of_find?_eq_some hr') hmem hsame]

/-- Functions with distinct keys may be added in any order. -/
theorem Alike.withRoutines {s s' : Store} (h : s.Alike ρ s') (hs : s.Ordered) (hs' : s'.Ordered)
    {rs rs' : List Routine} (hroot : ∀ r ∈ rs, r.AtRoot) (hroot' : ∀ r ∈ rs', r.AtRoot)
    (hnodup : (rs.map fun r => r.signature.key).Nodup)
    (hperm : rs'.Perm (rs.map (Routine.relabel ρ))) :
    (s.withRoutines rs).Alike ρ (s'.withRoutines rs') := by
  obtain ⟨hsize, hparent, hheap, houtput⟩ := s.withRoutines_same rs
  obtain ⟨hsize', hparent', hheap', houtput'⟩ := s'.withRoutines_same rs'
  have hkeys := hperm.map fun r => r.signature.key
  rw [List.map_map] at hkeys
  have hnodup' : (rs'.map fun r => r.signature.key).Nodup := hkeys.nodup_iff.mpr hnodup
  refine ⟨?_, ?_, ?_, ?_, ?_, ?_⟩
  · rw [hsize, hsize', h.size]
  · rw [hparent, hparent', h.parent]
  · funext i name
    rw [cell?_withRoutines, cell?_withRoutines, h.cell]
  · intro i name arity
    by_cases hi : i = root
    · subst hi
      rw [routine?_withRoutines hs hroot hnodup, routine?_withRoutines hs' hroot' hnodup', h.routine,
        Option.map_or]
      congr 1
      ext r
      rw [find?_eq_some hnodup', Option.map_eq_some_iff, hperm.mem_iff, List.mem_map]
      simp only [find?_eq_some hnodup]
      constructor
      · rintro ⟨⟨r, hr, rfl⟩, hkey⟩
        exact ⟨r, ⟨hr, hkey⟩, rfl⟩
      · rintro ⟨r, ⟨hr, hkey⟩, rfl⟩
        exact ⟨⟨r, hr, rfl⟩, hkey⟩
    · rw [routine?_withRoutines_of_ne _ _ hi, routine?_withRoutines_of_ne _ _ hi, h.routine]
  · rw [hheap, hheap', h.heap]
  · rw [houtput, houtput', h.output]

end Store

end PlcLang
