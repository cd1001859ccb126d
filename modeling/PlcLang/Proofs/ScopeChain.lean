import Mathlib.Logic.Function.Basic
import PlcLang.Execution.Store
import PlcLang.Proofs.TypeRules

namespace PlcLang

namespace Arena

variable {ν φ α : Type} {a : Arena ν φ} {ask : Frame ν φ → Option α}

def parent? (a : Arena ν φ) (scope : Nat) : Option Nat := (a.nodes[scope]?).bind (·.parent)

/-- What the scope itself answers, its parents aside. -/
def own? (a : Arena ν φ) (ask : Frame ν φ → Option α) (scope : Nat) : Option α :=
  (a.nodes[scope]?).bind (ask ·.frame)

theorem searchFrom_eq (older : ∀ i p, a.parent? i = some p → p < i) {n scope : Nat}
    (h : scope < n) : a.searchFrom ask n scope = a.search ask scope := by
  induction scope using Nat.strong_induction_on generalizing n with
  | _ scope ih =>
      obtain ⟨n, rfl⟩ := Nat.exists_eq_succ_of_ne_zero (Nat.ne_zero_of_lt h)
      simp only [search, searchFrom]
      cases hnode : a.nodes[scope]? with
      | none => rfl
      | some node =>
          dsimp only
          cases ask node.frame with
          | some answer => rfl
          | none =>
              dsimp only
              cases hparent : node.parent with
              | none => rfl
              | some p =>
                  have hp := older scope p (by simp [parent?, hnode, hparent])
                  dsimp only
                  rw [ih p hp (by omega), ih p hp hp]

/-- A scope that has no answer of its own gives that of its parent. -/
theorem search_eq (older : ∀ i p, a.parent? i = some p → p < i) (scope : Nat) :
    a.search ask scope =
      ((a.own? ask scope).map (scope, ·)).or ((a.parent? scope).bind (a.search ask)) := by
  have hnext (p : Nat) (hp : a.parent? scope = some p) :
      a.searchFrom ask scope p = a.search ask p :=
    searchFrom_eq older (older scope p hp)
  simp only [search, searchFrom, own?, parent?] at hnext ⊢
  cases hnode : a.nodes[scope]? with
  | none => rfl
  | some node =>
      simp only [Option.bind_some]
      cases ask node.frame with
      | some answer => rfl
      | none =>
          cases hp : node.parent with
          | none => rfl
          | some p => exact hnext p (by rw [hnode, Option.bind_some, hp])

theorem parent?_modifyFrame (d : Nat) (f : Frame ν φ → Frame ν φ) (i : Nat) :
    (a.modifyFrame d f).parent? i = a.parent? i := by
  simp only [parent?, modifyFrame, Array.getElem?_modify]
  split
  · cases a.nodes[i]? <;> rfl
  · rfl

theorem own?_modifyFrame (ask : Frame ν φ → Option α) (d : Nat) (f : Frame ν φ → Frame ν φ)
    (i : Nat) : (a.modifyFrame d f).own? ask i =
      if d = i then a.own? (fun frame => ask (f frame)) i else a.own? ask i := by
  simp only [own?, modifyFrame, Array.getElem?_modify]
  split
  · cases a.nodes[i]? <;> rfl
  · rfl

theorem parent?_push (parent : Option Nat) (i : Nat) :
    (a.push parent).parent? i = if i = a.nodes.size then parent else a.parent? i := by
  simp only [parent?, push, Array.getElem?_push]
  split <;> rfl

theorem own?_push (ask : Frame ν φ → Option α) (hempty : ask {} = none) (parent : Option Nat)
    (i : Nat) : (a.push parent).own? ask i = a.own? ask i := by
  simp only [own?, push, Array.getElem?_push]
  split
  · next h =>
      rw [h, Array.getElem?_eq_none (Nat.le_refl _), Option.bind_some, hempty]
      rfl
  · rfl

end Arena

def Cell.binding (c : Cell) : Binding := ⟨c.type, c.mutable⟩

/-- The body of a function is run in a scope within the outermost one. -/
def Routine.AtRoot (r : Routine) : Prop :=
  ∀ parameters statements home, r.body = .block parameters statements home → home = Store.root

namespace Store

def size (s : Store) : Nat := s.scopes.nodes.size

def parent? (s : Store) (scope : Nat) : Option Nat := (s.scopes.nodes[scope]?).bind (·.parent)

def cell? (s : Store) (scope : Nat) (name : String) : Option Cell :=
  (s.scopes.nodes[scope]?).bind (·.frame.findVariable? name)

def binding? (s : Store) (scope : Nat) (name : String) : Option Binding :=
  (s.cell? scope name).map Cell.binding

def routine? (s : Store) (scope : Nat) (name : String) (arity : Nat) : Option Routine :=
  (s.scopes.nodes[scope]?).bind (·.frame.findFunction? name arity)

/-- What the name means in the scope: the binding of the nearest scope that has it. -/
def visible? (s : Store) (scope : Nat) (name : String) : Option Binding :=
  (s.scopes.findVariable? scope name).map (·.2.binding)

/-- Parents are older than their children, and functions belong to the outermost scope. -/
structure Ordered (s : Store) : Prop where
  root_lt : root < s.size
  older : ∀ i p, s.parent? i = some p → p < i
  atRoot : ∀ i name arity r, s.routine? i name arity = some r → r.AtRoot

theorem findVariable?_eq {s : Store} (h : s.Ordered) (scope : Nat) (name : String) :
    s.scopes.findVariable? scope name =
      ((s.cell? scope name).map (scope, ·)).or
        ((s.parent? scope).bind fun p => s.scopes.findVariable? p name) :=
  Arena.search_eq h.older scope

theorem findFunction?_eq {s : Store} (h : s.Ordered) (scope : Nat) (name : String) (arity : Nat) :
    s.scopes.findFunction? scope name arity =
      (s.routine? scope name arity).or
        ((s.parent? scope).bind fun p => s.scopes.findFunction? p name arity) := by
  rw [Arena.findFunction?, Arena.search_eq h.older]
  change (((s.routine? scope name arity).map (scope, ·)).or _).map Prod.snd = _
  cases s.routine? scope name arity with
  | some r => rfl
  | none =>
      change ((s.parent? scope).bind _).map _ = (s.parent? scope).bind _
      cases s.parent? scope <;> rfl

theorem visible?_eq {s : Store} (h : s.Ordered) (scope : Nat) (name : String) :
    s.visible? scope name =
      (s.binding? scope name).or ((s.parent? scope).bind fun p => s.visible? p name) := by
  rw [visible?, findVariable?_eq h, binding?]
  cases s.cell? scope name with
  | some c => rfl
  | none => cases s.parent? scope <;> rfl

theorem cell?_of_findVariable? {s : Store} (h : s.Ordered) {scope i : Nat} {name : String}
    {c : Cell} (hfound : s.scopes.findVariable? scope name = some (i, c)) :
    s.cell? i name = some c := by
  induction scope using Nat.strong_induction_on with
  | _ scope ih =>
      rw [findVariable?_eq h] at hfound
      cases hc : s.cell? scope name with
      | some c' =>
          rw [hc] at hfound
          cases hfound
          exact hc
      | none =>
          rw [hc] at hfound
          obtain ⟨p, hp, hfound⟩ := Option.bind_eq_some_iff.mp hfound
          exact ih p (h.older scope p hp) hfound

theorem routine?_of_findFunction? {s : Store} (h : s.Ordered) {scope : Nat} {name : String}
    {arity : Nat} {r : Routine} (hfound : s.scopes.findFunction? scope name arity = some r) :
    ∃ i, s.routine? i name arity = some r := by
  induction scope using Nat.strong_induction_on with
  | _ scope ih =>
      rw [findFunction?_eq h] at hfound
      cases hr : s.routine? scope name arity with
      | some r' =>
          rw [hr] at hfound
          cases hfound
          exact ⟨scope, hr⟩
      | none =>
          rw [hr] at hfound
          obtain ⟨p, hp, hfound⟩ := Option.bind_eq_some_iff.mp hfound
          exact ih p (h.older scope p hp) hfound

theorem Ordered.atRoot_of_findFunction? {s : Store} (h : s.Ordered) {scope : Nat} {name : String}
    {arity : Nat} {r : Routine} (hfound : s.scopes.findFunction? scope name arity = some r) :
    r.AtRoot := by
  obtain ⟨i, hr⟩ := routine?_of_findFunction? h hfound
  exact h.atRoot i name arity r hr

theorem cell?_of_size_le {s : Store} {i : Nat} (h : s.size ≤ i) (name : String) :
    s.cell? i name = none := by
  rw [cell?, Array.getElem?_eq_none h]
  rfl

theorem lt_size_of_cell? {s : Store} {i : Nat} {name : String} {c : Cell}
    (h : s.cell? i name = some c) : i < s.size := by
  by_contra hi
  rw [cell?_of_size_le (Nat.le_of_not_lt hi)] at h
  cases h

/-- A later store has the scopes of an earlier one with the same parents and functions, and those
below the bound also with the same variables, whose values may differ. -/
structure Keeps (bound : Nat) (s s' : Store) : Prop where
  size_le : s.size ≤ s'.size
  parent : ∀ i < s.size, s'.parent? i = s.parent? i
  routine : ∀ i < s.size, ∀ name arity, s'.routine? i name arity = s.routine? i name arity
  /-- New scopes have no functions. -/
  fresh : ∀ i, s.size ≤ i → ∀ name arity, s'.routine? i name arity = none
  binding : ∀ i < bound, ∀ name, s'.binding? i name = s.binding? i name

namespace Keeps

variable {bound : Nat} {s s' s'' : Store}

theorem routine?_of_size_le {i : Nat} (h : s.size ≤ i) (name : String) (arity : Nat) :
    s.routine? i name arity = none := by
  rw [routine?, Array.getElem?_eq_none h]
  rfl

theorem refl (bound : Nat) (s : Store) : s.Keeps bound s :=
  ⟨Nat.le_refl _, fun _ _ => rfl, fun _ _ _ _ => rfl, fun _ => routine?_of_size_le, fun _ _ _ => rfl⟩

theorem trans (h : s.Keeps bound s') (h' : s'.Keeps bound s'') : s.Keeps bound s'' where
  size_le := Nat.le_trans h.size_le h'.size_le
  parent i hi := (h'.parent i (Nat.lt_of_lt_of_le hi h.size_le)).trans (h.parent i hi)
  routine i hi name arity :=
    (h'.routine i (Nat.lt_of_lt_of_le hi h.size_le) name arity).trans (h.routine i hi name arity)
  fresh i hi name arity := by
    by_cases hi' : i < s'.size
    · rw [h'.routine i hi', h.fresh i hi]
    · exact h'.fresh i (Nat.le_of_not_lt hi') name arity
  binding i hi name := (h'.binding i hi name).trans (h.binding i hi name)

theorem mono {bound' : Nat} (h : s.Keeps bound s') (hb : bound' ≤ bound) : s.Keeps bound' s' :=
  { h with binding := fun i hi => h.binding i (Nat.lt_of_lt_of_le hi hb) }

theorem routine?_eq_some (h : s.Keeps bound s') {i : Nat} {name : String} {arity : Nat} {r : Routine}
    (hr : s'.routine? i name arity = some r) : s.routine? i name arity = some r := by
  by_cases hi : i < s.size
  · rwa [h.routine i hi] at hr
  · rw [h.fresh i (Nat.le_of_not_lt hi)] at hr
    cases hr

theorem andThen (h : s.Keeps s.size s') (h' : s'.Keeps s'.size s'') : s.Keeps s.size s'' :=
  h.trans (h'.mono h.size_le)

theorem visible? (h : s.Keeps bound s') (hs : s.Ordered) (hs' : s'.Ordered) {scope : Nat}
    (hsize : scope < s.size) (hbound : scope < bound) (name : String) :
    s'.visible? scope name = s.visible? scope name := by
  induction scope using Nat.strong_induction_on with
  | _ scope ih =>
      rw [visible?_eq hs, visible?_eq hs', h.binding scope hbound, h.parent scope hsize]
      cases hp : s.parent? scope with
      | none => rfl
      | some p =>
          have hlt := hs.older scope p hp
          simp only [Option.bind_some]
          rw [ih p hlt (hlt.trans hsize) (hlt.trans hbound)]

theorem findFunction? (h : s.Keeps bound s') (hs : s.Ordered) (hs' : s'.Ordered) {scope : Nat}
    (hsize : scope < s.size) (name : String) (arity : Nat) :
    s'.scopes.findFunction? scope name arity = s.scopes.findFunction? scope name arity := by
  induction scope using Nat.strong_induction_on with
  | _ scope ih =>
      rw [findFunction?_eq hs, findFunction?_eq hs', h.routine scope hsize, h.parent scope hsize]
      cases hp : s.parent? scope with
      | none => rfl
      | some p =>
          have hlt := hs.older scope p hp
          simp only [Option.bind_some]
          rw [ih p hlt (hlt.trans hsize)]

end Keeps

def define (s : Store) (scope : Nat) (name : String) (cell : Cell) : Store :=
  { s with scopes := s.scopes.putVariable scope name cell }

def opened (s : Store) (parent : Nat) : Store := { s with scopes := s.scopes.push (some parent) }

def defineRoutine (s : Store) (scope : Nat) (r : Routine) : Store :=
  { s with scopes := s.scopes.putFunction scope r.signature.name r.signature.arity r }

section Define

variable (s : Store) (scope : Nat) (name : String) (cell : Cell)

theorem size_define : (s.define scope name cell).size = s.size := Array.size_modify

theorem parent?_define (i : Nat) : (s.define scope name cell).parent? i = s.parent? i :=
  Arena.parent?_modifyFrame ..

theorem routine?_define (i : Nat) (f : String) (arity : Nat) :
    (s.define scope name cell).routine? i f arity = s.routine? i f arity :=
  (Arena.own?_modifyFrame (·.findFunction? f arity) ..).trans (ite_self _)

theorem cell?_define_self (h : scope < s.size) (n : String) :
    (s.define scope name cell).cell? scope n =
      if name = n then some cell else s.cell? scope n := by
  refine (Arena.own?_modifyFrame (·.findVariable? n) ..).trans ?_
  rw [if_pos rfl, Arena.own?, cell?, Array.getElem?_eq_getElem h]
  exact Frame.findVariable?_putVariable ..

theorem cell?_define_of_ne {i : Nat} (h : scope ≠ i) (n : String) :
    (s.define scope name cell).cell? i n = s.cell? i n :=
  (Arena.own?_modifyFrame (·.findVariable? n) ..).trans (if_neg h)

end Define

theorem cell?_define (s : Store) (scope : Nat) (name : String) (cell : Cell) (i : Nat) (n : String) :
    (s.define scope name cell).cell? i n =
      if scope = i ∧ i < s.size ∧ name = n then some cell else s.cell? i n := by
  by_cases hi : scope = i
  · subst hi
    by_cases hsize : scope < s.size
    · rw [cell?_define_self s scope name cell hsize]
      simp [hsize]
    · have hle := Nat.le_of_not_lt hsize
      rw [if_neg (fun h => hsize h.2.1), cell?_of_size_le hle, cell?_of_size_le]
      rwa [size_define]
  · rw [cell?_define_of_ne s scope name cell hi, if_neg (fun h => hi h.1)]

theorem binding?_define_self {s : Store} {scope : Nat} (h : scope < s.size) (name : String)
    (cell : Cell) : (s.define scope name cell).binding? scope =
      Function.update (s.binding? scope) name (some cell.binding) := by
  funext n
  rw [binding?, cell?_define_self s scope name cell h, Function.update_apply]
  by_cases hn : name = n
  · rw [if_pos hn, if_pos hn.symm]
    rfl
  · rw [if_neg hn, if_neg (Ne.symm hn)]
    rfl

theorem binding?_define_of_ne {s : Store} {scope i : Nat} (h : scope ≠ i) (name : String)
    (cell : Cell) (n : String) : (s.define scope name cell).binding? i n = s.binding? i n := by
  rw [binding?, cell?_define_of_ne s scope name cell h]
  rfl

theorem Ordered.define {s : Store} (h : s.Ordered) (scope : Nat) (name : String) (cell : Cell) :
    (s.define scope name cell).Ordered where
  root_lt := by
    rw [size_define]
    exact h.root_lt
  older i p hp := h.older i p (by rwa [parent?_define] at hp)
  atRoot i f arity r hr := h.atRoot i f arity r (by rwa [routine?_define] at hr)

theorem Keeps.define {s : Store} {bound scope : Nat} {name : String} {cell : Cell}
    (h : ∀ i < bound, ∀ n, (s.define scope name cell).binding? i n = s.binding? i n) :
    s.Keeps bound (s.define scope name cell) where
  size_le := Nat.le_of_eq (size_define ..).symm
  parent i _ := parent?_define ..
  routine i _ f arity := routine?_define ..
  fresh i hi f arity := by
    rw [routine?_define]
    exact routine?_of_size_le hi f arity
  binding := h

theorem Keeps.define_below (s : Store) (scope : Nat) (name : String) (cell : Cell) :
    s.Keeps scope (s.define scope name cell) :=
  .define fun _ hi => binding?_define_of_ne (Nat.ne_of_gt hi) name cell

theorem Keeps.define_same {s : Store} {scope : Nat} {name : String} {cell : Cell} (bound : Nat)
    (h : s.binding? scope name = some cell.binding) (hscope : scope < s.size) :
    s.Keeps bound (s.define scope name cell) := by
  refine .define fun i _ n => ?_
  by_cases hi : scope = i
  · rw [← hi, binding?_define_self hscope, ← h, Function.update_eq_self]
  · exact binding?_define_of_ne hi name cell n

/-- The variable that a name leads to may be given another value later. -/
theorem Keeps.reassign {s t : Store} (hs : s.Ordered) {scope home : Nat} {name : String} {cell : Cell}
    (hfound : s.scopes.findVariable? scope name = some (home, cell)) (hk : s.Keeps s.size t)
    (v : Value) : t.Keeps t.size (t.define home name { cell with value := v }) := by
  have hcell := cell?_of_findVariable? hs hfound
  have hhome := lt_size_of_cell? hcell
  have hsame : t.binding? home name = some cell.binding := by
    rw [hk.binding _ hhome, binding?, hcell]
    rfl
  exact .define_same t.size hsame (Nat.lt_of_lt_of_le hhome hk.size_le)

section Opened

variable (s : Store) (parent : Nat)

theorem size_opened : (s.opened parent).size = s.size + 1 := Array.size_push ..

theorem size_lt_opened : s.size < (s.opened parent).size := by
  rw [size_opened]
  exact Nat.lt_succ_self _

theorem parent?_opened_eq (i : Nat) :
    (s.opened parent).parent? i = if i = s.size then some parent else s.parent? i :=
  Arena.parent?_push ..

theorem parent?_opened_self : (s.opened parent).parent? s.size = some parent := by
  rw [parent?_opened_eq, if_pos rfl]

theorem parent?_opened {i : Nat} (h : i < s.size) : (s.opened parent).parent? i = s.parent? i := by
  rw [parent?_opened_eq, if_neg (Nat.ne_of_lt h)]

theorem cell?_opened (i : Nat) (name : String) :
    (s.opened parent).cell? i name = s.cell? i name :=
  Arena.own?_push (·.findVariable? name) rfl ..

theorem routine?_opened (i : Nat) (name : String) (arity : Nat) :
    (s.opened parent).routine? i name arity = s.routine? i name arity :=
  Arena.own?_push (·.findFunction? name arity) rfl ..

end Opened

theorem Ordered.opened {s : Store} (h : s.Ordered) {parent : Nat} (hp : parent < s.size) :
    (s.opened parent).Ordered where
  root_lt := by
    rw [size_opened]
    exact Nat.lt_succ_of_lt h.root_lt
  older i p hi := by
    rw [parent?_opened_eq] at hi
    split at hi
    · next heq =>
        cases hi
        exact heq ▸ hp
    · exact h.older i p hi
  atRoot i name arity r hr := h.atRoot i name arity r (by rwa [routine?_opened] at hr)

theorem Keeps.opened (s : Store) (bound parent : Nat) : s.Keeps bound (s.opened parent) where
  size_le := by
    rw [size_opened]
    exact Nat.le_succ _
  parent i hi := parent?_opened s parent hi
  routine i _ name arity := routine?_opened s parent i name arity
  fresh i hi name arity := by
    rw [routine?_opened]
    exact routine?_of_size_le hi name arity
  binding i _ name := congrArg (Option.map Cell.binding) (cell?_opened s parent i name)

theorem visible?_opened {s : Store} (h : s.Ordered) {parent : Nat} (hp : parent < s.size)
    (name : String) : (s.opened parent).visible? s.size name = s.visible? parent name := by
  have hnone : (s.opened parent).binding? s.size name = none := by
    rw [binding?, cell?_opened, cell?_of_size_le (Nat.le_refl s.size)]
    rfl
  rw [visible?_eq (h.opened hp), hnone, parent?_opened_self]
  exact (Keeps.opened s s.size parent).visible? h (h.opened hp) hp hp name

theorem findFunction?_opened {s : Store} (h : s.Ordered) {parent : Nat} (hp : parent < s.size)
    (name : String) (arity : Nat) : (s.opened parent).scopes.findFunction? s.size name arity =
      s.scopes.findFunction? parent name arity := by
  rw [findFunction?_eq (h.opened hp), routine?_opened, Keeps.routine?_of_size_le (Nat.le_refl _),
    parent?_opened_self]
  exact (Keeps.opened s s.size parent).findFunction? h (h.opened hp) hp name arity

theorem Ordered.of_scopes {s s' : Store} (h : s.Ordered) (heq : s'.scopes = s.scopes) :
    s'.Ordered := by
  obtain ⟨scopes, heap, output⟩ := s'
  cases heq
  exact ⟨h.root_lt, h.older, h.atRoot⟩

theorem Keeps.of_scopes {s s' : Store} (bound : Nat) (heq : s'.scopes = s.scopes) :
    s.Keeps bound s' := by
  obtain ⟨scopes, heap, output⟩ := s'
  cases heq
  exact ⟨Nat.le_refl _, fun _ _ => rfl, fun _ _ _ _ => rfl, fun _ => routine?_of_size_le,
    fun _ _ _ => rfl⟩

section DefineRoutine

variable (s : Store) (scope : Nat) (r : Routine)

theorem size_defineRoutine : (s.defineRoutine scope r).size = s.size := Array.size_modify

theorem parent?_defineRoutine (i : Nat) : (s.defineRoutine scope r).parent? i = s.parent? i :=
  Arena.parent?_modifyFrame ..

theorem cell?_defineRoutine (i : Nat) (name : String) :
    (s.defineRoutine scope r).cell? i name = s.cell? i name :=
  (Arena.own?_modifyFrame (·.findVariable? name) ..).trans (ite_self _)

theorem routine?_defineRoutine_self (h : scope < s.size) (name : String) (arity : Nat) :
    (s.defineRoutine scope r).routine? scope name arity =
      if r.signature.name = name ∧ r.signature.arity = arity then some r
      else s.routine? scope name arity := by
  refine (Arena.own?_modifyFrame (·.findFunction? name arity) ..).trans ?_
  rw [if_pos rfl, Arena.own?, routine?, Array.getElem?_eq_getElem h]
  exact Frame.findFunction?_putFunction ..

theorem routine?_defineRoutine_of_ne {i : Nat} (h : scope ≠ i) (name : String) (arity : Nat) :
    (s.defineRoutine scope r).routine? i name arity = s.routine? i name arity :=
  (Arena.own?_modifyFrame (·.findFunction? name arity) ..).trans (if_neg h)

end DefineRoutine

theorem routine?_defineRoutine (s : Store) (scope : Nat) (r : Routine) (i : Nat) (name : String)
    (arity : Nat) : (s.defineRoutine scope r).routine? i name arity =
      if scope = i ∧ i < s.size ∧ r.signature.name = name ∧ r.signature.arity = arity then some r
      else s.routine? i name arity := by
  by_cases hi : scope = i
  · subst hi
    by_cases hsize : scope < s.size
    · rw [routine?_defineRoutine_self s scope r hsize]
      simp [hsize]
    · have hle := Nat.le_of_not_lt hsize
      rw [if_neg (fun h => hsize h.2.1), Keeps.routine?_of_size_le hle,
        Keeps.routine?_of_size_le]
      rwa [size_defineRoutine]
  · rw [routine?_defineRoutine_of_ne s scope r hi, if_neg (fun h => hi h.1)]

theorem Ordered.defineRoutine {s : Store} (h : s.Ordered) (scope : Nat) {r : Routine}
    (hr : r.AtRoot) : (s.defineRoutine scope r).Ordered where
  root_lt := by
    rw [size_defineRoutine]
    exact h.root_lt
  older i p hp := h.older i p (by rwa [parent?_defineRoutine] at hp)
  atRoot i name arity r' hr' := by
    by_cases hi : scope = i
    · subst hi
      have hlt : scope < s.size := by
        by_contra hle
        rw [← size_defineRoutine s scope r] at hle
        rw [Keeps.routine?_of_size_le (Nat.le_of_not_lt hle)] at hr'
        cases hr'
      rw [routine?_defineRoutine_self s scope r hlt] at hr'
      split at hr'
      · cases hr'
        exact hr
      · exact h.atRoot scope name arity r' hr'
    · rw [routine?_defineRoutine_of_ne s scope r hi] at hr'
      exact h.atRoot i name arity r' hr'

end Store

end PlcLang
