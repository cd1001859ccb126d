import PlcLang.Proofs.RunFunctions

namespace PlcLang

theorem Ty.Accepts.eq {T S : Ty} (h : T.Accepts S) (hT : T.Concrete) : S = T := by
  cases h with
  | same => rfl
  | any => exact absurd rfl hT.1
  | comparable => exact absurd rfl hT.2

/-- The value may stand where the type is expected, if the lists were made with the given types. A
variable of type Any or Comparable takes every value. -/
def Value.Conforms (types : List Ty) (T : Ty) : Value → Prop
  | nil => True
  | list a => ∃ S, types[a]? = some S ∧ (T.Concrete → S = T)
  | v => T.Concrete → v.typeName = T.name

/-- A list, no value at all or a value of exactly that type. -/
def Value.Fits (T : Ty) (v : Value) : Prop :=
  (∃ a, v = .list a) ∨ v = .nil ∨ v.typeName = T.name

namespace Value.Conforms

variable {types types' : List Ty} {T S : Ty} {v : Value}

theorem mono (h : v.Conforms types T) (hle : types <+: types') : v.Conforms types' T := by
  cases v with
  | list a =>
      obtain ⟨S, hS, hsame⟩ := h
      obtain ⟨rest, rfl⟩ := hle
      have ha := (List.getElem?_eq_some_iff.mp hS).1
      exact ⟨S, (List.getElem?_append_left ha).trans hS, hsame⟩
  | _ => exact h

theorem imp (h : v.Conforms types S) (hS : T.Concrete → S = T) : v.Conforms types T := by
  cases v with
  | nil => trivial
  | list a =>
      obtain ⟨R, hR, hsame⟩ := h
      exact ⟨R, hR, fun hT => (hsame (hS hT ▸ hT)).trans (hS hT)⟩
  | _ => exact fun hT => hS hT ▸ h (hS hT ▸ hT)

theorem of_accepts (h : v.Conforms types S) (hacc : T.Accepts S) : v.Conforms types T := h.imp hacc.eq

theorem fits (h : v.Conforms types T) (hT : T.Concrete) : v.Fits T := by
  cases v with
  | nil => exact .inr (.inl rfl)
  | list a => exact .inl ⟨a, rfl⟩
  | _ => exact .inr (.inr (h hT))

theorem type_eq (h : v.Conforms types T) (hT : T.Concrete) (S : Ty) (hv : v.typeName = S.name)
    (hS : S ≠ .nil) : T = S := by
  cases v with
  | nil => exact absurd (Ty.name_injective (show Ty.nil.name = S.name from hv)).symm hS
  | list a => cases S <;> simp [typeName, Ty.name] at hv
  | _ => exact Ty.name_injective ((h hT).symm.trans hv)

theorem of_literal {value : Literal} (h : value.HasType T) : value.toValue.Conforms types T := by
  cases h with
  | nil => trivial
  | _ => exact fun _ => rfl

end Value.Conforms

theorem BinOp.Yields.conforms {types : List Ty} {op : BinOp} {L R T : Ty} {v w r : Value}
    (h : op.Yields v w r) (hop : op.HasType L R T) (hv : v.Conforms types L)
    (hw : w.Conforms types R) : r.Conforms types T := by
  cases h with
  | truth b hmem =>
      cases hop with
      | logical | order | equality => exact fun _ => rfl
      | concatenation | power => simp at hmem
      | arithmetic hop =>
          simp only [List.mem_cons, List.not_mem_nil, or_false] at hop
          rcases hop with rfl | rfl | rfl | rfl <;> simp at hmem
  | textLeft w s t =>
      cases hop with
      | concatenation => exact fun _ => rfl
      | arithmetic hop hT =>
          obtain rfl := hv.type_eq (HasType.arithmetic hop hT).concrete .string rfl nofun
          simp at hT
      | logical hop | order hop | equality hop => simp at hop
  | textRight v s t =>
      cases hop with
      | concatenation => exact fun _ => rfl
      | arithmetic hop hT =>
          obtain rfl := hw.type_eq (HasType.arithmetic hop hT).concrete .string rfl nofun
          simp at hT
      | logical hop | order hop | equality hop => simp at hop
  | integers a b c hmem =>
      cases hop with
      | concatenation hstring =>
          obtain rfl | rfl := hstring
          · exact nomatch hv.type_eq ⟨nofun, nofun⟩ .integer rfl nofun
          · exact nomatch hw.type_eq ⟨nofun, nofun⟩ .integer rfl nofun
      | arithmetic hop hT =>
          obtain rfl := hv.type_eq (HasType.arithmetic hop hT).concrete .integer rfl nofun
          exact fun _ => rfl
      | power => exact fun _ => rfl
      | logical hop | order hop | equality hop =>
          simp only [List.mem_cons, List.not_mem_nil, or_false] at hop
          rcases hop with rfl | rfl <;> simp at hmem
  | decimals a b c hmem =>
      cases hop with
      | concatenation hstring =>
          obtain rfl | rfl := hstring
          · exact nomatch hv.type_eq ⟨nofun, nofun⟩ .decimal rfl nofun
          · exact nomatch hw.type_eq ⟨nofun, nofun⟩ .decimal rfl nofun
      | arithmetic hop hT =>
          obtain rfl := hv.type_eq (HasType.arithmetic hop hT).concrete .decimal rfl nofun
          exact fun _ => rfl
      | power => exact nomatch hv.type_eq ⟨nofun, nofun⟩ .decimal rfl nofun
      | logical hop | order hop | equality hop =>
          simp only [List.mem_cons, List.not_mem_nil, or_false] at hop
          rcases hop with rfl | rfl <;> simp at hmem

namespace Heap

variable {h : Heap} {a b : Nat} {v : Value}

theorem lt_size_of_mem_elements (hv : v ∈ h.elements a) : a < h.lists.size := by
  by_contra ha
  rw [elements, get?, Array.getElem?_eq_none (Nat.le_of_not_lt ha)] at hv
  exact absurd hv (Array.not_mem_empty v)

theorem mem_elements_alloc {vs : List Value}
    (hv : v ∈ (h.alloc vs.toArray).2.elements a) :
    a = h.lists.size ∧ v ∈ vs ∨ v ∈ h.elements a := by
  simp only [alloc, elements, get?, Array.getElem?_push] at hv
  split at hv
  · next ha => exact .inl ⟨ha, by simpa using hv⟩
  · exact .inr hv

theorem mem_elements_write {i : Nat} {w : Value} (hv : v ∈ (h.write b i w).elements a) :
    a = b ∧ v = w ∨ v ∈ h.elements a := by
  simp only [write, elements, get?, Array.getElem?_modify] at hv ⊢
  split at hv
  · next hab =>
      cases hlist : h.lists[a]? with
      | none =>
          rw [hlist] at hv
          exact .inr hv
      | some vs =>
          rw [hlist] at hv
          obtain hmem | rfl := Array.mem_or_eq_of_mem_setIfInBounds hv
          · exact .inr hmem
          · exact .inl ⟨hab.symm, rfl⟩
  · exact .inr hv

/-- What the value is or holds, also in lists within it. -/
inductive Reaches (h : Heap) (v : Value) : Value → Prop
  | self : Reaches h v v
  | element {a : Nat} {w : Value} : Reaches h v (.list a) → w ∈ h.elements a → Reaches h v w

def Holds (h : Heap) (T : Ty) (v : Value) : Prop := ∀ w, h.Reaches v w → w.Fits T

end Heap

namespace Store

variable {allowed : Ty → Prop} {made : Nat → Ty → Prop} {types : List Ty} {s t : Store}

/-- The lists have elements of the types that they were made with, and each variable has a value of
its type. -/
structure Agrees (allowed : Ty → Prop) (made : Nat → Ty → Prop) (types : List Ty) (s : Store) :
    Prop where
  length : types.length = s.heap.lists.size
  made : ∀ a T, types[a]? = some T → made a T
  elements : ∀ a T, types[a]? = some T → ∀ v ∈ s.heap.elements a, v.Conforms types T
  cells : ∀ i name cell, s.cell? i name = some cell →
    allowed cell.type ∧ cell.value.Conforms types cell.type

theorem Agrees.holds (h : s.Agrees allowed made types) {T : Ty} (hT : T.Concrete) {v : Value}
    (hv : v.Conforms types T) : s.heap.Holds T v := by
  intro w hw
  have hconforms : w.Conforms types T := by
    induction hw with
    | self => exact hv
    | element _ hmem ih =>
        obtain ⟨S, hS, hsame⟩ := ih
        exact (h.elements _ S hS _ hmem).imp hsame
  exact hconforms.fits hT

theorem Agrees.of_eq (h : s.Agrees allowed made types) (hheap : t.heap = s.heap)
    (hcells : ∀ i name, t.cell? i name = s.cell? i name) : t.Agrees allowed made types where
  length := hheap ▸ h.length
  made := h.made
  elements := hheap ▸ h.elements
  cells i name cell hcell := h.cells i name cell ((hcells i name).symm.trans hcell)

theorem Agrees.opened (h : s.Agrees allowed made types) (parent : Nat) :
    (s.opened parent).Agrees allowed made types :=
  h.of_eq rfl (cell?_opened s parent)

theorem cell?_define_eq_some {scope i : Nat} {name n : String} {cell c : Cell}
    (h : (s.define scope name cell).cell? i n = some c) : c = cell ∨ s.cell? i n = some c := by
  by_cases hi : scope = i
  · subst hi
    have hscope : scope < s.size := size_define s scope name cell ▸ lt_size_of_cell? h
    rw [cell?_define_self s scope name cell hscope] at h
    split at h
    · exact .inl (Option.some.inj h).symm
    · exact .inr h
  · rw [cell?_define_of_ne s scope name cell hi] at h
    exact .inr h

theorem Agrees.define (h : s.Agrees allowed made types) (scope : Nat) (name : String) {cell : Cell}
    (htype : allowed cell.type) (hcell : cell.value.Conforms types cell.type) :
    (s.define scope name cell).Agrees allowed made types where
  length := h.length
  made := h.made
  elements := h.elements
  cells i n c hc := by
    obtain rfl | hc := cell?_define_eq_some hc
    · exact ⟨htype, hcell⟩
    · exact h.cells i n c hc

theorem Agrees.bindParameters (h : s.Agrees allowed made types) (scope : Nat) (names : List String)
    {parameters : List Ty} {values : List Value} (htypes : ∀ T ∈ parameters, allowed T)
    (hvalues : List.Forall₂ (fun T v => v.Conforms types T) parameters values) :
    (s.bindParameters scope names parameters values).Agrees allowed made types := by
  induction names generalizing parameters values s with
  | nil => exact h
  | cons name names ih =>
      cases hvalues with
      | nil => exact h
      | cons hv hvalues =>
          obtain ⟨hT, htypes⟩ := List.forall_mem_cons.mp htypes
          exact ih (h.define scope name hT hv) htypes hvalues

theorem Agrees.withRoutines (h : s.Agrees allowed made types) (rs : List Routine) :
    (s.withRoutines rs).Agrees allowed made types := by
  refine h.of_eq ?_ (cell?_withRoutines s rs)
  induction rs generalizing s with
  | nil => rfl
  | cons r rs ih => exact ih (h.of_eq rfl (cell?_defineRoutine s root r))

def alloc (s : Store) (vs : List Value) : Store := { s with heap := (s.heap.alloc vs.toArray).2 }

def write (s : Store) (address i : Nat) (v : Value) : Store :=
  { s with heap := s.heap.write address i v }

theorem Agrees.alloc (h : s.Agrees allowed made types) {vs : List Value} {T : Ty}
    (hvs : ∀ v ∈ vs, v.Conforms types T) (hT : made s.heap.lists.size T) :
    (s.alloc vs).Agrees allowed made (types ++ [T]) where
  length := by
    rw [List.length_append, h.length]
    exact (Array.size_push vs.toArray).symm
  made a S hS := by
    obtain ha | ⟨ha, rfl⟩ : types[a]? = some S ∨ a = types.length ∧ T = S := by
      grind
    · exact h.made a S ha
    · exact ha ▸ h.length ▸ hT
  elements a S hS v hv := by
    obtain ⟨rfl, hmem⟩ | hmem := Heap.mem_elements_alloc hv
    · rw [← h.length, List.getElem?_concat_length] at hS
      cases hS
      exact (hvs v hmem).mono (List.prefix_append types [T])
    · have ha := h.length ▸ Heap.lt_size_of_mem_elements hmem
      rw [List.getElem?_append_left ha] at hS
      exact (h.elements a S hS v hmem).mono (List.prefix_append types [T])
  cells i name cell hcell :=
    (h.cells i name cell hcell).imp_right (·.mono (List.prefix_append types [T]))

theorem Agrees.write (h : s.Agrees allowed made types) {address : Nat} {v : Value}
    (hv : ∀ T, types[address]? = some T → v.Conforms types T) (i : Nat) :
    (s.write address i v).Agrees allowed made types where
  length := h.length.trans Array.size_modify.symm
  made := h.made
  elements a S hS w hw := by
    obtain ⟨rfl, rfl⟩ | hmem := Heap.mem_elements_write hw
    · exact hv S hS
    · exact h.elements a S hS w hmem
  cells := h.cells

end Store

end PlcLang
