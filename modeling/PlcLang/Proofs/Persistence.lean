import PlcLang.Proofs.StepEffects

namespace PlcLang

open Plan Point

namespace Store

variable {s t u : Store}

/-- Each variable of the earlier store is there later with its type and mutability, and an immutable
one also with its value. -/
def Persists (s t : Store) : Prop := ∀ scope name cell, s.cell? scope name = some cell →
  ∃ cell', t.cell? scope name = some cell' ∧ cell'.binding = cell.binding ∧
    (cell.mutable = false → cell' = cell)

namespace Persists

theorem of_cells (h : ∀ i name, t.cell? i name = s.cell? i name) : s.Persists t :=
  fun i name cell hcell => ⟨cell, (h i name).trans hcell, rfl, fun _ => rfl⟩

theorem refl (s : Store) : s.Persists s := of_cells fun _ _ => rfl

theorem of_scopes (h : t.scopes = s.scopes) : s.Persists t :=
  of_cells fun i name => by rw [cell?, cell?, h]

theorem trans (h : s.Persists t) (h' : t.Persists u) : s.Persists u := by
  intro i name c hc
  obtain ⟨c', hc', hbinding, hsame⟩ := h i name c hc
  obtain ⟨c'', hc'', hbinding', hsame'⟩ := h' i name c' hc'
  refine ⟨c'', hc'', hbinding'.trans hbinding, fun hm => ?_⟩
  obtain rfl := hsame hm
  exact hsame' hm

theorem define_new {scope : Nat} {name : String} (h : s.binding? scope name = none) (cell : Cell) :
    s.Persists (s.define scope name cell) := by
  intro i n c hc
  refine ⟨c, ?_, rfl, fun _ => rfl⟩
  rw [cell?_define, if_neg, hc]
  rintro ⟨rfl, _, rfl⟩
  rw [binding?, hc] at h
  cases h

theorem define_mutable {scope : Nat} {name : String} {cell : Cell}
    (h : s.binding? scope name = some cell.binding) (hm : cell.mutable = true) :
    s.Persists (s.define scope name cell) := by
  intro i n c hc
  rw [cell?_define]
  split
  · next heq =>
      obtain ⟨rfl, _, rfl⟩ := heq
      rw [binding?, hc] at h
      have hbinding := Option.some.inj h
      refine ⟨cell, rfl, hbinding.symm, fun hfalse => ?_⟩
      have hm' := (congrArg Binding.mutable hbinding).trans hm
      exact absurd (hfalse.symm.trans hm') Bool.false_ne_true
  · exact ⟨c, hc, rfl, fun _ => rfl⟩

theorem cell?_bindParameters_of_ne {scope i : Nat} (hi : scope ≠ i) (names : List String)
    (types : List Ty) (values : List Value) (s : Store) (n : String) :
    (s.bindParameters scope names types values).cell? i n = s.cell? i n := by
  induction names generalizing types values s with
  | nil => rfl
  | cons name names ih =>
      cases types with
      | nil => rfl
      | cons type types =>
          cases values with
          | nil => rfl
          | cons value values => exact (ih types values _).trans (cell?_define_of_ne s scope name _ hi n)

theorem bindParameters {scope : Nat} (h : ∀ name, s.cell? scope name = none) (names : List String)
    (types : List Ty) (values : List Value) :
    s.Persists (s.bindParameters scope names types values) := by
  intro i n c hc
  refine ⟨c, ?_, rfl, fun _ => rfl⟩
  rw [cell?_bindParameters_of_ne _ names types values s n, hc]
  rintro rfl
  rw [h n] at hc
  cases hc

end Persists

end Store

theorem Point.Effect.persists {pt : Point} {s u u' : Store} (h : pt.Effect s u u') :
    u.Persists u' := by
  cases h with
  | quiet _ hcells => exact .of_cells hcells
  | bound names types values _ hempty => exact .bindParameters hempty names types values
  | declared _ hnew | initialized _ hnew _ => exact .define_new hnew _
  | assigned hbinding hm => exact .define_mutable hbinding hm
  | allocated vs => exact .of_scopes rfl
  | written hwrites =>
      cases hwrites
      exact .of_scopes rfl

namespace Program

variable {allowed : Ty → Prop} {q : Program} {l : Limits} {pt : Point} {s t : Store}

theorem persists_of_step (hq : q.Typed (.filled allowed))
    (h : Point.Steps l.rounds (program l.depth q) Store.initial s t) : s.Persists t := by
  obtain ⟨_, _, _, heffect⟩ := effect_of_step hq h
  exact heffect.persists

theorem persists_of_visits (hq : q.Typed (.filled allowed))
    (hreach : Reaches l.rounds (program l.depth q) Store.initial pt s)
    (hvisits : Visits l.rounds pt s t) : s.Persists t := by
  have hleads := hvisits.leads
  clear hvisits
  induction hleads with
  | refl => exact .refl s
  | tail _ hstep ih => exact ih.trans (persists_of_step hq (hreach.steps hstep))

end Program

end PlcLang
