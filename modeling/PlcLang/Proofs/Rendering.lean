import Mathlib.Data.List.Perm.Subperm
import PlcLang.Proofs.ListTypes

namespace PlcLang

namespace Heap

variable {h : Heap} {a b n : Nat} {u v w : Value}

theorem Reaches.trans (hvw : h.Reaches v w) (hwu : h.Reaches w u) : h.Reaches v u := by
  induction hwu with
  | self => exact hvw
  | element _ hmem ih => exact ih.element hmem

def Holding (h : Heap) (a b : Nat) : Prop := ∃ w ∈ h.elements a, h.Reaches w (.list b)

/-- The value is or holds, at some depth, a list that is in itself. -/
def SelfContaining (h : Heap) (v : Value) : Prop := ∃ a, h.Reaches v (.list a) ∧ h.Holding a a

theorem mapM_eq_none {α β : Type} {f : α → Option β} {as : List α} :
    as.mapM f = none ↔ ∃ a ∈ as, f a = none := by
  induction as with
  | nil => simp
  | cons a as ih =>
      rw [List.mapM_cons]
      cases ha : f a with
      | none => simp [ha]
      | some b => cases has : as.mapM f <;> simp_all

theorem text?_list (n a : Nat) :
    h.text? (n + 1) (.list a) = none ↔ ∃ w ∈ h.elements a, h.text? n w = none := by
  simp only [← Array.mem_toList_iff, ← mapM_eq_none]
  rw [text?]
  cases (h.elements a).toList.mapM (h.text? n) <;> simp

theorem list_of_text?_eq_none (hnone : h.text? (n + 1) v = none) : ∃ a, v = .list a := by
  cases v with
  | list a => exact ⟨a, rfl⟩
  | _ => simp [text?] at hnone

/-- So many lists stand one in another in the value. -/
def Nested (h : Heap) : Nat → Value → Prop
  | 0, _ => True
  | n + 1, v => ∃ a, v = .list a ∧ ∃ w ∈ h.elements a, h.Nested n w

/-- With too little room, exactly the values that lists are nested deep in have no text. -/
theorem text?_eq_none_iff_nested : h.text? n v = none ↔ h.Nested n v := by
  induction n generalizing v with
  | zero => exact iff_of_true rfl trivial
  | succ n ih =>
      constructor
      · intro hnone
        obtain ⟨a, rfl⟩ := list_of_text?_eq_none hnone
        obtain ⟨w, hmem, hw⟩ := (text?_list n a).mp hnone
        exact ⟨a, rfl, w, hmem, ih.mp hw⟩
      · rintro ⟨a, rfl, w, hmem, hw⟩
        exact (text?_list n a).mpr ⟨w, hmem, ih.mpr hw⟩

theorem exists_nested (hnone : h.text? n v = none) :
    ∃ as : List Nat, as.length = n ∧ as.Pairwise h.Holding ∧
      ∀ a ∈ as, h.Reaches v (.list a) ∧ a < h.lists.size := by
  induction n generalizing v with
  | zero => exact ⟨[], rfl, .nil, nofun⟩
  | succ n ih =>
      obtain ⟨a, rfl⟩ := list_of_text?_eq_none hnone
      obtain ⟨w, hmem, hw⟩ := (text?_list n a).mp hnone
      obtain ⟨as, hlength, hnested, has⟩ := ih hw
      refine ⟨a :: as, congrArg (· + 1) hlength, .cons ?_ hnested, ?_⟩
      · exact fun b hb => ⟨w, hmem, (has b hb).1⟩
      · refine List.forall_mem_cons.mpr ⟨⟨.self, lt_size_of_mem_elements hmem⟩, ?_⟩
        intro b hb
        exact ⟨Reaches.trans (.element .self hmem) (has b hb).1, (has b hb).2⟩

/-- Lists that stand one in another are all different, unless one is in itself. -/
theorem selfContaining_or_le (hnone : h.text? n v = none) :
    h.SelfContaining v ∨ n ≤ h.lists.size := by
  obtain ⟨as, rfl, hnested, has⟩ := exists_nested hnone
  by_cases hself : h.SelfContaining v
  · exact .inl hself
  · right
    have hnodup : as.Nodup := by
      refine hnested.imp_of_mem fun {a b} ha _ hab heq => hself ⟨a, (has a ha).1, ?_⟩
      rw [← heq] at hab
      exact hab
    have hsubset : as ⊆ List.range h.lists.size :=
      fun a ha => List.mem_range.mpr (has a ha).2
    have hle := (List.subperm_of_subset hnodup hsubset).length_le
    rwa [List.length_range] at hle

theorem Reaches.text? (hreach : h.Reaches v w) (hn : h.text? n v ≠ none) :
    ∃ m ≤ n, h.text? m w ≠ none := by
  induction hreach with
  | self => exact ⟨n, Nat.le_refl n, hn⟩
  | @element a w _ hmem ih =>
      obtain ⟨m, hle, hm⟩ := ih
      cases m with
      | zero => exact absurd rfl hm
      | succ m => exact ⟨m, by omega, fun hw => hm ((text?_list m a).mpr ⟨w, hmem, hw⟩)⟩

theorem text?_of_holding_self (ha : h.Holding a a) (n : Nat) : h.text? n (.list a) = none := by
  induction n using Nat.strong_induction_on with
  | _ n ih =>
      obtain ⟨w, hmem, hw⟩ := ha
      by_contra hn
      cases n with
      | zero => exact hn rfl
      | succ n =>
          have hw' : h.text? n w ≠ none := fun hnone => hn ((text?_list n a).mpr ⟨w, hmem, hnone⟩)
          obtain ⟨m, hle, hm⟩ := hw.text? hw'
          exact hm (ih m (by omega))

theorem SelfContaining.text?_eq_none (hself : h.SelfContaining v) (n : Nat) :
    h.text? n v = none := by
  obtain ⟨a, hreach, ha⟩ := hself
  by_contra hsome
  obtain ⟨m, _, hm⟩ := hreach.text? hsome
  exact hm (text?_of_holding_self ha m)

/-- With room for all lists there are, exactly the values that hold a list which is in itself have
no text. -/
theorem text?_eq_none_iff (hn : h.lists.size < n) : h.text? n v = none ↔ h.SelfContaining v := by
  constructor
  · intro hnone
    exact (selfContaining_or_le hnone).resolve_right (by omega)
  · exact fun hself => hself.text?_eq_none n

end Heap

end PlcLang
