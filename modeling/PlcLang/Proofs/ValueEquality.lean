import Mathlib.Tactic.IntervalCases
import PlcLang.Proofs.ExactDecimals
import PlcLang.Proofs.NumberTexts
import PlcLang.Proofs.Rendering

namespace PlcLang

namespace Decimal

theorem natAbs_signed (a : Decimal) : a.signed.natAbs = a.coefficient := by
  cases h : a.negative <;> simp [signed, h]

theorem unsignedZero_eq {a b : Decimal} (h : a.same b = true) : a.unsignedZero = b.unsignedZero := by
  obtain ⟨hsigned, hexponent⟩ := (same_iff a b).mp h
  have hcoefficient : a.coefficient = b.coefficient := by
    rw [← natAbs_signed, hsigned, natAbs_signed]
  obtain ⟨na, c, e⟩ := a
  obtain ⟨nb, _, _⟩ := b
  cases hcoefficient
  cases hexponent
  by_cases hzero : c = 0
  · simp [unsignedZero, isZero, abs, hzero]
  · have hsign : na = nb := by
      cases na <;> cases nb <;> simp [signed] at hsigned ⊢ <;> omega
    rw [hsign]

theorem toText_of_same {a b : Decimal} (h : a.same b = true) : a.toText = b.toText := by
  rw [toText_eq, toText_eq, unsignedZero_eq h]

end Decimal

namespace Heap

variable {h : Heap} {a b n : Nat} {r : Bool} {u v w : Value}

/-- No list holds itself, not even in lists within it. -/
def Acyclic (h : Heap) : Prop := ∀ a, ¬ h.Holding a a

/-- The values are of one kind and have equal contents: decimals are one number at one scale, lists
have equal elements in the same places. -/
inductive StructEq (h : Heap) : Value → Value → Prop
  | nil : StructEq h .nil .nil
  | boolean (b : Bool) : StructEq h (.boolean b) (.boolean b)
  | integer (n : Int) : StructEq h (.integer n) (.integer n)
  | decimal {a b : Decimal} : a.value = b.value → a.exponent = b.exponent →
      StructEq h (.decimal a) (.decimal b)
  | character (s : String) : StructEq h (.character s) (.character s)
  | string (s : String) : StructEq h (.string s) (.string s)
  | list {a b : Nat} : (h.elements a).size = (h.elements b).size →
      (∀ (i : Nat) v w, (h.elements a)[i]? = some v → (h.elements b)[i]? = some w →
        StructEq h v w) → StructEq h (.list a) (.list b)

namespace StructEq

theorem symm (hs : h.StructEq v w) : h.StructEq w v := by
  induction hs with
  | nil => exact .nil
  | boolean b => exact .boolean b
  | integer n => exact .integer n
  | decimal hvalue hexponent => exact .decimal hvalue.symm hexponent.symm
  | character s => exact .character s
  | string s => exact .string s
  | list hsize _ ih => exact .list hsize.symm fun i v w hv hw => ih i w v hw hv

theorem trans (hvw : h.StructEq v w) (hwu : h.StructEq w u) : h.StructEq v u := by
  induction hvw generalizing u with
  | nil | boolean | integer | character | string => exact hwu
  | decimal hvalue hexponent =>
      cases hwu with
      | decimal hvalue' hexponent' =>
          exact .decimal (hvalue.trans hvalue') (hexponent.trans hexponent')
  | @list a b hsize _ ih =>
      cases hwu with
      | list hsize' helements =>
          refine .list (hsize.trans hsize') fun i v u hv hu => ?_
          -- The list between the two is as long, so that it has an element there, too.
          have hi : i < (h.elements b).size := by
            rw [← hsize]
            exact (Array.getElem?_eq_some_iff.mp hv).1
          have hw := Array.getElem?_eq_getElem hi
          exact ih i v _ hv hw (helements i _ u hw hu)

theorem typeName_eq (hs : h.StructEq v w) : v.typeName = w.typeName := by
  cases hs <;> rfl

theorem mapM_of_map_eq {α β : Type} {f : α → Option β} {as bs : List α} (h : as.map f = bs.map f) :
    as.mapM f = bs.mapM f := by
  induction as generalizing bs with
  | nil =>
      rw [List.map_nil, eq_comm, List.map_eq_nil_iff] at h
      rw [h]
  | cons a as ih =>
      cases bs with
      | nil => cases h
      | cons b bs =>
          rw [List.map_cons, List.map_cons, List.cons.injEq] at h
          rw [List.mapM_cons, List.mapM_cons, h.1, ih h.2]

theorem text?_eq (hs : h.StructEq v w) (n : Nat) : h.text? n v = h.text? n w := by
  induction hs generalizing n with
  | nil | boolean | integer | character | string => rfl
  | decimal hvalue hexponent =>
      have hsame := (Decimal.same_iff_value _ _).mpr ⟨hvalue, hexponent⟩
      cases n with
      | zero => rfl
      | succ n => exact congrArg some (Decimal.toText_of_same hsame)
  | @list a b hsize _ ih =>
      cases n with
      | zero => rfl
      | succ n =>
          have hmap : (h.elements a).toList.map (h.text? n) = (h.elements b).toList.map (h.text? n) := by
            apply List.ext_getElem
            · simpa using hsize
            · intro i hi hi'
              rw [List.getElem_map, List.getElem_map]
              exact ih i _ _ (by simp) (by simp) n
          rw [text?, text?, mapM_of_map_eq hmap]

end StructEq

/-- A value that has a text is equal to itself: as often as a list is opened, so much room is gone. -/
theorem structEq_self (hn : h.text? n v ≠ none) : h.StructEq v v := by
  induction n generalizing v with
  | zero => exact absurd rfl hn
  | succ n ih =>
      cases v with
      | nil => exact .nil
      | boolean b => exact .boolean b
      | integer n => exact .integer n
      | decimal d => exact .decimal rfl rfl
      | character s => exact .character s
      | string s => exact .string s
      | list a =>
          refine .list rfl fun i v w hv hw => ?_
          obtain rfl : v = w := Option.some.inj (hv.symm.trans hw)
          refine ih fun hnone => hn ((text?_list n a).mpr ⟨v, ?_, hnone⟩)
          exact Array.mem_of_getElem? hv

theorem Acyclic.text? (hacyclic : h.Acyclic) (hn : h.lists.size < n) (v : Value) :
    h.text? n v ≠ none := by
  rw [Ne, text?_eq_none_iff hn]
  rintro ⟨a, _, hself⟩
  exact hacyclic a hself

theorem Acyclic.structEq_self (hacyclic : h.Acyclic) (v : Value) : h.StructEq v v :=
  Heap.structEq_self (hacyclic.text? (Nat.lt_succ_self _) v)

section AllM

variable {α : Type} {f : α → Option Bool} {as : List α}

theorem forall_of_allM_eq_true (h : as.allM f = some true) : ∀ a ∈ as, f a = some true := by
  induction as with
  | nil => exact nofun
  | cons a as ih =>
      rw [List.allM] at h
      obtain ⟨b, hb, h⟩ := Option.bind_eq_some_iff.mp h
      cases b with
      | false => cases h
      | true => exact List.forall_mem_cons.mpr ⟨hb, ih h⟩

theorem exists_of_allM_eq_false (h : as.allM f = some false) : ∃ a ∈ as, f a = some false := by
  induction as with
  | nil => cases h
  | cons a as ih =>
      rw [List.allM] at h
      obtain ⟨b, hb, h⟩ := Option.bind_eq_some_iff.mp h
      cases b with
      | false => exact ⟨a, List.mem_cons_self, hb⟩
      | true =>
          obtain ⟨c, hc, hfalse⟩ := ih h
          exact ⟨c, List.mem_cons_of_mem a hc, hfalse⟩

theorem exists_of_allM_eq_none (h : as.allM f = none) : ∃ a ∈ as, f a = none := by
  induction as with
  | nil => cases h
  | cons a as ih =>
      rw [List.allM] at h
      cases ha : f a with
      | none => exact ⟨a, List.mem_cons_self, ha⟩
      | some b =>
          rw [ha] at h
          cases b with
          | false => cases h
          | true =>
              obtain ⟨c, hc, hnone⟩ := ih h
              exact ⟨c, List.mem_cons_of_mem a hc, hnone⟩

end AllM

theorem mem_zip_elements :
    (v, w) ∈ (h.elements a).toList.zip (h.elements b).toList ↔
      ∃ i : Nat, (h.elements a)[i]? = some v ∧ (h.elements b)[i]? = some w := by
  simp only [List.mem_iff_getElem?, List.getElem?_zip_eq_some, Array.getElem?_toList]

theorem equal?_list (hne : a ≠ b) (hsize : (h.elements a).size = (h.elements b).size) (n : Nat) :
    h.equal? (n + 1) (.list a) (.list b) =
      ((h.elements a).toList.zip (h.elements b).toList).allM fun p => h.equal? n p.1 p.2 := by
  rw [equal?, if_neg hne, if_neg (not_not_intro hsize)]

theorem scalarEqual_iff (hnot : ¬ ∃ a b, v = .list a ∧ w = .list b) :
    v.scalarEqual w = true ↔ h.StructEq v w := by
  constructor
  · intro heq
    cases v <;> cases w <;> simp [Value.scalarEqual] at heq
    · exact .nil
    · rw [heq]; exact .boolean _
    · rw [heq]; exact .integer _
    · exact .decimal ((Decimal.same_iff_value _ _).mp heq).1 ((Decimal.same_iff_value _ _).mp heq).2
    · rw [heq]; exact .character _
    · rw [heq]; exact .string _
  · intro hs
    cases hs with
    | nil => rfl
    | boolean | integer | character | string => simp [Value.scalarEqual]
    | decimal hvalue hexponent => exact (Decimal.same_iff_value _ _).mpr ⟨hvalue, hexponent⟩
    | @list a b => exact absurd ⟨a, b, rfl, rfl⟩ hnot

theorem equal?_scalar (hnot : ¬ ∃ a b, v = .list a ∧ w = .list b) (n : Nat) :
    h.equal? (n + 1) v w = some (v.scalarEqual w) := by
  cases v with
  | list a =>
      cases w with
      | list b => exact absurd ⟨a, b, rfl, rfl⟩ hnot
      | _ => rfl
  | _ => rfl

/-- If the comparison has an answer, then it is that of structural equality. -/
theorem Acyclic.equal?_sound (hacyclic : h.Acyclic) (heq : h.equal? n v w = some r) :
    r = true ↔ h.StructEq v w := by
  induction n generalizing v w r with
  | zero => cases heq
  | succ n ih =>
      by_cases hlists : ∃ a b, v = .list a ∧ w = .list b
      · obtain ⟨a, b, rfl, rfl⟩ := hlists
        by_cases hab : a = b
        · rw [equal?, if_pos hab] at heq
          cases heq
          subst hab
          exact iff_of_true rfl (hacyclic.structEq_self _)
        · by_cases hsize : (h.elements a).size = (h.elements b).size
          · rw [equal?_list hab hsize] at heq
            cases r with
            | true =>
                refine iff_of_true rfl (.list hsize fun i v w hv hw => ?_)
                have hmem := mem_zip_elements.mpr ⟨i, hv, hw⟩
                exact (ih (forall_of_allM_eq_true heq _ hmem)).mp rfl
            | false =>
                obtain ⟨⟨v, w⟩, hmem, hfalse⟩ := exists_of_allM_eq_false heq
                obtain ⟨i, hv, hw⟩ := mem_zip_elements.mp hmem
                refine iff_of_false Bool.false_ne_true fun hs => ?_
                cases hs with
                | list _ helements =>
                    exact Bool.false_ne_true ((ih hfalse).mpr (helements i v w hv hw))
          · rw [equal?, if_neg hab, if_pos hsize] at heq
            cases heq
            refine iff_of_false Bool.false_ne_true fun hs => ?_
            cases hs with
            | list hsize' _ => exact hsize hsize'
      · rw [equal?_scalar hlists] at heq
        cases heq
        exact scalarEqual_iff hlists

theorem text?_of_equal?_eq_none (heq : h.equal? n v w = none) : h.text? n v = none := by
  induction n generalizing v w with
  | zero => rfl
  | succ n ih =>
      by_cases hlists : ∃ a b, v = .list a ∧ w = .list b
      · obtain ⟨a, b, rfl, rfl⟩ := hlists
        by_cases hab : a = b
        · rw [equal?, if_pos hab] at heq
          cases heq
        · by_cases hsize : (h.elements a).size = (h.elements b).size
          · rw [equal?_list hab hsize] at heq
            obtain ⟨⟨v, w⟩, hmem, hnone⟩ := exists_of_allM_eq_none heq
            obtain ⟨i, hv, _⟩ := mem_zip_elements.mp hmem
            exact (text?_list n a).mpr ⟨v, Array.mem_of_getElem? hv, ih hnone⟩
          · rw [equal?, if_neg hab, if_pos hsize] at heq
            cases heq
      · rw [equal?_scalar hlists] at heq
        cases heq

theorem Acyclic.equal?_eq (hacyclic : h.Acyclic) (hn : h.lists.size < n) (v w : Value) :
    ∃ r, h.equal? n v w = some r ∧ (r = true ↔ h.StructEq v w) := by
  cases heq : h.equal? n v w with
  | none => exact absurd (text?_of_equal?_eq_none heq) (hacyclic.text? hn v)
  | some r => exact ⟨r, rfl, hacyclic.equal?_sound heq⟩

theorem Acyclic.equal?_iff (hacyclic : h.Acyclic) (hn : h.lists.size < n) :
    h.equal? n v w = some true ↔ h.StructEq v w := by
  obtain ⟨r, hr, hiff⟩ := hacyclic.equal?_eq hn v w
  rw [hr, Option.some_inj, hiff]

structure Equates (h : Heap) (n : Nat) : Prop where
  answers : ∀ v w, ∃ r, h.equal? n v w = some r ∧ (r = true ↔ h.StructEq v w)
  refl : ∀ v, h.equal? n v v = some true
  symm : ∀ v w, h.equal? n v w = h.equal? n w v
  trans : ∀ v w u, h.equal? n v w = some true → h.equal? n w u = some true →
    h.equal? n v u = some true
  typeName : ∀ v w, h.equal? n v w = some true → v.typeName = w.typeName
  text : ∀ v w, h.equal? n v w = some true →
    ∃ text, h.text? n v = some text ∧ h.text? n w = some text
  /-- The operators `==` and `!=` give this answer and its opposite. -/
  operators : ∀ s : Store, s.heap = h → ∀ offset v w, ∃ r : Bool,
    Run.operate n offset .eq v w s = (.ok (.boolean r), s) ∧
    Run.operate n offset .ne v w s = (.ok (.boolean !r), s) ∧ (r = true ↔ h.StructEq v w)

theorem operate_eq {s : Store} {v w : Value} (heq : s.heap.equal? n v w = some r) (offset : Nat) :
    Run.operate n offset .eq v w s = (.ok (.boolean r), s) ∧
      Run.operate n offset .ne v w s = (.ok (.boolean !r), s) := by
  have hequal : Run.equal n v w s = (.ok r, s) := by
    rw [Run.equal, heq]
  constructor
  · rw [Run.operate, Run.bind_apply, hequal]
    rfl
  · rw [Run.operate, Run.bind_apply, hequal]
    rfl

theorem Reaches.le_of_older (holder : ∀ a b, .list b ∈ h.elements a → b < a)
    (hreach : h.Reaches v w) : ∀ b, w = .list b → ∃ a, v = .list a ∧ b ≤ a := by
  induction hreach with
  | self => exact fun b hb => ⟨b, hb, Nat.le_refl b⟩
  | @element c w _ hmem ih =>
      rintro b rfl
      obtain ⟨a, hv, hle⟩ := ih c rfl
      exact ⟨a, hv, Nat.le_trans (Nat.le_of_lt (holder c b hmem)) hle⟩

/-- Lists that hold older ones only, as those that no element is assigned to, are in none of
themselves. -/
theorem acyclic_of_older (holder : ∀ a b, .list b ∈ h.elements a → b < a) : h.Acyclic := by
  rintro a ⟨w, hmem, hreach⟩
  obtain ⟨b, rfl, hle⟩ := hreach.le_of_older holder a rfl
  exact Nat.not_lt_of_le hle (holder a b hmem)

/-- Where no list is in itself, comparing values, which takes a list to be equal to itself without
looking into it, is structural equality; it always comes to an answer, is reflexive, symmetric and
transitive, and equal values have the same type and the same text. Less room than there are lists may
leave it without an answer, but never gives another one. -/
theorem equality_structural (hacyclic : h.Acyclic) :
    (∀ n v w r, h.equal? n v w = some r → (r = true ↔ h.StructEq v w)) ∧
      ∀ n, h.lists.size < n → h.Equates n := by
  refine ⟨fun n v w r => hacyclic.equal?_sound, fun n hn => ?_⟩
  refine ⟨hacyclic.equal?_eq hn, ?_, ?_, ?_, ?_, ?_, ?_⟩
  · exact fun v => (hacyclic.equal?_iff hn).mpr (hacyclic.structEq_self v)
  · intro v w
    obtain ⟨r, hr, hiff⟩ := hacyclic.equal?_eq hn v w
    obtain ⟨r', hr', hiff'⟩ := hacyclic.equal?_eq hn w v
    have hsymm : r = r' := Bool.eq_iff_iff.mpr
      (hiff.trans (Iff.trans ⟨StructEq.symm, StructEq.symm⟩ hiff'.symm))
    rw [hr, hr', hsymm]
  · intro v w u hvw hwu
    rw [hacyclic.equal?_iff hn] at *
    exact hvw.trans hwu
  · exact fun v w heq => ((hacyclic.equal?_iff hn).mp heq).typeName_eq
  · intro v w heq
    have hsame := ((hacyclic.equal?_iff hn).mp heq).text?_eq n
    obtain ⟨text, htext⟩ := Option.ne_none_iff_exists'.mp (hacyclic.text? hn v)
    exact ⟨text, htext, hsame ▸ htext⟩
  · rintro s rfl offset v w
    obtain ⟨r, hr, hiff⟩ := hacyclic.equal?_eq hn v w
    obtain ⟨heq, hne⟩ := operate_eq hr offset
    exact ⟨r, heq, hne, hiff⟩

/-- The negative zero and the other one are equal, and so is a list that holds one list twice to one
that holds two lists. -/
theorem shared_lists_structural :
    let h : Heap := ⟨#[#[.decimal ⟨true, 0, -1⟩], #[.decimal ⟨false, 0, -1⟩], #[.list 0, .list 0],
      #[.list 0, .list 1]]⟩
    h.Acyclic ∧ h.lists.size < 5 ∧ h.Equates 5 ∧ h.equal? 5 (.list 2) (.list 3) = some true ∧
      h.StructEq (.list 2) (.list 3) := by
  intro h
  have hacyclic : h.Acyclic := by
    refine acyclic_of_older fun a b hmem => ?_
    have ha : a < 4 := lt_size_of_mem_elements hmem
    interval_cases a <;> simp [h, elements, get?] at hmem <;> omega
  have hequal : h.equal? 5 (.list 2) (.list 3) = some true := by decide
  obtain ⟨hsound, hequates⟩ := equality_structural hacyclic
  exact ⟨hacyclic, by decide, hequates 5 (by decide), hequal, (hsound 5 _ _ _ hequal).mp rfl⟩

end Heap

end PlcLang
