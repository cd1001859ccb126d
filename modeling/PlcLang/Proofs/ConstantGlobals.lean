import PlcLang.Proofs.FilledTrees
import PlcLang.Proofs.Persistence
import PlcLang.Proofs.Rendering
import PlcLang.Proofs.RunNodes

namespace PlcLang

open Point
open Relation (ReflTransGen)

namespace Heap

variable {h h' h'' : Heap} {v w : Value} {a address : Nat}

/-- All lists that the value is or holds are the same in both heaps, and so are its texts. -/
structure SameFrom (h h' : Heap) (v : Value) : Prop where
  elements : ∀ a, h.Reaches v (.list a) → h'.elements a = h.elements a
  text : ∀ n, h'.text? n v = h.text? n v

theorem mapM_congr {α β : Type} {f g : α → Option β} {as : List α} (h : ∀ a ∈ as, f a = g a) :
    as.mapM f = as.mapM g := by
  induction as with
  | nil => rfl
  | cons a as ih =>
      obtain ⟨ha, has⟩ := List.forall_mem_cons.mp h
      rw [List.mapM_cons, List.mapM_cons, ha, ih has]

theorem SameFrom.of_elements (hsame : ∀ a, h.Reaches v (.list a) → h'.elements a = h.elements a) :
    h.SameFrom h' v where
  elements := hsame
  text n := by
    induction n generalizing v with
    | zero => rfl
    | succ n ih =>
        cases v with
        | list a =>
            simp only [text?, hsame a .self]
            refine congrArg (Option.bind · _) (mapM_congr fun w hw => ih fun b hb => hsame b ?_)
            exact Reaches.trans (.element .self (Array.mem_toList_iff.mp hw)) hb
        | _ => rfl

theorem SameFrom.refl (h : Heap) (v : Value) : h.SameFrom h v := .of_elements fun _ _ => rfl

theorem SameFrom.reaches (hsame : h.SameFrom h' v) (hw : h.Reaches v w) : h'.Reaches v w := by
  induction hw with
  | self => exact .self
  | element hreach hmem ih => exact ih.element (hsame.elements _ hreach ▸ hmem)

theorem SameFrom.reaches_back (hsame : h.SameFrom h' v) (hw : h'.Reaches v w) : h.Reaches v w := by
  induction hw with
  | self => exact .self
  | element _ hmem ih => exact ih.element (hsame.elements _ ih ▸ hmem)

theorem SameFrom.trans (hsame : h.SameFrom h' v) (hsame' : h'.SameFrom h'' v) :
    h.SameFrom h'' v where
  elements a ha := (hsame'.elements a (hsame.reaches ha)).trans (hsame.elements a ha)
  text n := (hsame'.text n).trans (hsame.text n)

theorem Reaches.allocated (hclosed : ∀ a, ∀ w ∈ h.elements a, w.Allocated h) (hv : v.Allocated h)
    (hw : h.Reaches v w) : w.Allocated h := by
  induction hw with
  | self => exact hv
  | element _ hmem _ => exact hclosed _ _ hmem

theorem sameFrom_alloc (hclosed : ∀ a, ∀ w ∈ h.elements a, w.Allocated h) (hv : v.Allocated h)
    (vs : Array Value) : h.SameFrom (h.alloc vs).2 v := by
  refine .of_elements fun a ha => ?_
  have hlt : a < h.lists.size := ha.allocated hclosed hv
  simp only [alloc, Heap.elements, get?, Array.getElem?_push, if_neg (Nat.ne_of_lt hlt)]

theorem sameFrom_write (hnot : ¬ h.Reaches v (.list address)) (i : Nat) (w : Value) :
    h.SameFrom (h.write address i w) v := by
  refine .of_elements fun a ha => ?_
  have hne : address ≠ a := by
    rintro rfl
    exact hnot ha
  simp only [write, Heap.elements, get?, Array.getElem?_modify, if_neg hne]

end Heap

theorem Point.Effect.sameFrom {pt : Point} {s u u' : Store} (h : pt.Effect s u u') (hu : u.Closed)
    {v : Value} (hv : v.Allocated u.heap) : u.heap.SameFrom u'.heap v ∨
      ∃ address, pt.Writes s address u u' ∧ u.heap.Reaches v (.list address) := by
  cases h with
  | quiet hheap _ => exact .inl (hheap ▸ .refl _ v)
  | bound names types values _ _ =>
      left
      rw [Store.bindParameters_heap]
      exact .refl _ v
  | declared | initialized | assigned => exact .inl (.refl _ v)
  | allocated vs => exact .inl (Heap.sameFrom_alloc hu.elements hv _)
  | @written _ address hwrites =>
      by_cases hreach : u.heap.Reaches v (.list address)
      · exact .inr ⟨address, hwrites, hreach⟩
      · left
        cases hwrites
        exact Heap.sameFrom_write hreach _ _

/-- The outermost scope gets a variable of the name from a global only. -/
theorem Point.Effect.mutable_kept {pt : Point} {s u u' : Store} (h : pt.Effect s u u') {x : String}
    {m : Bool}
    (hpt : ∀ depth g rest, pt = globals depth (g :: rest) → g.name = x → g.mutable = m)
    (hu : ∀ cell, u.cell? Store.root x = some cell → cell.mutable = m) :
    ∀ cell, u'.cell? Store.root x = some cell → cell.mutable = m := by
  intro cell hcell
  cases h with
  | quiet _ hcells => exact hu cell ((hcells _ _).symm.trans hcell)
  | bound names types values hroot _ =>
      rw [Store.Persists.cell?_bindParameters_of_ne (Nat.ne_of_gt hroot)] at hcell
      exact hu cell hcell
  | declared hroot _ =>
      rw [Store.cell?_define_of_ne _ _ _ _ (Nat.ne_of_gt hroot)] at hcell
      exact hu cell hcell
  | initialized heq _ hmutable =>
      rw [Store.cell?_define] at hcell
      split at hcell
      · next hsame =>
          cases hcell
          exact hmutable.trans (hpt _ _ _ heq hsame.2.2)
      · exact hu cell hcell
  | assigned hbinding hmutable =>
      rw [Store.cell?_define] at hcell
      split at hcell
      · next hsame =>
          cases hcell
          obtain ⟨rfl, _, rfl⟩ := hsame
          obtain ⟨old, hold, hold'⟩ := Option.map_eq_some_iff.mp hbinding
          exact (congrArg Binding.mutable hold').symm.trans (hu old hold)
      · exact hu cell hcell
  | allocated vs => exact hu cell hcell
  | written hwrites =>
      cases hwrites
      exact hu cell hcell

section Globals

variable {σ : Slots} {Γ Δ : Env} {gs : List Global}

theorem Global.ListTyped.names_distinct (h : Global.ListTyped σ Γ gs Δ) :
    (gs.map Global.name).Nodup ∧ ∀ g ∈ gs, g.name ∉ Γ.own := by
  induction h with
  | nil => exact ⟨.nil, nofun⟩
  | cons hg _ ih =>
      obtain ⟨hnodup, hnew⟩ := ih
      refine ⟨List.nodup_cons.mpr ⟨fun hmem => ?_, hnodup⟩, List.forall_mem_cons.mpr ⟨hg.2.2.1, ?_⟩⟩
      · obtain ⟨g', hg', hname⟩ := List.mem_map.mp hmem
        exact hnew g' hg' (.inl hname)
      · exact fun g' hg' hown => hnew g' hg' (.inr hown)

theorem Global.declare_isSome {g : Global} {own : String → Option Binding} {name : String}
    (h : (own name).isSome ∨ g.name = name ∧ g.slot.isSome) : (g.declare own name).isSome := by
  unfold Global.declare
  cases hslot : g.slot with
  | none =>
      rw [hslot] at h
      exact h.resolve_right fun h => Bool.false_ne_true h.2
  | some slot =>
      by_cases hname : name = g.name
      · subst hname
        simp
      · dsimp only
        rw [Function.update_of_ne hname]
        exact h.resolve_right fun h => hname h.1.symm

theorem Global.declare_all_isSome {own : String → Option Binding} {name : String}
    (h : (own name).isSome ∨ ∃ g ∈ gs, g.name = name ∧ g.slot.isSome) :
    (gs.foldl (fun own g => g.declare own) own name).isSome := by
  induction gs generalizing own with
  | nil => exact h.resolve_right nofun
  | cons g gs ih =>
      refine ih ?_
      obtain hown | ⟨g', hmem, hg'⟩ := h
      · exact .inl (declare_isSome (.inl hown))
      · obtain rfl | hmem := List.mem_cons.mp hmem
        · exact .inl (declare_isSome (.inr hg'))
        · exact .inr ⟨g', hmem, hg'⟩

end Globals

namespace Program

variable {p q : Program} {l : Limits} {s t u u' : Store}

def Writes (q : Program) (l : Limits) (address : Nat) (u u' : Store) : Prop :=
  ∃ pt s, Reaches l.rounds (program l.depth q) Store.initial pt s ∧ pt.Writes s address u u'

abbrev Leads (q : Program) (l : Limits) : Store → Store → Prop :=
  ReflTransGen (Steps l.rounds (program l.depth q) Store.initial)

/-- The global of that name is a constant of the run. -/
structure KeepsConstant (q : Program) (l : Limits) (x : String) : Prop where
  /-- It is there at the latest when all globals have been initialized. -/
  defined : ∀ t, initGlobals l q.globals Store.initial = (.ok (), t) →
    ∃ cell, t.cell? Store.root x = some cell
  /-- Once it is there, it has the same value, be it a scalar or a list, up to the end. -/
  value : ∀ t u cell, q.Leads l t u → t.cell? Store.root x = some cell →
    u.cell? Store.root x = some cell
  /-- A step leaves all that the value holds, with all its texts, or writes to a list in it. -/
  step : ∀ u u' cell, Steps l.rounds (program l.depth q) Store.initial u u' →
    u.cell? Store.root x = some cell → u.heap.SameFrom u'.heap cell.value ∨
      ∃ address, q.Writes l address u u' ∧ u.heap.Reaches cell.value (.list address)
  /-- So does the run: up to the first such write nothing changes. -/
  contents : ∀ t u cell, q.Leads l t u → t.cell? Store.root x = some cell →
    t.heap.SameFrom u.heap cell.value ∨ ∃ v v' address, q.Leads l t v ∧ q.Writes l address v v' ∧
      q.Leads l v' u ∧ t.heap.SameFrom v.heap cell.value ∧ t.heap.Reaches cell.value (.list address)

theorem closed_of_visits (h : Visits l.rounds (program l.depth q) Store.initial t) : t.Closed := by
  have hkept : (storage fun _ => True).Kept l.rounds Ready :=
    storage_kept .asks (fun _ _ => id) (fun _ _ => trivial) fun _ _ _ _ _ _ => trivial
  exact hkept.visits (i := ()) (initial_ready l.depth q) Store.initial_closed trivial h

section

variable {allowed : Ty → Prop} (hq : q.Typed (.filled allowed))
include hq

theorem mutable_of_visits {x : Global} (hx : x ∈ q.globals)
    (h : Visits l.rounds (program l.depth q) Store.initial t) :
    ∀ cell, t.cell? Store.root x.name = some cell → cell.mutable = x.mutable := by
  have ⟨_, _, hglobals, _⟩ := hq
  have hleads := h.leads
  clear h
  induction hleads with
  | refl =>
      intro cell hcell
      rw [Store.initial_cell?] at hcell
      cases hcell
  | @tail u u' _ hstep ih =>
      obtain ⟨pt, s, hreach, heffect⟩ := effect_of_step hq hstep
      refine heffect.mutable_kept ?_ ih
      rintro depth g rest rfl hname
      have hg := ((traced_of_reaches hreach).1 g List.mem_cons_self).global
      exact congrArg Global.mutable
        (List.inj_on_of_nodup_map hglobals.names_distinct.1 hg hx hname)

theorem value_kept {x : String}
    (hx : ∀ t cell, Visits l.rounds (program l.depth q) Store.initial t →
      t.cell? Store.root x = some cell → cell.mutable = false)
    (h : q.Leads l t u) {cell : Cell} (hcell : t.cell? Store.root x = some cell) :
    u.cell? Store.root x = some cell := by
  induction h with
  | refl => exact hcell
  | tail _ hstep ih =>
      obtain ⟨cell', hcell', _, hsame⟩ := persists_of_step hq hstep Store.root x cell ih
      rw [hcell', hsame (hx _ cell hstep.visits.1 ih)]

theorem step_sameFrom (h : Steps l.rounds (program l.depth q) Store.initial u u') {i : Nat}
    {name : String} {cell : Cell} (hcell : u.cell? i name = some cell) :
    u.heap.SameFrom u'.heap cell.value ∨
      ∃ address, q.Writes l address u u' ∧ u.heap.Reaches cell.value (.list address) := by
  obtain ⟨pt, s, hreach, heffect⟩ := effect_of_step hq h
  have hclosed := closed_of_visits h.visits.1
  refine (heffect.sameFrom hclosed (hclosed.cells i name cell hcell)).imp_right ?_
  rintro ⟨address, hwrites, hheld⟩
  exact ⟨address, ⟨pt, s, hreach, hwrites⟩, hheld⟩

theorem defined_of_initGlobals {x : Global} (hx : x ∈ q.globals)
    (h : initGlobals l q.globals Store.initial = (.ok (), t)) :
    ∃ cell, t.cell? Store.root x.name = some cell := by
  have hready : (Point.globals l.depth q.globals).Ready Store.initial :=
    ⟨Store.initial_ordered, trivial⟩
  have hrun : (Point.globals l.depth q.globals).run l.rounds Store.initial = (.ok (), t) := h
  obtain ⟨_, _, hbinding⟩ := hready.framed hrun
  obtain ⟨_, _, hglobals, _⟩ := hq
  have hfilled : x.slot.isSome := (globals_accepted hglobals x hx).filled
  have hsome : (t.binding? Store.root x.name).isSome := by
    rw [hbinding]
    exact Global.declare_all_isSome (.inr ⟨x, hx, rfl, hfilled⟩)
  rw [Store.binding?, Option.isSome_map] at hsome
  exact Option.isSome_iff_exists.mp hsome

end

/-- In every run of a checked program, a global that cannot be assigned to keeps its value from when
it is initialized to the end. What it shows changes only where a value is assigned to an element of a
list in it, through a variable that may be assigned to. -/
theorem constants_keep_values {depth : Nat} (h : p.checkWithin depth = .ok q) (l : Limits)
    {x : Global} (hx : x ∈ q.globals) (hconstant : x.mutable = false) : q.KeepsConstant l x.name := by
  have hq := typed_of_checkWithin h
  have hvalue {t u : Store} {cell : Cell} (hleads : q.Leads l t u)
      (hcell : t.cell? Store.root x.name = some cell) : u.cell? Store.root x.name = some cell :=
    value_kept hq (fun t cell hvisits hcell =>
      (mutable_of_visits hq hx hvisits cell hcell).trans hconstant) hleads hcell
  refine ⟨fun t => defined_of_initGlobals hq hx, fun t u cell => hvalue,
    fun u u' cell hstep => step_sameFrom hq hstep, ?_⟩
  intro t u cell hleads hcell
  induction hleads with
  | refl => exact .inl (.refl t.heap cell.value)
  | @tail v w hbefore hstep ih =>
      obtain hsame | ⟨v₁, v₂, address, hfirst, hwrites, hrest, hsame, hheld⟩ := ih
      · obtain hsame' | ⟨address, hwrites, hheld⟩ := step_sameFrom hq hstep (hvalue hbefore hcell)
        · exact .inl (hsame.trans hsame')
        · exact .inr ⟨v, w, address, hbefore, hwrites, .refl, hsame, hsame.reaches_back hheld⟩
      · exact .inr ⟨v₁, v₂, address, hfirst, hwrites, hrest.tail hstep, hsame, hheld⟩

/-- The list of `x` gets the name `a` as well, through which its first element is assigned to. -/
def shared : Program where
  globals := [⟨0, "x", "Integer", false, some (.list ⟨0, none⟩ [.literal ⟨0, none⟩ (.integer 1),
    .literal ⟨0, none⟩ (.integer 2)]), none⟩]
  functions := [⟨0, "main", [], [], some "Integer", [
    .declaration 0 "a" none (some (.access ⟨0, none⟩ "x" none)) none,
    .assignment 0 (.element ⟨0, none⟩ "a" (.literal ⟨0, none⟩ (.integer 0)) none)
      (.literal ⟨0, none⟩ (.integer 5)),
    .expression 0 (.call ⟨0, none⟩ "print" [.access ⟨0, none⟩ "x" none] none),
    .ret 0 (some (.literal ⟨0, none⟩ (.integer 0)))], none⟩]

def sharedChecked : Program :=
  let x : Variable := ⟨0, "x", "x", .integer, false⟩
  let a : Variable := ⟨1, "a", "a", .integer, true⟩
  let number (n : Int) : Expr := .literal ⟨0, some .integer⟩ (.integer n)
  { globals := [⟨0, "x", "Integer", false, some (.list ⟨0, some .integer⟩ [number 1, number 2]), some x⟩]
    functions := [⟨0, "main", [], [], some "Integer", [
      .declaration 0 "a" none (some (.access ⟨0, some .integer⟩ "x" (some x))) (some a),
      .assignment 0 (.element ⟨0, some .integer⟩ "a" (number 0) (some a)) (number 5),
      .expression 0 (.call ⟨0, some .nil⟩ "print" [.access ⟨0, some .integer⟩ "x" (some x)]
        (some .print)),
      .ret 0 (some (number 0))], some ⟨"main", "main", [], .integer⟩⟩] }

/-- A constant of this program shows one list when the globals have been initialized and another
one at the end of the run. -/
theorem aliases_change_constants : ∃ q x cell r t u, shared.check = .ok q ∧ x ∈ q.globals ∧
    x.mutable = false ∧ initGlobals .standard q.globals Store.initial = (.ok (), t) ∧
    (q.main .standard).run Store.initial = (r, u) ∧ t.cell? Store.root x.name = some cell ∧
    u.cell? Store.root x.name = some cell ∧ t.heap.text? 2 cell.value = some "[1, 2]" ∧
    u.heap.text? 2 cell.value = some "[5, 2]" :=
  ⟨sharedChecked, _, ⟨.integer, false, .list 0⟩, _, _, _, rfl, List.mem_cons_self, rfl, rfl, rfl, rfl,
    rfl, rfl, rfl⟩

theorem shared_keeps_value : shared.checkWithin checkDepth = .ok sharedChecked ∧
    (∃ x ∈ sharedChecked.globals, x.name = "x" ∧ x.mutable = false) ∧
    sharedChecked.KeepsConstant .standard "x" ∧
    ∃ r u, (sharedChecked.main .standard).run Store.initial = (r, u) ∧
      u.cell? Store.root "x" = some ⟨.integer, false, .list 0⟩ := by
  have hcheck : shared.checkWithin checkDepth = .ok sharedChecked := rfl
  exact ⟨hcheck, ⟨_, List.mem_cons_self, rfl, rfl⟩,
    constants_keep_values hcheck .standard List.mem_cons_self rfl, _, _, rfl, rfl⟩

end Program

end PlcLang
