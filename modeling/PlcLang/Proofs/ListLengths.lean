import PlcLang.Proofs.ListTypes
import PlcLang.Proofs.Resolution

namespace PlcLang

open Plan Point

namespace Heap

variable {h h' h'' : Heap} {a : Nat}

/-- A later heap has the lists of an earlier one, with the same lengths. -/
structure Keeps (h h' : Heap) : Prop where
  size_le : h.lists.size ≤ h'.lists.size
  length : ∀ a < h.lists.size, (h'.elements a).size = (h.elements a).size

theorem Keeps.refl (h : Heap) : h.Keeps h := ⟨Nat.le_refl _, fun _ _ => rfl⟩

theorem Keeps.trans (hk : h.Keeps h') (hk' : h'.Keeps h'') : h.Keeps h'' where
  size_le := Nat.le_trans hk.size_le hk'.size_le
  length a ha := (hk'.length a (Nat.lt_of_lt_of_le ha hk.size_le)).trans (hk.length a ha)

theorem keeps_alloc (h : Heap) (vs : Array Value) : h.Keeps (h.alloc vs).2 where
  size_le := by simp [alloc]
  length a ha := by
    simp only [alloc, elements, get?, Array.getElem?_push, if_neg (Nat.ne_of_lt ha)]

theorem keeps_write (h : Heap) (address i : Nat) (v : Value) : h.Keeps (h.write address i v) where
  size_le := Nat.le_of_eq Array.size_modify.symm
  length a _ := by
    simp only [write, elements, get?, Array.getElem?_modify]
    split
    · cases h.lists[a]? <;> simp
    · rfl

end Heap

def Value.Allocated (h : Heap) : Value → Prop
  | list a => a < h.lists.size
  | _ => True

namespace Value.Allocated

variable {h h' : Heap} {v w : Value}

theorem mono (hv : v.Allocated h) (hk : h.Keeps h') : v.Allocated h' := by
  cases v with
  | list a => exact Nat.lt_of_lt_of_le hv hk.size_le
  | _ => trivial

theorem of_literal (value : Literal) : value.toValue.Allocated h := by
  cases value <;> trivial

theorem of_yields {op : BinOp} {r : Value} (hr : op.Yields v w r) : r.Allocated h := by
  cases hr <;> trivial

end Value.Allocated

namespace Store

variable {s t : Store}

/-- Every list that a variable or a list holds is there. -/
structure Closed (s : Store) : Prop where
  elements : ∀ a, ∀ v ∈ s.heap.elements a, v.Allocated s.heap
  cells : ∀ i name cell, s.cell? i name = some cell → cell.value.Allocated s.heap

theorem Closed.of_eq (h : s.Closed) (hheap : t.heap = s.heap)
    (hcells : ∀ i name, t.cell? i name = s.cell? i name) : t.Closed where
  elements := hheap ▸ h.elements
  cells i name cell hcell := hheap ▸ h.cells i name cell ((hcells i name).symm.trans hcell)

theorem Closed.opened (h : s.Closed) (parent : Nat) : (s.opened parent).Closed :=
  h.of_eq rfl (cell?_opened s parent)

theorem Closed.define (h : s.Closed) (scope : Nat) (name : String) {cell : Cell}
    (hcell : cell.value.Allocated s.heap) : (s.define scope name cell).Closed where
  elements := h.elements
  cells i n c hc := by
    obtain rfl | hc := cell?_define_eq_some hc
    · exact hcell
    · exact h.cells i n c hc

theorem bindParameters_scopes (scope : Nat) (names : List String) (types : List Ty)
    (values : List Value) (s : Store) :
    ∃ scopes, s.bindParameters scope names types values = { s with scopes } := by
  induction names generalizing types values s with
  | nil => exact ⟨_, rfl⟩
  | cons name names ih =>
      cases types with
      | nil => exact ⟨_, rfl⟩
      | cons type types =>
          cases values with
          | nil => exact ⟨_, rfl⟩
          | cons value values => exact ih types values _

theorem bindParameters_heap (scope : Nat) (names : List String) (types : List Ty)
    (values : List Value) (s : Store) :
    (s.bindParameters scope names types values).heap = s.heap := by
  obtain ⟨scopes, heq⟩ := s.bindParameters_scopes scope names types values
  rw [heq]

theorem Closed.bindParameters (h : s.Closed) (scope : Nat) (names : List String) (types : List Ty)
    {values : List Value} (hvalues : ∀ v ∈ values, v.Allocated s.heap) :
    (s.bindParameters scope names types values).Closed := by
  induction names generalizing types values s with
  | nil => exact h
  | cons name names ih =>
      cases types with
      | nil => exact h
      | cons type types =>
          cases values with
          | nil => exact h
          | cons value values =>
              obtain ⟨hvalue, hvalues⟩ := List.forall_mem_cons.mp hvalues
              exact ih (h.define scope name hvalue) types hvalues

theorem Closed.alloc (h : s.Closed) {vs : List Value} (hvs : ∀ v ∈ vs, v.Allocated s.heap) :
    (s.alloc vs).Closed where
  elements a v hv := by
    have hk := s.heap.keeps_alloc vs.toArray
    obtain ⟨_, hmem⟩ | hmem := Heap.mem_elements_alloc hv
    · exact (hvs v hmem).mono hk
    · exact (h.elements a v hmem).mono hk
  cells i name cell hcell := (h.cells i name cell hcell).mono (s.heap.keeps_alloc vs.toArray)

theorem Closed.write (h : s.Closed) {v : Value} (hv : v.Allocated s.heap) (address i : Nat) :
    (s.write address i v).Closed where
  elements a w hw := by
    have hk := s.heap.keeps_write address i v
    obtain ⟨_, rfl⟩ | hmem := Heap.mem_elements_write hw
    · exact hv.mono hk
    · exact (h.elements a w hmem).mono hk
  cells i name cell hcell := (h.cells i name cell hcell).mono (s.heap.keeps_write address _ v)

theorem initial_closed : Store.initial.Closed where
  elements := nofun
  cells i name cell hcell := by
    rw [initial_cell?] at hcell
    cases hcell

end Store

theorem Program.addFunctions_unchanged (fs : List Function) (s : Store) :
    (addFunctions Store.root fs s).2.heap = s.heap ∧
      ∀ i name, (addFunctions Store.root fs s).2.cell? i name = s.cell? i name := by
  induction fs generalizing s with
  | nil => exact ⟨rfl, fun _ _ => rfl⟩
  | cons f fs ih =>
      obtain ⟨offset, name, parameters, parameterTypes, returnType, body, slot⟩ := f
      cases slot with
      | none => exact ⟨rfl, fun _ _ => rfl⟩
      | some signature =>
          let r : Routine := ⟨signature, .block parameters body Store.root⟩
          obtain ⟨hheap, hcells⟩ := ih (s.defineRoutine Store.root r)
          refine ⟨hheap, fun i name => (hcells i name).trans ?_⟩
          exact Store.cell?_defineRoutine s Store.root r i name

namespace Run

variable {α β : Type}

/-- Only loops stop for want of rounds. -/
def Loopless (m : Run α) : Prop := ∀ s, (m s).1 ≠ .error .endless

theorem StopsAt.loopless {m : Run α} {offset : Nat} (h : StopsAt offset m) : Loopless m :=
  fun s heq => nomatch h s .endless heq

theorem loopless_lookupMain : Loopless lookupMain := by
  intro s
  unfold lookupMain
  cases s.scopes.findFunction? Store.root "main" 0 <;> nofun

theorem loopless_addFunctions (fs : List Function) :
    Loopless (Program.addFunctions Store.root fs) := by
  induction fs with
  | nil => exact fun _ => nofun
  | cons f fs ih =>
      obtain ⟨offset, name, parameters, parameterTypes, returnType, body, slot⟩ := f
      cases slot with
      | none => exact fun _ => nofun
      | some signature => exact fun s => ih _

end Run

namespace Point

def TakesAllocated : Point → Heap → Prop
  | call _ _ values, h => ∀ v ∈ values, v.Allocated h
  | _, _ => True

def GivesAllocated : (pt : Point) → pt.Result → Heap → Prop
  | expr .., v, h | call .., v, h | program .., v, h => v.Allocated h
  | exprs .., vs, h => ∀ v ∈ vs, v.Allocated h
  | stmt .., r, h | stmts .., r, h | loop .., r, h => ∀ v, r = some v → v.Allocated h
  | select .., _, _ | globals .., _, _ => True

end Point

/-- Lists keep their lengths, and what a run stops for is among the given ends. -/
def storage (ends : Stop → Prop) : Contract Unit where
  inv := Store.Closed
  stops := ends
  pre _ pt s := pt.TakesAllocated s.heap
  post _ pt s r t := s.heap.Keeps t.heap ∧ pt.GivesAllocated r t.heap

namespace Storage

variable {ends : Stop → Prop} {rounds depth scope : Nat} {s t : Store} {α : Type}
  {fact : Point → Store → Prop} (hends : ∀ why, why ≠ .endless → ends why)

include hends in
theorem read {m : Run α} {P : α → Prop} {Q : Stop → Prop} {Φ : α → Store → Prop}
    (h : m.Gives s P Q) (hm : m.Loopless) (hs : s.Closed) (hΦ : ∀ a, P a → Φ a s) :
    (atomic m).Meets (run rounds) ((storage ends).given fact) Φ s := by
  refine (meets_atomic m s).mpr ?_
  obtain ⟨a, heq, ha⟩ | ⟨why, heq, _⟩ := h
  · rw [heq]
    exact ⟨hs, hΦ a ha⟩
  · rw [heq]
    refine ⟨hs, hends why ?_⟩
    rintro rfl
    exact hm s (congrArg Prod.fst heq)

theorem evaluated {e : Expr} {Φ : Value → Store → Prop}
    (hΦ : ∀ v t, t.Closed → s.heap.Keeps t.heap → v.Allocated t.heap → Φ v t) :
    (eval depth scope e).Meets (run rounds) ((storage ends).given fact) Φ s :=
  ⟨(), fun _ => trivial, fun v t _ ht hpost => hΦ v t ht hpost.2.1 hpost.2.2⟩

include hends in
theorem decided {e : Expr} {f : Bool → Plan α} {Φ : α → Store → Prop}
    (hf : ∀ b t, t.Closed → s.heap.Keeps t.heap →
      (f b).Meets (run rounds) ((storage ends).given fact) Φ t) :
    (do
      let v ← eval depth scope e
      let b ← atomic (Run.truth e.offset v)
      f b).Meets (run rounds) ((storage ends).given fact) Φ s :=
  .bind (evaluated fun v t ht hk _ =>
    .bind (read hends (Run.truth_gives _ v) Run.truth_stopsAt.loopless ht fun b _ => hf b t ht hk))

theorem allEvaluated {es : List Expr} {Φ : List Value → Store → Prop}
    (hΦ : ∀ vs t, t.Closed → s.heap.Keeps t.heap → (∀ v ∈ vs, v.Allocated t.heap) → Φ vs t) :
    (evalAll depth scope es).Meets (run rounds) ((storage ends).given fact) Φ s :=
  ⟨(), fun _ => trivial, fun vs t _ ht hpost => hΦ vs t ht hpost.2.1 hpost.2.2⟩

theorem block_executed {xs : List Stmt} {Φ : Option Value → Store → Prop} (hs : s.Closed)
    (hΦ : ∀ r t, t.Closed → s.heap.Keeps t.heap → (∀ v, r = some v → v.Allocated t.heap) → Φ r t) :
    (blockPlan depth scope xs).Meets (run rounds) ((storage ends).given fact) Φ s := by
  refine .bind ((meets_atomic _ s).mpr ⟨hs.opened scope, ?_⟩)
  exact ⟨(), fun _ => trivial, fun r t _ ht hpost => hΦ r t ht hpost.2.1 hpost.2.2⟩

theorem found_allocated (hs : s.Closed) (hordered : s.Ordered) {name : String} {found : Nat × Cell}
    (hfound : s.scopes.findVariable? scope name = some found) : found.2.value.Allocated s.heap :=
  hs.cells found.1 name found.2 (Store.cell?_of_findVariable? hordered hfound)

theorem getD_allocated (hs : s.Closed) (address i : Nat) :
    ((s.heap.elements address).getD i .nil).Allocated s.heap := by
  unfold Array.getD
  split
  · exact hs.elements address _ (Array.getElem_mem _)
  · trivial

include hends in
theorem exprPlan_meets (hs : s.Closed) (hordered : s.Ordered) (e : Expr) :
    (exprPlan depth scope e).Meets (run rounds) ((storage ends).given fact)
      (fun v t => s.heap.Keeps t.heap ∧ v.Allocated t.heap) s := by
  cases e with
  | literal info value => exact ⟨.refl s.heap, .of_literal value⟩
  | group info inner => exact evaluated fun v t _ hk hv => ⟨hk, hv⟩
  | binary info op left right =>
      cases op with
      | and =>
          refine decided hends fun b t _ hk => ?_
          cases b with
          | false => exact ⟨hk, trivial⟩
          | true => exact decided hends fun b u _ hk' => ⟨hk.trans hk', trivial⟩
      | or =>
          refine decided hends fun b t _ hk => ?_
          cases b with
          | false => exact decided hends fun b u _ hk' => ⟨hk.trans hk', trivial⟩
          | true => exact ⟨hk, trivial⟩
      | _ =>
          exact .bind (evaluated fun v t _ hk _ => .bind (evaluated fun w u hu hk' _ =>
            read hends (Run.operate_gives depth info.offset _ v w) Run.operate_stopsAt.loopless hu
              fun r hr => ⟨hk.trans hk', .of_yields hr⟩))
  | access info name slot =>
      refine .bind (read hends (Run.lookup_gives scope name _) Run.lookup_stopsAt.loopless hs
        fun found hfound => ?_)
      exact ⟨.refl s.heap, found_allocated hs hordered hfound⟩
  | element info name index slot =>
      refine .bind (read hends (Run.lookup_gives scope name _) Run.lookup_stopsAt.loopless hs
        fun found _ => ?_)
      refine .bind (read hends (Run.addressOf_gives name _ found.2.value)
        Run.addressOf_stopsAt.loopless hs fun address _ => ?_)
      refine .bind (read hends (Run.lengthOf_gives address) (Run.lengthOf_stopsAt 0).loopless hs
        fun length _ => ?_)
      refine .bind (evaluated fun v t ht hk _ => ?_)
      refine .bind (read hends (Run.position_gives _ _ v) Run.position_stopsAt.loopless ht
        fun i _ => ?_)
      refine .bind (read hends (Run.elements_gives address) (Run.elements_stopsAt 0).loopless ht ?_)
      rintro _ rfl
      exact ⟨hk, getD_allocated ht address i⟩
  | call info name arguments slot =>
      refine .bind (read hends (Run.lookupRoutine_gives scope name _ _)
        Run.lookupRoutine_stopsAt.loopless hs fun r _ => ?_)
      refine .bind (allEvaluated fun vs t ht hk hvs => ?_)
      exact ⟨(), fun _ => hvs, fun v u _ _ hpost => ⟨hk.trans hpost.2.1, hpost.2.2⟩⟩
  | list info elements =>
      refine .bind (allEvaluated fun vs t ht hk hvs => (meets_atomic _ t).mpr ?_)
      have hk' := t.heap.keeps_alloc vs.toArray
      refine ⟨ht.alloc hvs, hk.trans hk', ?_⟩
      change t.heap.lists.size < (t.heap.lists.push vs.toArray).size
      rw [Array.size_push]
      exact Nat.lt_succ_self _
  | unknown start node => exact hends _ nofun

include hends in
theorem stmtPlan_meets (hs : s.Closed) (x : Stmt) :
    (stmtPlan rounds depth scope x).Meets (run rounds) ((storage ends).given fact)
      (fun r t => s.heap.Keeps t.heap ∧ ∀ v, r = some v → v.Allocated t.heap) s := by
  cases x with
  | expression offset value => exact .bind (evaluated fun v t _ hk _ => ⟨hk, nofun⟩)
  | declaration offset name typeName value slot =>
      cases slot with
      | none => exact hends _ nofun
      | some slot =>
          cases value with
          | none =>
              exact .bind ((meets_atomic _ s).mpr
                ⟨hs.define scope name trivial, .refl s.heap, nofun⟩)
          | some value =>
              exact .bind (evaluated fun v t ht hk hv => .bind ((meets_atomic _ t).mpr
                ⟨ht.define scope name hv, hk, nofun⟩))
  | assignment offset receiver value =>
      cases receiver with
      | access info name slot =>
          refine .bind (read hends (Run.lookup_gives scope name _) Run.lookup_stopsAt.loopless hs
            fun found _ => ?_)
          refine .bind (read hends (Run.requireMutable_gives found.2 name offset)
            Run.requireMutable_stopsAt.loopless hs fun _ _ => ?_)
          exact .bind (evaluated fun v t ht hk hv => .bind ((meets_atomic _ t).mpr
            ⟨ht.define found.1 name hv, hk, nofun⟩))
      | element info name index slot =>
          refine .bind (read hends (Run.lookup_gives scope name _) Run.lookup_stopsAt.loopless hs
            fun found _ => ?_)
          refine .bind (read hends (Run.requireMutable_gives found.2 name offset)
            Run.requireMutable_stopsAt.loopless hs fun _ _ => ?_)
          refine .bind (read hends (Run.addressOf_gives name _ found.2.value)
            Run.addressOf_stopsAt.loopless hs fun address _ => ?_)
          refine .bind (read hends (Run.lengthOf_gives address) (Run.lengthOf_stopsAt 0).loopless hs
            fun length _ => ?_)
          refine .bind (evaluated fun v t ht hk _ => ?_)
          refine .bind (read hends (Run.position_gives _ _ v) Run.position_stopsAt.loopless ht
            fun i _ => ?_)
          refine .bind (evaluated fun w u hu hk' hw => .bind ((meets_atomic _ u).mpr ?_))
          have hk'' := u.heap.keeps_write address i w
          exact ⟨hu.write hw address i, (hk.trans hk').trans hk'', nofun⟩
      | _ => exact hends _ nofun
  | ifElse offset condition thenBody elseBody =>
      refine decided hends fun b t ht hk => ?_
      cases b with
      | false => exact block_executed ht fun r u _ hk' hr => ⟨hk.trans hk', hr⟩
      | true => exact block_executed ht fun r u _ hk' hr => ⟨hk.trans hk', hr⟩
  | switch offset condition cases =>
      refine .bind (evaluated fun v t ht hk _ => ?_)
      refine .bind ⟨(), fun _ => trivial, fun body u _ hu hpost => ?_⟩
      have hk' := hk.trans hpost.2.1
      exact block_executed hu fun r w _ hk'' hr => ⟨hk'.trans hk'', hr⟩
  | whileDo offset condition body => exact ⟨(), fun _ => trivial, fun r t _ _ hpost => hpost.2⟩
  | ret offset value =>
      cases value with
      | none =>
          refine ⟨.refl s.heap, ?_⟩
          rintro _ ⟨⟩
          trivial
      | some value =>
          refine .bind (evaluated fun v t _ hk hv => ⟨hk, ?_⟩)
          rintro _ ⟨⟩
          exact hv
  | unknown start node => exact hends _ nofun

include hends in
theorem callPlan_meets (hs : s.Closed) (r : Routine) {values : List Value}
    (hvalues : ∀ v ∈ values, v.Allocated s.heap) :
    (callPlan depth r values).Meets (run rounds) ((storage ends).given fact)
      (fun v t => s.heap.Keeps t.heap ∧ v.Allocated t.heap) s := by
  obtain ⟨signature, body⟩ := r
  cases body with
  | print =>
      refine .bind (read hends (Run.text_gives depth _) (Run.text_stopsAt 0).loopless hs fun text _ => ?_)
      refine .bind ((meets_atomic _ s).mpr ⟨hs.of_eq rfl fun _ _ => rfl, .refl s.heap, trivial⟩)
  | block parameters statements home =>
      have hopened := hs.opened home
      refine .bind ((meets_atomic _ s).mpr ⟨hopened, .bind ((meets_atomic _ _).mpr ?_)⟩)
      rw [Run.bindParameters_eq]
      have hbound := hopened.bindParameters s.size parameters signature.parameters hvalues
      refine ⟨hbound, .bind ⟨(), fun _ => trivial, ?_⟩⟩
      rintro r t _ _ ⟨_, hk, hr⟩
      rw [Store.bindParameters_heap] at hk
      refine ⟨hk, ?_⟩
      cases r with
      | none => trivial
      | some v => exact hr v rfl

include hends in
theorem globals_meets (hs : s.Closed) (gs : List Global) :
    ((globals depth gs).plan rounds).Meets (run rounds) ((storage ends).given fact)
      ((storage ends).post () (globals depth gs) s) s := by
  cases gs with
  | nil => exact ⟨.refl s.heap, trivial⟩
  | cons g rest =>
      obtain ⟨offset, name, typeName, mutable, value, slot⟩ := g
      cases slot with
      | none => exact hends _ nofun
      | some slot =>
          have hrest {t : Store} (ht : t.Closed) (hk : s.heap.Keeps t.heap) {v : Value}
              (hv : v.Allocated t.heap) :
              (do
                atomic (Run.define Store.root name ⟨slot.type, mutable, v⟩)
                initAll depth rest : Plan Unit).Meets (run rounds) ((storage ends).given fact)
                (fun _ u => s.heap.Keeps u.heap ∧ True) t := by
            refine .bind ((meets_atomic _ t).mpr ⟨ht.define Store.root name hv, ?_⟩)
            exact ⟨(), fun _ => trivial, fun _ u _ _ hpost => ⟨hk.trans hpost.2.1, trivial⟩⟩
          cases value with
          | none => exact hrest hs (.refl s.heap) trivial
          | some e => exact .bind (evaluated fun v t ht hk hv => hrest ht hk hv)

include hends in
theorem program_meets (p : Program) :
    ((program depth p).plan rounds).Meets (run rounds) ((storage ends).given fact)
      ((storage ends).post () (program depth p) s) s := by
  refine .bind ⟨(), fun _ => trivial, fun _ t _ ht hglobals => .bind ((meets_atomic _ t).mpr ?_)⟩
  obtain ⟨hheap, hcells⟩ := Program.addFunctions_unchanged p.functions t
  have hadded := ht.of_eq hheap hcells
  have hloopless := Run.loopless_addFunctions p.functions t
  cases hrun : Program.addFunctions Store.root p.functions t with
  | mk r u =>
      rw [hrun] at hheap hadded hloopless
      cases r with
      | error why => exact ⟨hadded, hends why fun hwhy => hloopless (congrArg Except.error hwhy)⟩
      | ok _ =>
          refine ⟨hadded, .bind (read hends Run.lookupMain_gives Run.loopless_lookupMain hadded ?_)⟩
          intro r _
          refine ⟨(), fun _ => nofun, fun v w _ _ hcall => ⟨?_, hcall.2.2⟩⟩
          have hk := hglobals.2.1
          rw [← hheap] at hk
          exact hk.trans hcall.2.1

include hends in
theorem plan_meets {pt : Point} (hs : s.Closed) (hordered : s.Ordered)
    (htakes : pt.TakesAllocated s.heap)
    (hloop : ∀ depth scope condition body, pt = loop 0 depth scope condition body → ends .endless) :
    (pt.plan rounds).Meets (run rounds) ((storage ends).given fact)
      ((storage ends).post () pt s) s := by
  cases pt with
  | expr depth scope e =>
      cases depth with
      | zero => exact hends _ nofun
      | succ depth => exact exprPlan_meets hends hs hordered e
  | exprs depth scope es =>
      cases es with
      | nil => exact ⟨.refl s.heap, nofun⟩
      | cons e es =>
          refine .bind (evaluated fun v t ht hk hv => .bind (allEvaluated fun vs u _ hk' hvs => ?_))
          exact ⟨hk.trans hk', List.forall_mem_cons.mpr ⟨hv.mono hk', hvs⟩⟩
  | stmt depth scope x =>
      cases depth with
      | zero => exact hends _ nofun
      | succ depth => exact stmtPlan_meets hends hs x
  | stmts depth scope xs =>
      cases xs with
      | nil => exact ⟨.refl s.heap, nofun⟩
      | cons x xs =>
          refine .bind ⟨(), fun _ => trivial, ?_⟩
          rintro r t _ ht ⟨_, hk, hr⟩
          cases r with
          | some v => exact ⟨hk, hr⟩
          | none =>
              refine ⟨(), fun _ => trivial, fun r u _ _ hpost => ?_⟩
              exact ⟨hk.trans hpost.2.1, hpost.2.2⟩
  | loop n depth scope condition body =>
      cases n with
      | zero => exact hloop depth scope condition body rfl
      | succ n =>
          refine decided hends fun b t ht hk => ?_
          cases b with
          | false => exact ⟨hk, nofun⟩
          | true =>
              refine .bind (block_executed ht fun r u hu hk' hr => ?_)
              cases r with
              | some v => exact ⟨hk.trans hk', hr⟩
              | none =>
                  refine ⟨(), fun _ => trivial, fun r w _ _ hpost => ?_⟩
                  exact ⟨(hk.trans hk').trans hpost.2.1, hpost.2.2⟩
  | select depth scope v cases =>
      cases cases with
      | nil => exact ⟨.refl s.heap, trivial⟩
      | cons c rest =>
          obtain ⟨offset, value, body⟩ := c
          cases value with
          | none => exact ⟨.refl s.heap, trivial⟩
          | some e =>
              refine .bind (evaluated fun w t ht hk _ => ?_)
              refine .bind (read hends (Run.equal_gives depth w v) (Run.equal_stopsAt 0).loopless ht
                fun b _ => ?_)
              cases b with
              | true => exact ⟨hk, trivial⟩
              | false =>
                  refine ⟨(), fun _ => trivial, fun r u _ _ hpost => ?_⟩
                  exact ⟨hk.trans hpost.2.1, trivial⟩
  | call depth r values => exact callPlan_meets hends hs r htakes
  | globals depth gs => exact globals_meets hends hs gs
  | program depth p => exact program_meets hends p

end Storage

theorem storage_kept {ends : Stop → Prop} {rounds : Nat} {fact : Point → Store → Prop}
    (hclosed : ∀ {pt sub : Point} {s t : Store}, fact pt s →
      (pt.plan rounds).Asks (run rounds) s sub t → fact sub t)
    (hready : ∀ pt s, fact pt s → pt.Ready s) (hends : ∀ why, why ≠ .endless → ends why)
    (hloop : ∀ depth scope condition body s, fact (loop 0 depth scope condition body) s →
      ends .endless) : (storage ends).Kept rounds fact where
  closed := hclosed
  meets hfact hs hpre := by
    refine Storage.plan_meets hends hs (hready _ _ hfact).1 hpre ?_
    rintro depth scope condition body rfl
    exact hloop depth scope condition body _ hfact

namespace Point

variable {rounds : Nat} {start pt : Point} {s t : Store}

theorem Reaches.ready (h : Reaches rounds start s pt t) (hstart : start.Ready s) : pt.Ready t := by
  induction h with
  | refl => exact hstart
  | step _ hasks ih => exact ih.asks hasks

/-- What is run at a point leaves each list as long as it is, and speaks only of lists that are
there. -/
theorem Ready.keeps_lists (h : pt.Ready s) (hs : s.Closed) (htakes : pt.TakesAllocated s.heap)
    {r : pt.Result} (hrun : pt.run rounds s = (.ok r, t)) :
    t.Closed ∧ s.heap.Keeps t.heap ∧ pt.GivesAllocated r t.heap := by
  have hkept : (storage fun _ => True).Kept rounds Ready :=
    storage_kept .asks (fun _ _ => id) (fun _ _ => trivial) fun _ _ _ _ _ _ => trivial
  have hends := (hkept.followed (i := ()) h hs htakes).1
  rw [hrun] at hends
  exact hends

end Point

namespace Program

variable {p : Program} {l : Limits} {pt : Point} {s t : Store}

theorem closed_of_reaches (h : Reaches l.rounds (program l.depth p) Store.initial pt s) :
    s.Closed ∧ pt.TakesAllocated s.heap := by
  have hkept : (storage fun _ => True).Kept l.rounds Ready :=
    storage_kept .asks (fun _ _ => id) (fun _ _ => trivial) fun _ _ _ _ _ _ => trivial
  obtain ⟨_, hclosed, _, htakes⟩ := hkept.reaches (i := ()) (initial_ready l.depth p)
    Store.initial_closed trivial h
  exact ⟨hclosed, htakes⟩

/-- A run that is endless comes to a loop that has no rounds left. -/
theorem loop_of_endless
    (h : (program l.depth p).run l.rounds Store.initial = (.error .endless, t)) :
    ∃ depth scope condition body s,
      Reaches l.rounds (program l.depth p) Store.initial (loop 0 depth scope condition body) s := by
  have hkept : (storage fun why => why = .endless → ∃ depth scope condition body s,
      Reaches l.rounds (program l.depth p) Store.initial (loop 0 depth scope condition body) s).Kept
      l.rounds (Reaches l.rounds (program l.depth p) Store.initial) :=
    storage_kept .step (fun _ _ hreach => hreach.ready (initial_ready l.depth p))
      (fun _ hne heq => absurd heq hne)
      fun depth scope condition body s hreach _ => ⟨depth, scope, condition, body, s, hreach⟩
  have hends := (hkept.followed (i := ()) .refl Store.initial_closed trivial).1
  rw [h] at hends
  exact hends.2 rfl

end Program

end PlcLang
