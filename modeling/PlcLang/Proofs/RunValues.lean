import PlcLang.Proofs.ListLengths
import PlcLang.Proofs.RunNodes
import PlcLang.Proofs.RunSteps

namespace PlcLang

open Plan Point

/-- What a strict operator makes of two values, where lists are as in the heap. -/
inductive BinOp.Computes (h : Heap) (depth : Nat) : BinOp → Value → Value → Value → Prop
  | truth {op : BinOp} {v w : Value} (b : Bool) : Computes h depth op v w (.boolean b)
  | text {v w : Value} {a b : String} : h.text? depth v = some a → h.text? depth w = some b →
      Computes h depth add v w (.string (a ++ b))
  | integer {op : BinOp} {v w : Value} (n : Int) : Computes h depth op v w (.integer n)
  | decimal {op : BinOp} {a b c : Decimal} : op.decimals a b = .ok c →
      Computes h depth op (.decimal a) (.decimal b) (.decimal c)

namespace Run

variable {α : Type} {s t : Store} {depth offset : Nat} {v w r : Value}

theorem lift_eq_ok {x : Except FaultCause Value} (h : lift offset x s = (.ok r, t)) :
    x = .ok r ∧ t = s := by
  cases x with
  | ok v =>
      cases h
      exact ⟨rfl, rfl⟩
  | error cause => cases h

theorem text_eq_ok {text : String} (h : Run.text depth v s = (.ok text, t)) :
    s.heap.text? depth v = some text ∧ t = s := by
  unfold Run.text at h
  cases htext : s.heap.text? depth v with
  | none =>
      rw [htext] at h
      cases h
  | some text' =>
      rw [htext] at h
      cases h
      exact ⟨rfl, rfl⟩

theorem bind_eq_ok {β : Type} {m : Run α} {f : α → Run β} {b : β}
    (h : (m >>= f) s = (.ok b, t)) : ∃ a u, m s = (.ok a, u) ∧ f a u = (.ok b, t) := by
  rw [bind_apply] at h
  cases hm : m s with
  | mk x u =>
      rw [hm] at h
      cases x with
      | ok a => exact ⟨a, u, rfl, h⟩
      | error why => cases h

theorem concatenate_computes
    (h : (do return .string ((← Run.text depth v) ++ (← Run.text depth w)) : Run Value) s =
      (.ok r, t)) : BinOp.add.Computes s.heap depth v w r := by
  obtain ⟨a, u, ha, hrest⟩ := bind_eq_ok h
  obtain ⟨b, u', hb, hresult⟩ := bind_eq_ok hrest
  obtain ⟨htext, rfl⟩ := text_eq_ok ha
  obtain ⟨htext', rfl⟩ := text_eq_ok hb
  obtain rfl : Value.string (a ++ b) = r := Except.ok.inj (congrArg Prod.fst hresult)
  exact .text htext htext'

theorem combine_computes {op : BinOp} (h : op.combine v w = .ok r) :
    op.Computes s.heap depth v w r := by
  unfold BinOp.combine at h
  split at h
  · next a b =>
      cases hresult : op.integers a b with
      | error cause =>
          rw [hresult] at h
          cases h
      | ok n =>
          rw [hresult] at h
          cases h
          exact .integer n
  · next a b =>
      cases hresult : op.decimals a b with
      | error cause =>
          rw [hresult] at h
          cases h
      | ok d =>
          rw [hresult] at h
          cases h
          exact .decimal hresult
  · cases h

theorem compare_computes {op : BinOp} (h : op.compare v w = .ok r) :
    op.Computes s.heap depth v w r := by
  unfold BinOp.compare at h
  split at h
  · cases h
    exact .truth _
  · cases h

theorem power_computes (h : BinOp.power v w = .ok r) :
    BinOp.pow.Computes s.heap depth v w r := by
  unfold BinOp.power at h
  split at h
  · split at h
    · cases h
    · cases h
      exact .integer _
  · cases h

theorem operate_computes {op : BinOp} (h : operate depth offset op v w s = (.ok r, t)) :
    op.Computes s.heap depth v w r := by
  unfold operate at h
  split at h
  · obtain ⟨b, u, _, h⟩ := bind_eq_ok h
    cases h
    exact .truth b
  · obtain ⟨b, u, _, h⟩ := bind_eq_ok h
    cases h
    exact .truth _
  · exact compare_computes (lift_eq_ok h).1
  · exact compare_computes (lift_eq_ok h).1
  · exact power_computes (lift_eq_ok h).1
  · exact concatenate_computes h
  · exact concatenate_computes h
  · exact combine_computes (lift_eq_ok h).1

end Run

/-- The literals of the program have the property, operators keep it, and a value that is no decimal
and no text is made out of nothing. -/
structure Value.Kept (q : Program) (P : Value → Prop) : Prop where
  literals : ∀ info value, q.Contains (.expr (.literal info value)) → P value.toValue
  operators : ∀ {h : Heap} {depth : Nat} {op : BinOp} {v w r : Value},
    op.Computes h depth v w r → P v → P w → P r
  truth : ∀ b, P (.boolean b)
  nil : P .nil
  list : ∀ a, P (.list a)

namespace Store

variable {P : Value → Prop} {s t : Store}

/-- All that variables and lists hold has the property. -/
structure All (P : Value → Prop) (s : Store) : Prop where
  elements : ∀ a, ∀ v ∈ s.heap.elements a, P v
  cells : ∀ i name cell, s.cell? i name = some cell → P cell.value

theorem All.of_eq (h : s.All P) (hheap : t.heap = s.heap)
    (hcells : ∀ i name, t.cell? i name = s.cell? i name) : t.All P where
  elements := hheap ▸ h.elements
  cells i name cell hcell := h.cells i name cell ((hcells i name).symm.trans hcell)

theorem All.opened (h : s.All P) (parent : Nat) : (s.opened parent).All P :=
  h.of_eq rfl (cell?_opened s parent)

theorem All.define (h : s.All P) (scope : Nat) (name : String) {cell : Cell} (hcell : P cell.value) :
    (s.define scope name cell).All P where
  elements := h.elements
  cells i n c hc := by
    obtain rfl | hc := cell?_define_eq_some hc
    · exact hcell
    · exact h.cells i n c hc

theorem All.bindParameters (h : s.All P) (scope : Nat) (names : List String) (types : List Ty)
    {values : List Value} (hvalues : ∀ v ∈ values, P v) :
    (s.bindParameters scope names types values).All P := by
  induction names generalizing types values s with
  | nil => exact h
  | cons name names ih =>
      cases types with
      | nil => exact h
      | cons type types =>
          cases values with
          | nil => exact h
          | cons value values =>
              obtain ⟨hvalue, hvalues⟩ := List.forall_mem_cons.mp hvalues
              exact ih (h.define scope name hvalue) types hvalues

theorem All.alloc (h : s.All P) {vs : List Value} (hvs : ∀ v ∈ vs, P v) : (s.alloc vs).All P where
  elements a v hv := by
    obtain ⟨_, hmem⟩ | hmem := Heap.mem_elements_alloc hv
    · exact hvs v hmem
    · exact h.elements a v hmem
  cells := h.cells

theorem All.write (h : s.All P) {v : Value} (hv : P v) (address i : Nat) :
    (s.write address i v).All P where
  elements a w hw := by
    obtain ⟨_, rfl⟩ | hmem := Heap.mem_elements_write hw
    · exact hv
    · exact h.elements a w hmem
  cells := h.cells

theorem All.found (h : s.All P) (hordered : s.Ordered) {scope : Nat} {name : String}
    {found : Nat × Cell} (hfound : s.scopes.findVariable? scope name = some found) :
    P found.2.value :=
  h.cells found.1 name found.2 (cell?_of_findVariable? hordered hfound)

theorem All.getD (h : s.All P) (hnil : P .nil) (address i : Nat) :
    P ((s.heap.elements address).getD i .nil) := by
  unfold Array.getD
  split
  · exact h.elements address _ (Array.getElem_mem _)
  · exact hnil

theorem initial_all (P : Value → Prop) : Store.initial.All P where
  elements := nofun
  cells i name cell hcell := by
    rw [initial_cell?] at hcell
    cases hcell

end Store

namespace Point

def TakesAll (P : Value → Prop) : Point → Prop
  | call _ _ values => ∀ v ∈ values, P v
  | _ => True

def GivesAll (P : Value → Prop) : (pt : Point) → pt.Result → Prop
  | expr .., v | call .., v | program .., v => P v
  | exprs .., vs => ∀ v ∈ vs, P v
  | stmt .., r | stmts .., r | loop .., r => ∀ v, r = some v → P v
  | select .., _ | globals .., _ => True

end Point

def keeping (P : Value → Prop) : Contract Unit where
  inv := Store.All P
  stops _ := True
  pre _ pt _ := pt.TakesAll P
  post _ pt _ r _ := pt.GivesAll P r

namespace Keeping

variable {P : Value → Prop} {q : Program} {rounds depth scope : Nat} {s : Store} {α : Type}
  {fact : Point → Store → Prop} {Φ : α → Store → Prop}

theorem read {m : Run α} {R : α → Prop} {Q : Stop → Prop} (h : m.Gives s R Q) (hs : s.All P)
    (hΦ : ∀ a, R a → m s = (.ok a, s) → Φ a s) :
    (atomic m).Meets (run rounds) ((keeping P).given fact) Φ s := by
  refine (meets_atomic m s).mpr ?_
  obtain ⟨a, heq, ha⟩ | ⟨why, heq, _⟩ := h
  · rw [heq]
    exact ⟨hs, hΦ a ha heq⟩
  · rw [heq]
    exact ⟨hs, trivial⟩

theorem evaluated {e : Expr} {Φ : Value → Store → Prop} (hΦ : ∀ v t, t.All P → P v → Φ v t) :
    (eval depth scope e).Meets (run rounds) ((keeping P).given fact) Φ s :=
  ⟨(), fun _ => trivial, fun v t _ ht hpost => hΦ v t ht hpost.2⟩

theorem allEvaluated {es : List Expr} {Φ : List Value → Store → Prop}
    (hΦ : ∀ vs t, t.All P → (∀ v ∈ vs, P v) → Φ vs t) :
    (evalAll depth scope es).Meets (run rounds) ((keeping P).given fact) Φ s :=
  ⟨(), fun _ => trivial, fun vs t _ ht hpost => hΦ vs t ht hpost.2⟩

theorem decided {e : Expr} {f : Bool → Plan α}
    (hf : ∀ b t, t.All P → (f b).Meets (run rounds) ((keeping P).given fact) Φ t) :
    (do
      let v ← eval depth scope e
      let b ← atomic (Run.truth e.offset v)
      f b).Meets (run rounds) ((keeping P).given fact) Φ s :=
  .bind (evaluated fun v t ht _ => .bind (read (Run.truth_gives _ v) ht fun b _ _ => hf b t ht))

theorem executed {xs : List Stmt} {Φ : Option Value → Store → Prop} (hs : s.All P)
    (hΦ : ∀ r t, t.All P → (∀ v, r = some v → P v) → Φ r t) :
    (blockPlan depth scope xs).Meets (run rounds) ((keeping P).given fact) Φ s := by
  refine .bind ((meets_atomic _ s).mpr ⟨hs.opened scope, ?_⟩)
  exact ⟨(), fun _ => trivial, fun r t _ ht hpost => hΦ r t ht hpost.2⟩

variable (hP : Value.Kept q P)
include hP

theorem exprPlan_meets (hs : s.All P) (hordered : s.Ordered) {e : Expr}
    (he : q.Contains (.expr e)) :
    (exprPlan depth scope e).Meets (run rounds) ((keeping P).given fact) (fun v _ => P v) s := by
  cases e with
  | literal info value => exact hP.literals info value he
  | group info inner => exact evaluated fun v t _ hv => hv
  | binary info op left right =>
      cases op with
      | and =>
          refine decided fun b t _ => ?_
          cases b with
          | false => exact hP.truth false
          | true => exact decided fun b u _ => hP.truth b
      | or =>
          refine decided fun b t _ => ?_
          cases b with
          | false => exact decided fun b u _ => hP.truth b
          | true => exact hP.truth true
      | _ =>
          exact .bind (evaluated fun v t _ hv => .bind (evaluated fun w u hu hw =>
            read (Run.operate_gives depth info.offset _ v w) hu
              fun r _ hr => hP.operators (Run.operate_computes hr) hv hw))
  | access info name slot =>
      refine .bind (read (Run.lookup_gives scope name _) hs fun found hfound _ => ?_)
      exact hs.found hordered hfound
  | element info name index slot =>
      refine .bind (read (Run.lookup_gives scope name _) hs fun found _ _ => ?_)
      refine .bind (read (Run.addressOf_gives name _ found.2.value) hs fun address _ _ => ?_)
      refine .bind (read (Run.lengthOf_gives address) hs fun length _ _ => ?_)
      refine .bind (evaluated fun v t ht _ => ?_)
      refine .bind (read (Run.position_gives _ _ v) ht fun i _ _ => ?_)
      refine .bind (read (Run.elements_gives address) ht ?_)
      rintro _ rfl _
      exact ht.getD hP.nil address i
  | call info name arguments slot =>
      refine .bind (read (Run.lookupRoutine_gives scope name _ _) hs fun r _ _ => ?_)
      refine .bind (allEvaluated fun vs t ht hvs => ?_)
      exact ⟨(), fun _ => hvs, fun v u _ _ hpost => hpost.2⟩
  | list info elements =>
      refine .bind (allEvaluated fun vs t ht hvs => (meets_atomic _ t).mpr ?_)
      exact ⟨ht.alloc hvs, hP.list _⟩
  | unknown start node => trivial

theorem stmtPlan_meets (hs : s.All P) (x : Stmt) :
    (stmtPlan rounds depth scope x).Meets (run rounds) ((keeping P).given fact)
      (fun r _ => ∀ v, r = some v → P v) s := by
  have hdefine {t : Store} (ht : t.All P) (home : Nat) (name : String) {cell : Cell}
      (hcell : P cell.value) :
      (do
        atomic (Run.define home name cell)
        return none : Plan (Option Value)).Meets (run rounds) ((keeping P).given fact)
        (fun r _ => ∀ v, r = some v → P v) t :=
    .bind ((meets_atomic _ t).mpr ⟨ht.define home name hcell, nofun⟩)
  cases x with
  | expression offset value => exact .bind (evaluated fun v t _ _ => nofun)
  | declaration offset name typeName value slot =>
      cases slot with
      | none => trivial
      | some slot =>
          cases value with
          | none => exact hdefine hs scope name hP.nil
          | some value => exact .bind (evaluated fun v t ht hv => hdefine ht scope name hv)
  | assignment offset receiver value =>
      cases receiver with
      | access info name slot =>
          refine .bind (read (Run.lookup_gives scope name _) hs fun found _ _ => ?_)
          refine .bind (read (Run.requireMutable_gives found.2 name offset) hs fun _ _ _ => ?_)
          exact .bind (evaluated fun v t ht hv => hdefine ht found.1 name hv)
      | element info name index slot =>
          refine .bind (read (Run.lookup_gives scope name _) hs fun found _ _ => ?_)
          refine .bind (read (Run.requireMutable_gives found.2 name offset) hs fun _ _ _ => ?_)
          refine .bind (read (Run.addressOf_gives name _ found.2.value) hs fun address _ _ => ?_)
          refine .bind (read (Run.lengthOf_gives address) hs fun length _ _ => ?_)
          refine .bind (evaluated fun v t ht _ => ?_)
          refine .bind (read (Run.position_gives _ _ v) ht fun i _ _ => ?_)
          exact .bind (evaluated fun w u hu hw => .bind ((meets_atomic _ u).mpr
            ⟨hu.write hw address i, nofun⟩))
      | _ => trivial
  | ifElse offset condition thenBody elseBody =>
      refine decided fun b t ht => ?_
      cases b with
      | false => exact executed ht fun r u _ hr => hr
      | true => exact executed ht fun r u _ hr => hr
  | switch offset condition cases =>
      refine .bind (evaluated fun v t _ _ => .bind ⟨(), fun _ => trivial, fun body u _ hu _ => ?_⟩)
      exact executed hu fun r w _ hr => hr
  | whileDo offset condition body => exact ⟨(), fun _ => trivial, fun r t _ _ hpost => hpost.2⟩
  | ret offset value =>
      cases value with
      | none =>
          rintro _ ⟨⟩
          exact hP.nil
      | some value =>
          refine .bind (evaluated fun v t _ hv => ?_)
          rintro _ ⟨⟩
          exact hv
  | unknown start node => trivial

theorem callPlan_meets (hs : s.All P) (r : Routine) {values : List Value}
    (hvalues : ∀ v ∈ values, P v) :
    (callPlan depth r values).Meets (run rounds) ((keeping P).given fact) (fun v _ => P v) s := by
  obtain ⟨signature, body⟩ := r
  cases body with
  | print =>
      refine .bind (read (Run.text_gives depth _) hs fun text _ _ => ?_)
      exact .bind ((meets_atomic _ s).mpr ⟨hs.of_eq rfl fun _ _ => rfl, hP.nil⟩)
  | block parameters statements home =>
      have hopened := hs.opened home
      refine .bind ((meets_atomic _ s).mpr ⟨hopened, .bind ((meets_atomic _ _).mpr ?_)⟩)
      rw [Run.bindParameters_eq]
      refine ⟨hopened.bindParameters s.size parameters signature.parameters hvalues, .bind ?_⟩
      refine ⟨(), fun _ => trivial, fun r t _ _ hpost => ?_⟩
      cases r with
      | none => exact hP.nil
      | some v => exact hpost.2 v rfl

theorem globals_meets (hs : s.All P) (gs : List Global) :
    ((globals depth gs).plan rounds).Meets (run rounds) ((keeping P).given fact)
      (fun _ _ => True) s := by
  cases gs with
  | nil => trivial
  | cons g rest =>
      obtain ⟨offset, name, typeName, mutable, value, slot⟩ := g
      cases slot with
      | none => trivial
      | some slot =>
          have hrest {t : Store} (ht : t.All P) {v : Value} (hv : P v) :
              (do
                atomic (Run.define Store.root name ⟨slot.type, mutable, v⟩)
                initAll depth rest : Plan Unit).Meets (run rounds) ((keeping P).given fact)
                (fun _ _ => True) t := by
            refine .bind ((meets_atomic _ t).mpr ⟨ht.define Store.root name hv, ?_⟩)
            exact ⟨(), fun _ => trivial, fun _ _ _ _ _ => trivial⟩
          cases value with
          | none => exact hrest hs hP.nil
          | some e => exact .bind (evaluated fun v t ht hv => hrest ht hv)

omit hP in
theorem program_meets (p : Program) :
    ((program depth p).plan rounds).Meets (run rounds) ((keeping P).given fact)
      (fun v _ => P v) s := by
  refine .bind ⟨(), fun _ => trivial, fun _ t _ ht _ => .bind ((meets_atomic _ t).mpr ?_)⟩
  obtain ⟨hheap, hcells⟩ := Program.addFunctions_unchanged p.functions t
  have hadded := ht.of_eq hheap hcells
  cases hrun : Program.addFunctions Store.root p.functions t with
  | mk r u =>
      rw [hrun] at hadded
      cases r with
      | error why => exact ⟨hadded, trivial⟩
      | ok _ =>
          refine ⟨hadded, .bind (read Run.lookupMain_gives hadded fun r _ _ => ?_)⟩
          exact ⟨(), fun _ => nofun, fun v w _ _ hcall => hcall.2⟩

theorem plan_meets {pt : Point} (hs : s.All P) (hordered : s.Ordered) (hpt : pt.Traced q)
    (htakes : pt.TakesAll P) :
    (pt.plan rounds).Meets (run rounds) ((keeping P).given fact)
      ((keeping P).post () pt s) s := by
  cases pt with
  | expr depth scope e =>
      cases depth with
      | zero => trivial
      | succ depth => exact exprPlan_meets hP hs hordered hpt
  | exprs depth scope es =>
      cases es with
      | nil => exact nofun
      | cons e es =>
          refine .bind (evaluated fun v t _ hv => .bind (allEvaluated fun vs u _ hvs => ?_))
          exact List.forall_mem_cons.mpr ⟨hv, hvs⟩
  | stmt depth scope x =>
      cases depth with
      | zero => trivial
      | succ depth => exact stmtPlan_meets hP hs x
  | stmts depth scope xs =>
      cases xs with
      | nil => exact nofun
      | cons x xs =>
          refine .bind ⟨(), fun _ => trivial, fun r t _ _ hr => ?_⟩
          cases r with
          | some v => exact hr.2
          | none => exact ⟨(), fun _ => trivial, fun r u _ _ hpost => hpost.2⟩
  | loop n depth scope condition body =>
      cases n with
      | zero => trivial
      | succ n =>
          refine decided fun b t ht => ?_
          cases b with
          | false => exact nofun
          | true =>
              refine .bind (executed ht fun r u _ hr => ?_)
              cases r with
              | some v => exact hr
              | none => exact ⟨(), fun _ => trivial, fun r u _ _ hpost => hpost.2⟩
  | select depth scope v cases =>
      cases cases with
      | nil => trivial
      | cons c rest =>
          obtain ⟨offset, value, body⟩ := c
          cases value with
          | none => trivial
          | some e =>
              refine .bind (evaluated fun w t ht _ => ?_)
              refine .bind (read (Run.equal_gives depth w v) ht fun b _ _ => ?_)
              cases b with
              | true => trivial
              | false => exact ⟨(), fun _ => trivial, fun _ _ _ _ _ => trivial⟩
  | call depth r values => exact callPlan_meets hP hs r htakes
  | globals depth gs => exact globals_meets hP hs gs
  | program depth p => exact program_meets p

end Keeping

/-- The contract needs to know that what is run is in the program. -/
theorem keeping_kept {P : Value → Prop} {q : Program} (hP : Value.Kept q P) (rounds : Nat) :
    (keeping P).Kept rounds fun pt s => pt.Ready s ∧ s.Traced q ∧ pt.Traced q where
  closed hfact hasks := by
    obtain ⟨hready, hs, hpt⟩ := hfact
    obtain ⟨ht, _, hsub⟩ := ((tracing_kept q rounds).followed (i := ()) hready hs hpt).2.1 _ _ hasks
    exact ⟨hready.asks hasks, ht, hsub⟩
  meets hfact hs hpre := Keeping.plan_meets hP hs hfact.1.1 hfact.2.2 hpre

namespace Program

variable {P : Value → Prop} {q : Program} {l : Limits}

theorem initial_traced (q : Program) (depth : Nat) : (program depth q).Ready Store.initial ∧
    Store.initial.Traced q ∧ (program depth q).Traced q :=
  ⟨initial_ready depth q, .initial q, fun _ => contains_root⟩

/-- All values of a run have the property: what expressions and calls give, what functions are
called with, and what variables and lists hold at any time. -/
theorem all_of_reaches (hP : Value.Kept q P) {pt : Point} {s : Store}
    (h : Reaches l.rounds (program l.depth q) Store.initial pt s) :
    s.All P ∧ pt.TakesAll P ∧ ∀ r t, pt.run l.rounds s = (.ok r, t) → t.All P ∧ pt.GivesAll P r := by
  have hkept := keeping_kept hP l.rounds
  obtain ⟨hfact, hs, _, htakes⟩ := hkept.reaches (i := ()) (initial_traced q l.depth)
    (Store.initial_all P) trivial h
  refine ⟨hs, htakes, fun r t hrun => ?_⟩
  have hends := (hkept.followed (i := ()) hfact hs htakes).1
  rw [hrun] at hends
  exact hends

theorem all_of_visits (hP : Value.Kept q P) {t : Store}
    (h : Visits l.rounds (program l.depth q) Store.initial t) : t.All P :=
  (keeping_kept hP l.rounds).visits (i := ()) (initial_traced q l.depth) (Store.initial_all P)
    trivial h

end Program

end PlcLang
