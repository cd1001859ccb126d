import PlcLang.Proofs.RunSteps
import PlcLang.Proofs.Resolution
import PlcLang.Proofs.ScopeContracts

namespace PlcLang

open Plan Point

variable {closed : Prop} {rounds depth scope : Nat} {s t u : Store}

namespace Store

/-- The scopes of the earlier store are there later with their parents and functions, and those to
be kept with their variables, whose values may differ. -/
structure Extends (kept : Nat → Prop) (s t : Store) : Prop where
  size_le : s.size ≤ t.size
  parent : ∀ i < s.size, t.parent? i = s.parent? i
  routine : ∀ i < s.size, t.routine? i = s.routine? i
  binding : ∀ i < s.size, kept i → t.binding? i = s.binding? i

namespace Extends

variable {kept kept' : Nat → Prop}

theorem refl (kept : Nat → Prop) (s : Store) : s.Extends kept s :=
  ⟨Nat.le_refl _, fun _ _ => rfl, fun _ _ => rfl, fun _ _ _ => rfl⟩

theorem mono (h : s.Extends kept t) (hkept : ∀ i, kept' i → kept i) : s.Extends kept' t :=
  { h with binding := fun i hi hk => h.binding i hi (hkept i hk) }

theorem of_scopes (h : s.Extends kept t) (heq : u.scopes = t.scopes) : s.Extends kept u := by
  obtain ⟨scopes, heap, output⟩ := u
  cases heq
  exact ⟨h.size_le, h.parent, h.routine, h.binding⟩

theorem opened (h : s.Extends kept t) (parent : Nat) : s.Extends kept (t.opened parent) where
  size_le := Nat.le_trans h.size_le (Nat.le_of_lt (size_lt_opened t parent))
  parent i hi :=
    (parent?_opened t parent (Nat.lt_of_lt_of_le hi h.size_le)).trans (h.parent i hi)
  routine i hi := (funext₂ (routine?_opened t parent i)).trans (h.routine i hi)
  binding i hi hk := by
    rw [← h.binding i hi hk]
    funext name
    rw [binding?, cell?_opened]
    rfl

theorem define (h : s.Extends kept t) (scope : Nat) (name : String) (cell : Cell)
    (hb : ∀ i < s.size, kept i → (t.define scope name cell).binding? i = t.binding? i) :
    s.Extends kept (t.define scope name cell) where
  size_le := by
    rw [size_define]
    exact h.size_le
  parent i hi := (parent?_define t scope name cell i).trans (h.parent i hi)
  routine i hi := (funext₂ (routine?_define t scope name cell i)).trans (h.routine i hi)
  binding i hi hk := (hb i hi hk).trans (h.binding i hi hk)

theorem define_other (h : s.Extends kept t) (hscope : scope < s.size → ¬ kept scope) (name : String)
    (cell : Cell) : s.Extends kept (t.define scope name cell) := by
  refine h.define scope name cell fun i hi hk => ?_
  have hne : scope ≠ i := by
    rintro rfl
    exact hscope hi hk
  exact funext (binding?_define_of_ne hne name cell)

end Extends

/-- The later store has the scopes of the earlier one with their variables. If it is closed, these
keep also their values but for those of the outermost scope, and the new scopes are within each other
and the outermost one. -/
structure Encloses (closed : Prop) (s t : Store) : Prop where
  scopes : s.Extends (fun _ => True) t
  cells : closed → ∀ i < s.size, i ≠ root → t.cell? i = s.cell? i
  parents : closed → ∀ i, s.size ≤ i → ∀ p, t.parent? i = some p → p = root ∨ s.size ≤ p

namespace Encloses

theorem refl (closed : Prop) (s : Store) : s.Encloses closed s where
  scopes := .refl _ s
  cells _ _ _ _ := rfl
  parents _ i hi p hp := by
    rw [parent?, Array.getElem?_eq_none hi] at hp
    cases hp

theorem of_scopes (h : s.Encloses closed t) (heq : u.scopes = t.scopes) : s.Encloses closed u := by
  obtain ⟨scopes, heap, output⟩ := u
  cases heq
  exact ⟨h.scopes.of_scopes rfl, h.cells, h.parents⟩

theorem opened (h : s.Encloses closed t) {parent : Nat}
    (hparent : closed → parent = root ∨ s.size ≤ parent) : s.Encloses closed (t.opened parent) where
  scopes := h.scopes.opened parent
  cells hc i hi hne := (funext (cell?_opened t parent i)).trans (h.cells hc i hi hne)
  parents hc i hi p hp := by
    rw [parent?_opened_eq] at hp
    split at hp
    · cases hp
      exact hparent hc
    · exact h.parents hc i hi p hp

theorem define (h : s.Encloses closed t) {name : String} {cell : Cell}
    (hb : ∀ i < s.size, (t.define scope name cell).binding? i = t.binding? i)
    (hscope : closed → scope = root ∨ s.size ≤ scope) :
    s.Encloses closed (t.define scope name cell) where
  scopes := h.scopes.define scope name cell fun i hi _ => hb i hi
  cells hc i hi hne := by
    rw [← h.cells hc i hi hne]
    have hother : scope ≠ i := by
      rintro rfl
      exact (hscope hc).elim hne (Nat.not_le_of_lt hi)
    exact funext (cell?_define_of_ne t scope name cell hother)
  parents hc i hi p hp := h.parents hc i hi p (by rwa [parent?_define] at hp)

theorem define_new (h : s.Encloses closed t) (hscope : s.size ≤ scope) (name : String)
    (cell : Cell) : s.Encloses closed (t.define scope name cell) := by
  refine h.define (fun i hi => ?_) fun _ => .inr hscope
  exact funext (binding?_define_of_ne (Nat.ne_of_gt (Nat.lt_of_lt_of_le hi hscope)) name cell)

theorem bindParameters (h : s.Encloses closed t) (hscope : s.size ≤ scope) (names : List String)
    (types : List Ty) (values : List Value) :
    s.Encloses closed (t.bindParameters scope names types values) := by
  induction names generalizing types values t with
  | nil => exact h
  | cons name names ih =>
      cases types with
      | nil => exact h
      | cons type types =>
          cases values with
          | nil => exact h
          | cons value values => exact ih (h.define_new hscope name _) types values

theorem home (h : s.Encloses closed t) (hc : closed) (ht : t.Ordered) {name : String} {home : Nat}
    {cell : Cell} (hscope : scope = root ∨ s.size ≤ scope)
    (hfound : t.scopes.findVariable? scope name = some (home, cell)) :
    home = root ∨ s.size ≤ home := by
  -- Along the chain of parents, which leads inward or to the outermost scope, where it ends.
  induction scope using Nat.strong_induction_on with
  | _ scope ih =>
      rw [findVariable?_eq ht] at hfound
      cases hcell : t.cell? scope name with
      | some c =>
          rw [hcell] at hfound
          cases hfound
          exact hscope
      | none =>
          rw [hcell] at hfound
          obtain ⟨p, hp, hfound⟩ := Option.bind_eq_some_iff.mp hfound
          have hparent : p = root ∨ s.size ≤ p := by
            obtain rfl | hscope := hscope
            · rw [ht.parent?_root] at hp
              cases hp
            · exact h.parents hc scope hscope p hp
          exact ih p (ht.older scope p hp) hparent hfound

end Encloses

end Store

/-- The point declares variables in scopes from the bound on only. If it is closed, it is also not
run in an earlier scope, in which names lead to earlier variables. -/
def Point.Within (closed : Prop) (bound : Nat) : Point → Prop
  | stmts _ scope _ | stmt _ scope (.declaration ..) => bound ≤ scope
  | stmt _ scope _ | loop _ _ scope _ _ => closed → bound ≤ scope
  | globals .. | program .. => False
  | _ => True

theorem Point.within_stmt {bound : Nat} (h : bound ≤ scope) (depth : Nat) (x : Stmt) :
    (stmt depth scope x).Within closed bound := by
  cases x with
  | declaration => exact h
  | _ => exact fun _ => h

def enclosing (closed : Prop) (s : Store) : Contract Unit where
  inv := s.Encloses closed
  stops _ := True
  pre _ pt _ := pt.Within closed s.size
  post _ _ _ _ _ := True

namespace Enclosing

theorem ofScopes (closed : Prop) (s : Store) : (enclosing closed s).OfScopes where
  inv ht heq := ht.of_scopes heq
  stops _ := trivial
  expr _ _ _ _ := trivial
  exprs _ _ _ _ := trivial
  select _ _ _ _ _ := trivial

theorem block_executed {xs : List Stmt} {Φ : Option Value → Store → Prop}
    (ht : s.Encloses closed t) (hscope : closed → s.size ≤ scope)
    (hΦ : ∀ r u, s.Encloses closed u → Φ r u) :
    (blockPlan depth scope xs).Meets (run rounds) ((enclosing closed s).given Ready) Φ t := by
  have hopened := ht.opened fun hc => .inr (hscope hc)
  refine .bind ((meets_atomic _ t).mpr ⟨hopened, ?_⟩)
  exact ⟨(), fun _ => ht.scopes.size_le, fun r u _ hu _ => hΦ r u hu⟩

theorem stmtPlan_meets (ht : s.Encloses closed t) {x : Stmt}
    (hready : (stmt (depth + 1) scope x).Ready t)
    (hx : (stmt (depth + 1) scope x).Within closed s.size) :
    (stmtPlan rounds depth scope x).Meets (run rounds) ((enclosing closed s).given Ready)
      (fun _ _ => True) t := by
  have h := ofScopes closed s
  cases x with
  | expression offset value => exact .bind (h.evaluated fun _ _ _ _ _ => trivial)
  | declaration offset name typeName value slot =>
      have hdefine {u : Store} (hu : s.Encloses closed u) (cell : Cell) :
          (do
            atomic (Run.define scope name cell)
            return none : Plan (Option Value)).Meets (run rounds)
            ((enclosing closed s).given Ready) (fun _ _ => True) u :=
        .bind ((meets_atomic _ u).mpr ⟨hu.define_new hx name cell, trivial⟩)
      cases slot with
      | none => trivial
      | some slot =>
          cases value with
          | none => exact hdefine ht _
          | some value => exact .bind (h.evaluated fun v u hu _ _ => hdefine hu _)
  | assignment offset receiver value =>
      cases receiver with
      | access info name slot =>
          refine .bind (h.read (Run.lookup_gives scope name _) ht fun found hfound => ?_)
          refine .bind (h.read (Run.requireMutable_gives found.2 name offset) ht fun _ _ => ?_)
          refine .bind (h.evaluated fun v u hu hexpr hrun => ?_)
          have hsame := Store.Keeps.reassign hready.1 hfound (hexpr.framed hrun).2 v
          refine .bind ((meets_atomic _ u).mpr ⟨hu.define (fun i hi => ?_) fun hc => ?_, trivial⟩)
          · exact funext (hsame.binding i (Nat.lt_of_lt_of_le hi hu.scopes.size_le))
          · exact ht.home hc hready.1 (.inr (hx hc)) hfound
      | element info name index slot => exact h.elementAssigned ht offset info name index slot value
      | _ => trivial
  | ifElse offset condition thenBody elseBody =>
      refine h.decided fun b u hu => ?_
      cases b with
      | false => exact block_executed hu hx fun _ _ _ => trivial
      | true => exact block_executed hu hx fun _ _ _ => trivial
  | switch offset condition cases =>
      refine .bind (h.evaluated fun v u _ _ _ => .bind ⟨(), fun _ => trivial, ?_⟩)
      exact fun body z _ hz _ => block_executed hz hx fun _ _ _ => trivial
  | whileDo offset condition body => exact ⟨(), fun _ => hx, fun _ _ _ _ _ => trivial⟩
  | ret offset value =>
      cases value with
      | none => trivial
      | some value => exact .bind (h.evaluated fun _ _ _ _ _ => trivial)
  | unknown start node => trivial

theorem callPlan_meets (ht : s.Encloses closed t) {r : Routine} (hr : r.AtRoot)
    (values : List Value) :
    (callPlan depth r values).Meets (run rounds) ((enclosing closed s).given Ready)
      (fun _ _ => True) t := by
  obtain ⟨signature, body⟩ := r
  cases body with
  | print => exact (ofScopes closed s).printed ht signature values
  | block parameters statements home =>
      have hopened := ht.opened fun _ => .inl (hr parameters statements home rfl)
      have hle := ht.scopes.size_le
      refine .bind ((meets_atomic _ t).mpr ⟨hopened, .bind ((meets_atomic _ _).mpr ?_)⟩)
      rw [Run.bindParameters_eq]
      refine ⟨hopened.bindParameters hle parameters signature.parameters values, .bind ?_⟩
      exact ⟨(), fun _ => hle, fun _ _ _ _ _ => trivial⟩

theorem plan_meets {pt : Point} (ht : s.Encloses closed t) (hready : pt.Ready t)
    (hpt : pt.Within closed s.size) :
    (pt.plan rounds).Meets (run rounds) ((enclosing closed s).given Ready) (fun _ _ => True) t := by
  have h := ofScopes closed s
  cases pt with
  | expr depth scope e =>
      cases depth with
      | zero => trivial
      | succ depth => exact h.exprPlan_meets ht (fun _ _ _ _ _ _ => trivial) e
  | exprs depth scope es => exact h.exprs_meets es
  | stmt depth scope x =>
      cases depth with
      | zero => trivial
      | succ depth => exact stmtPlan_meets ht hready hpt
  | stmts depth scope xs =>
      cases xs with
      | nil => trivial
      | cons x xs =>
          refine .bind ⟨(), fun _ => within_stmt hpt depth x, fun r u _ _ _ => ?_⟩
          cases r with
          | some v => trivial
          | none => exact ⟨(), fun _ => hpt, fun _ _ _ _ _ => trivial⟩
  | loop n depth scope condition body =>
      cases n with
      | zero => trivial
      | succ n =>
          refine h.decided fun b u hu => ?_
          cases b with
          | false => trivial
          | true =>
              refine .bind (block_executed hu hpt fun r z _ => ?_)
              cases r with
              | some v => trivial
              | none => exact ⟨(), fun _ => hpt, fun _ _ _ _ _ => trivial⟩
  | select depth scope v cases => exact h.select_meets v cases
  | call depth r values => exact callPlan_meets ht hready.2 values
  | globals depth gs => exact hpt.elim
  | program depth p => exact hpt.elim

end Enclosing

theorem enclosing_kept (closed : Prop) (s : Store) (rounds : Nat) :
    (enclosing closed s).Kept rounds Ready where
  closed := Ready.asks
  meets hready ht hpt := Enclosing.plan_meets ht hready hpt

namespace Point

theorem Ready.encloses {pt : Point} (h : pt.Ready s) (hpt : pt.Within closed s.size)
    (hvisits : Visits rounds pt s t) : s.Encloses closed t :=
  (enclosing_kept closed s rounds).visits (i := ()) h (.refl closed s) hpt hvisits

theorem Ready.expr_frame {e : Expr} (h : (expr depth scope e).Ready s)
    (hvisits : Visits rounds (expr depth scope e) s t) : s.Extends (fun _ => True) t ∧
      ∀ i < s.size, i ≠ Store.root → t.cell? i = s.cell? i :=
  have hencloses : s.Encloses True t := h.encloses trivial hvisits
  ⟨hencloses.scopes, hencloses.cells trivial⟩

theorem Ready.declaration_frame {offset : Nat} {name : String} {typeName : Option String}
    {value : Option Expr} {slot : Option Variable}
    (h : (stmt depth scope (.declaration offset name typeName value slot)).Ready s)
    (hvisits : Visits rounds (stmt depth scope (.declaration offset name typeName value slot)) s t) :
    s.Extends (fun _ => True) t ∨ ∃ u v cell, s.Extends (fun _ => True) u ∧ slot = some v ∧
      cell.binding = ⟨v.type, true⟩ ∧ t = u.define scope name cell := by
  have hsame : s.Extends (fun _ => True) s := .refl _ s
  cases depth with
  | zero => exact .inl (hvisits.of_stop rfl ▸ hsame)
  | succ depth =>
      cases slot with
      | none => exact .inl (hvisits.of_stop rfl ▸ hsame)
      | some v =>
          cases value with
          | none =>
              obtain (rfl | rfl) | ⟨_, _, hasks, _⟩ := hvisits.cases
              · exact .inl hsame
              · exact .inr ⟨s, v, ⟨v.type, true, .nil⟩, hsame, rfl, rfl, rfl⟩
              · exact hasks.elim
          | some e =>
              have hready : (expr depth scope e).Ready s := ⟨h.1, h.2.2⟩
              have hend := (hready.expr_frame (visits_end rounds _ s)).1
              obtain (rfl | rfl | ⟨r, u, hrun, hpasses⟩) | ⟨sub, u, hasks, hsub⟩ := hvisits.cases
              · exact .inl hsame
              · exact .inl hend
              · rw [hrun] at hend
                obtain rfl | rfl := hpasses
                · exact .inl hend
                · exact .inr ⟨u, v, ⟨v.type, true, r⟩, hend, rfl, rfl, rfl⟩
              · obtain ⟨rfl, rfl⟩ | ⟨_, _, _, hasks⟩ := hasks
                · exact .inl (hready.expr_frame hsub).1
                · exact hasks.elim

/-- A statement gives variables to its own scope only, and only as it declares them. -/
theorem Ready.stmt_frame {x : Stmt} (h : (stmt depth scope x).Ready s)
    (hvisits : Visits rounds (stmt depth scope x) s t) : s.Extends (· ≠ scope) t ∧
      (t.binding? scope = s.binding? scope ∨
        t.binding? scope = x.declare (s.binding? scope)) := by
  have hsame {u : Store} (hu : s.Extends (fun _ => True) u) : s.Extends (· ≠ scope) u ∧
      (u.binding? scope = s.binding? scope ∨
        u.binding? scope = x.declare (s.binding? scope)) :=
    ⟨hu.mono fun _ _ => trivial, .inl (hu.binding scope h.2.2 trivial)⟩
  cases x with
  | declaration offset name typeName value slot =>
      obtain hu | ⟨u, v, cell, hu, rfl, hcell, rfl⟩ := h.declaration_frame hvisits
      · exact hsame hu
      · have hother : s.Extends (· ≠ scope) u := hu.mono fun _ _ => trivial
        refine ⟨hother.define_other (fun _ hne => hne rfl) name cell, .inr ?_⟩
        have hscope := Nat.lt_of_lt_of_le h.2.2 hu.size_le
        rw [Store.binding?_define_self hscope, hu.binding scope h.2.2 trivial, hcell]
        rfl
  | _ =>
      -- The scope of the statement may be an early one, in which a variable is assigned to.
      have hencloses : s.Encloses False t := h.encloses False.elim hvisits
      exact hsame hencloses.scopes

end Point

end PlcLang
