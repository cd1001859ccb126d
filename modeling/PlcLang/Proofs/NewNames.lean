import PlcLang.Proofs.Resolution
import PlcLang.Proofs.ScopeContracts

namespace PlcLang

open Plan Point

variable {allowed : Ty → Prop} {rounds depth scope : Nat} {s t : Store} {Γ Δ : Env}

theorem Point.Known.asks {pt sub : Point} (h : pt.Known allowed s)
    (hasks : (pt.plan rounds).Asks (run rounds) s sub t) : sub.Known allowed t := by
  have hkept := resolution_kept allowed rounds
  obtain ⟨hsound, _, hchecked⟩ :=
    (hkept.followed (i := ()) h.ready h.sound h.checked).2.1 sub t hasks
  exact ⟨h.ready.asks hasks, hsound, hchecked⟩

def Routine.Distinct (r : Routine) : Prop := ∀ parameters statements home,
  r.body = .block parameters statements home →
    ((parameters.zip r.signature.parameters).map Prod.fst).Nodup

namespace Store

def Distinct (s : Store) : Prop :=
  ∀ i name arity r, s.routine? i name arity = some r → r.Distinct

theorem Distinct.of_keeps (h : s.Distinct) {bound : Nat} (hk : s.Keeps bound t) : t.Distinct :=
  fun i name arity r hr => h i name arity r (hk.routine?_eq_some hr)

theorem Distinct.withRoutines (h : s.Distinct) {rs : List Routine} (hrs : ∀ r ∈ rs, r.Distinct) :
    (s.withRoutines rs).Distinct := by
  induction rs generalizing s with
  | nil => exact h
  | cons r rs ih =>
      obtain ⟨hr, hrs⟩ := List.forall_mem_cons.mp hrs
      refine ih (fun i name arity r' hr' => ?_) hrs
      rw [routine?_defineRoutine] at hr'
      split at hr'
      · cases hr'
        exact hr
      · exact h i name arity r' hr'

theorem initial_distinct : initial.Distinct := by
  intro i name arity r hr
  obtain ⟨_, _, rfl⟩ := initial_onlyPrints i name arity r hr
  exact nofun

/-- The scope has no variables but those that its block has declared before. -/
def DeclaredIn (s : Store) (scope : Nat) (Γ : Env) : Prop :=
  ∀ name, name ∉ Γ.own → s.binding? scope name = none

theorem DeclaredIn.of_keeps (h : s.DeclaredIn scope Γ) (hk : s.Keeps s.size t)
    (hsize : scope < s.size) : t.DeclaredIn scope Γ := fun name hname =>
  (hk.binding scope hsize name).trans (h name hname)

theorem DeclaredIn.update {own : String → Option Binding} (h : s.DeclaredIn scope Γ) {name : String}
    {b b' : Binding} (hown : own = Function.update (s.binding? scope) name (some b)) :
    ∀ n, n ∉ (Γ.declare name b').own → own n = none := by
  intro n hn
  obtain ⟨hne, hn⟩ := not_or.mp hn
  rw [hown, Function.update_of_ne hne]
  exact h n hn

theorem DeclaredIn.define (h : s.DeclaredIn scope Γ) (hsize : scope < s.size) (name : String)
    (cell : Cell) (b : Binding) : (s.define scope name cell).DeclaredIn scope (Γ.declare name b) :=
  h.update (binding?_define_self hsize name cell)

theorem declaredIn_opened (s : Store) (parent : Nat) (Γ : Env) :
    (s.opened parent).DeclaredIn s.size Γ := by
  intro name _
  rw [binding?, cell?_opened, cell?_of_size_le (Nat.le_refl s.size)]
  rfl

theorem DeclaredIn.bindParameters (h : s.DeclaredIn scope Γ) (hsize : scope < s.size)
    (names : List String) (types : List Ty) (values : List Value)
    (hlen : values.length = types.length) :
    (s.bindParameters scope names types values).DeclaredIn scope
      (Γ.withParameters (names.zip types)) := by
  induction names generalizing types values s Γ with
  | nil => exact h
  | cons name names ih =>
      cases types with
      | nil => exact h
      | cons type types =>
          cases values with
          | nil => cases hlen
          | cons value values =>
              refine ih (h.define hsize name _ _) ?_ types values (Nat.succ.inj hlen)
              rw [size_define]
              exact hsize

theorem DeclaredIn.after_stmt (h : s.DeclaredIn scope Γ) {returns : Ty} {x : Stmt}
    (hown : t.binding? scope = x.declare (s.binding? scope))
    (hx : x.Typed (.filled allowed) returns Γ Δ) : t.DeclaredIn scope Δ := by
  cases hx with
  | declarationOfType _ hslot | declarationOfValue _ _ hslot | declarationOfBoth _ _ _ hslot =>
      obtain ⟨v, rfl, _⟩ := Slots.exists_of_symbol hslot
      exact h.update hown
  | _ => exact fun name hname => (congrFun hown name).trans (h name hname)

end Store

namespace Point

def NamesNew : Point → Store → Prop
  | stmt _ scope (.declaration _ name _ _ _), s => s.binding? scope name = none
  | globals _ (g :: _), s => s.binding? Store.root g.name = none
  | call _ r _, _ => r.Distinct
  | _, _ => True

/-- What is run at the point follows the rules where the variables of its scope are declared. -/
def Declared (allowed : Ty → Prop) : Point → Store → Prop
  | stmt _ scope x, s =>
    ∃ Γ Δ returns, s.DeclaredIn scope Γ ∧ x.Typed (.filled allowed) returns Γ Δ
  | stmts _ scope xs, s =>
    ∃ Γ returns, s.DeclaredIn scope Γ ∧ Stmt.BlockTyped (.filled allowed) returns Γ xs
  | call _ r _, _ => r.Distinct
  | globals _ gs, s =>
    ∃ Γ Δ, s.DeclaredIn Store.root Γ ∧ Global.ListTyped (.filled allowed) Γ gs Δ
  | _, _ => True

theorem Declared.namesNew {pt : Point} (h : pt.Declared allowed s) : pt.NamesNew s := by
  cases pt with
  | stmt depth scope x =>
      obtain ⟨Γ, Δ, returns, hdeclared, hx⟩ := h
      cases hx with
      | declarationOfType hname | declarationOfValue _ hname | declarationOfBoth _ _ hname =>
          exact hdeclared _ hname
      | _ => trivial
  | globals depth gs =>
      obtain ⟨Γ, Δ, hdeclared, hgs⟩ := h
      cases hgs with
      | nil => trivial
      | cons hg _ => exact hdeclared _ hg.2.2.1
  | call depth r values => exact h
  | _ => trivial

end Point

def naming (allowed : Ty → Prop) : Contract Unit where
  inv := Store.Distinct
  stops _ := True
  pre _ := Declared allowed
  post _ _ _ _ _ := True

namespace Naming

theorem ofScopes (allowed : Ty → Prop) : (naming allowed).OfScopes where
  inv hs heq := hs.of_keeps (.of_scopes 0 heq)
  stops _ := trivial
  expr _ _ _ _ := trivial
  exprs _ _ _ _ := trivial
  select _ _ _ _ _ := trivial

theorem block_executed {xs : List Stmt} {returns : Ty} {Φ : Option Value → Store → Prop}
    (hs : s.Distinct) (hxs : Stmt.BlockTyped (.filled allowed) returns Γ.enter xs)
    (hΦ : ∀ r t, t.Distinct → Φ r t) :
    (blockPlan depth scope xs).Meets (run rounds)
      ((naming allowed).given (Known allowed)) Φ s := by
  refine .bind ((meets_atomic _ s).mpr ⟨hs.of_keeps (.opened s s.size scope), ?_⟩)
  refine ⟨(), fun _ => ⟨Γ.enter, returns, ?_, hxs⟩, fun r t _ ht _ => hΦ r t ht⟩
  exact Store.declaredIn_opened s scope Γ.enter

theorem stmtPlan_meets (hs : s.Distinct) {x : Stmt} {returns : Ty}
    (hx : x.Typed (.filled allowed) returns Γ Δ) :
    (stmtPlan rounds depth scope x).Meets (run rounds)
      ((naming allowed).given (Known allowed)) (fun _ _ => True) s := by
  have h := ofScopes allowed
  have hdefine {t : Store} (ht : t.Distinct) (scope : Nat) (name : String) (cell : Cell) :
      (do
        atomic (Run.define scope name cell)
        return none : Plan (Option Value)).Meets (run rounds)
        ((naming allowed).given (Known allowed)) (fun _ _ => True) t :=
    .bind ((meets_atomic _ t).mpr ⟨ht.of_keeps (.define_below t scope name cell), trivial⟩)
  cases hx with
  | expression hcall => exact .bind (h.evaluated fun _ _ _ _ _ => trivial)
  | declarationOfType _ hslot =>
      obtain ⟨v, rfl, _⟩ := Slots.exists_of_symbol hslot
      exact hdefine hs _ _ _
  | declarationOfValue _ _ hslot | declarationOfBoth _ _ _ hslot =>
      obtain ⟨v, rfl, _⟩ := Slots.exists_of_symbol hslot
      exact .bind (h.evaluated fun v t ht _ _ => hdefine ht _ _ _)
  | @assignment _ offset info name slot value T S =>
      refine .bind (h.read (Run.lookup_gives scope name _) hs fun found _ => ?_)
      refine .bind (h.read (Run.requireMutable_gives found.2 name offset) hs fun _ _ => ?_)
      exact .bind (h.evaluated fun v t ht _ _ => hdefine ht _ _ _)
  | elementAssignment => exact h.elementAssigned hs _ _ _ _ _ _
  | ifElse _ _ hthen helse =>
      refine h.decided fun b t ht => ?_
      cases b with
      | false => exact block_executed ht helse fun _ _ _ => trivial
      | true => exact block_executed ht hthen fun _ _ _ => trivial
  | switch _ _ hbodies _ _ =>
      refine .bind (h.evaluated fun v t _ _ _ => .bind ⟨(), fun _ => trivial, ?_⟩)
      intro body u hrun hu hpost
      obtain ⟨_, _, hbody⟩ := hpost.1.ready.framed hrun
      have htyped : Stmt.BlockTyped (.filled allowed) returns Γ.enter body := by
        obtain rfl | ⟨c, hc, rfl⟩ := hbody
        · exact .nil
        · exact hbodies c hc
      exact block_executed hu htyped fun _ _ _ => trivial
  | whileDo _ _ => exact ⟨(), fun _ => trivial, fun _ _ _ _ _ => trivial⟩
  | bareReturn _ => trivial
  | valueReturn _ _ => exact .bind (h.evaluated fun _ _ _ _ _ => trivial)

theorem callPlan_meets (hs : s.Distinct) (hordered : s.Ordered) {r : Routine} {values : List Value}
    (hr : s.Fits allowed r) (hlen : values.length = r.signature.arity) :
    (callPlan depth r values).Meets (run rounds) ((naming allowed).given (Known allowed))
      (fun _ _ => True) s := by
  obtain rfl | ⟨parameters, statements, Γ, hbody, _, htyped, _⟩ := hr
  · exact (ofScopes allowed).printed hs _ values
  · rw [callPlan, hbody]
    have hopened := hs.of_keeps (.opened s s.size Store.root)
    refine .bind ((meets_atomic _ s).mpr ⟨hopened, .bind ((meets_atomic _ _).mpr ?_)⟩)
    rw [Run.bindParameters_eq]
    have hdeclared := (Store.declaredIn_opened s Store.root Γ.enter).bindParameters
      (Store.size_lt_opened s Store.root) parameters r.signature.parameters values hlen
    obtain ⟨_, hk⟩ := Framing.keeps_bindParameters s.size parameters r.signature.parameters values
      (hordered.opened hordered.root_lt)
    refine ⟨hopened.of_keeps hk, .bind ?_⟩
    exact ⟨(), fun _ => ⟨_, r.signature.returns, hdeclared, htyped⟩, fun _ _ _ _ _ => trivial⟩

theorem globals_meets (hs : s.Distinct) (hordered : s.Ordered) {gs : List Global}
    (hdeclared : s.DeclaredIn Store.root Γ) (hgs : Global.ListTyped (.filled allowed) Γ gs Δ) :
    ((globals depth gs).plan rounds).Meets (run rounds) ((naming allowed).given (Known allowed))
      (fun _ _ => True) s := by
  cases hgs with
  | nil => trivial
  | @cons _ _ g rest T hg hrest =>
      obtain ⟨offset, name, typeName, mutable, value, slot⟩ := g
      obtain ⟨_, _, _, hslot⟩ := hg
      obtain ⟨v, rfl, _⟩ := Slots.exists_of_symbol hslot
      have hnext {t : Store} (ht : t.Distinct) (hk : s.Keeps s.size t) (cell : Cell) :
          (do
            atomic (Run.define Store.root name cell)
            initAll depth rest : Plan Unit).Meets (run rounds)
            ((naming allowed).given (Known allowed)) (fun _ _ => True) t := by
        have hroot := hordered.root_lt
        have hdeclared' := (hdeclared.of_keeps hk hroot).define
          (Nat.lt_of_lt_of_le hroot hk.size_le) name cell ⟨T, mutable⟩
        have hdefine := Store.Keeps.define_below t Store.root name cell
        refine .bind ((meets_atomic _ t).mpr ⟨ht.of_keeps hdefine, ?_⟩)
        exact ⟨(), fun _ => ⟨_, Δ, hdeclared', hrest⟩, fun _ _ _ _ _ => trivial⟩
      cases value with
      | none => exact hnext hs (.refl s.size s) _
      | some e =>
          exact .bind ((ofScopes allowed).evaluated fun v t ht hknown hrun =>
            hnext ht (hknown.ready.framed hrun).2 _)

theorem program_meets {p : Program} (hp : p.Typed (.filled allowed)) :
    ((program depth p).plan rounds).Meets (run rounds) ((naming allowed).given (Known allowed))
      (fun _ _ => True) Store.initial := by
  obtain ⟨Γ, signatures, hglobals, _, _, _, hbodies⟩ := hp
  have hdeclared : Store.initial.DeclaredIn Store.root .initial := fun name _ => by
    rw [Store.binding?, Store.initial_cell?]
    rfl
  refine .bind ⟨(), fun _ => ⟨.initial, Γ, hdeclared, hglobals⟩, fun _ t hrun ht hpost => ?_⟩
  obtain ⟨hordered, _⟩ := hpost.1.ready.framed hrun
  refine .bind ((meets_atomic _ t).mpr ?_)
  rw [Program.addFunctions_eq (hbodies.imp fun f signature h => h.2.2.1) t]
  have hadded := ht.withRoutines (Function.forall_routines (P := Routine.Distinct) hbodies
    fun f signature h parameters statements home hbody => by cases hbody; exact h.1)
  have hroot := Function.forall_routines (P := Routine.AtRoot) hbodies
    fun f signature _ parameters statements home h => (Body.block.inj h).2.2.symm
  refine ⟨hadded, .bind ((ofScopes allowed).read Run.lookupMain_gives hadded fun r hr => ?_)⟩
  obtain ⟨i, hi⟩ := Store.routine?_of_findFunction? (hordered.withRoutines hroot) hr
  exact ⟨(), fun _ => hadded i _ _ r hi, fun _ _ _ _ _ => trivial⟩

theorem plan_meets {pt : Point} (hs : s.Distinct) (hknown : pt.Known allowed s)
    (hpt : pt.Declared allowed s) :
    (pt.plan rounds).Meets (run rounds) ((naming allowed).given (Known allowed))
      (fun _ _ => True) s := by
  have hordered := hknown.ready.1
  have hchecked := hknown.checked
  have h := ofScopes allowed
  cases pt with
  | expr depth scope e =>
      cases depth with
      | zero => trivial
      | succ depth =>
          refine h.exprPlan_meets hs (fun name arity r values t hr => ?_) e
          obtain ⟨i, hi⟩ := Store.routine?_of_findFunction? hordered hr
          exact hs i name arity r hi
  | exprs depth scope es => exact h.exprs_meets es
  | stmt depth scope x =>
      obtain ⟨Γ, Δ, returns, _, hx⟩ := hpt
      cases depth with
      | zero => trivial
      | succ depth => exact stmtPlan_meets hs hx
  | stmts depth scope xs =>
      obtain ⟨Γ, returns, hdeclared, hxs⟩ := hpt
      cases hxs with
      | nil => trivial
      | @cons _ Δ x xs hx hxs =>
          refine .bind ⟨(), fun _ => ⟨Γ, Δ, returns, hdeclared, hx⟩, fun r t hrun _ hpost => ?_⟩
          -- What the statement has declared is what the rules let it declare.
          obtain ⟨_, _, hown⟩ := hpost.1.ready.framed hrun
          cases r with
          | some v => trivial
          | none =>
              have hdeclared' := hdeclared.after_stmt hown hx
              exact ⟨(), fun _ => ⟨Δ, returns, hdeclared', hxs⟩, fun _ _ _ _ _ => trivial⟩
  | loop n depth scope condition body =>
      obtain ⟨Γ, returns, _, _, hbody⟩ := hchecked
      cases n with
      | zero => trivial
      | succ n =>
          refine h.decided fun b t ht => ?_
          cases b with
          | false => trivial
          | true =>
              refine .bind (block_executed ht hbody fun r u _ => ?_)
              cases r with
              | some v => trivial
              | none => exact ⟨(), fun _ => trivial, fun _ _ _ _ _ => trivial⟩
  | select depth scope v cases => exact h.select_meets v cases
  | call depth r values => exact callPlan_meets hs hordered hchecked.1 hchecked.2
  | globals depth gs =>
      obtain ⟨Γ, Δ, hdeclared, hgs⟩ := hpt
      exact globals_meets hs hordered hdeclared hgs
  | program depth p =>
      obtain ⟨rfl, hp⟩ := hchecked
      exact program_meets hp

end Naming

theorem naming_kept (allowed : Ty → Prop) (rounds : Nat) :
    (naming allowed).Kept rounds (Known allowed) where
  closed := Known.asks
  meets hknown hs hpt := Naming.plan_meets hs hknown hpt

/-- In a run of a checked program no scope is given a variable of a name that it has. -/
theorem Program.namesNew_of_reaches {q : Program} (hq : q.Typed (.filled allowed)) {l : Limits}
    {pt : Point} (h : Reaches l.rounds (program l.depth q) Store.initial pt s) : pt.NamesNew s := by
  have hknown := known_of_reaches (l := l) hq .refl
  obtain ⟨_, _, _, hpt⟩ := (naming_kept allowed l.rounds).reaches (i := ()) hknown
    Store.initial_distinct trivial h
  exact hpt.namesNew

end PlcLang
