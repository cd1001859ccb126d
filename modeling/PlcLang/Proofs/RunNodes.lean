import PlcLang.Proofs.Resolution
import PlcLang.Proofs.TreeNodes

namespace PlcLang

open Plan Point

/-- If the run stops at some place, then at the place of a node of the program. -/
def Stop.AtNode (q : Program) (why : Stop) : Prop :=
  ∀ f n, why = .fault f → f.offset = some n → ∃ node, q.Contains node ∧ node.offset = n

theorem Stop.Local.atNode {q : Program} {node : Node} (hnode : q.Contains node) {why : Stop}
    (h : why.Local node.offset) : why.AtNode q := by
  cases h with
  | fault cause =>
      rintro f n ⟨⟩ ⟨⟩
      exact ⟨node, hnode, rfl⟩
  | tooDeep => exact nofun

def Routine.Traced (q : Program) (r : Routine) : Prop :=
  ∀ parameters statements home, r.body = .block parameters statements home →
    ∀ x ∈ statements, q.Contains (.stmt x)

def Store.Traced (q : Program) (s : Store) : Prop :=
  ∀ i name arity r, s.routine? i name arity = some r → r.Traced q

namespace Point

/-- What is run at the point is in the program. -/
def Traced (q : Program) : Point → Prop
  | expr _ _ e => q.Contains (.expr e)
  | exprs _ _ es => ∀ e ∈ es, q.Contains (.expr e)
  | stmt _ _ x => q.Contains (.stmt x)
  | stmts _ _ xs => ∀ x ∈ xs, q.Contains (.stmt x)
  | loop _ _ _ condition body =>
    q.Contains (.expr condition) ∧ ∀ x ∈ body, q.Contains (.stmt x)
  | select _ _ _ cases => ∀ c ∈ cases, q.Contains (.branch c)
  | call _ r _ => r.Traced q
  | globals _ gs => ∀ g ∈ gs, q.Contains (.global g)
  | program _ p => ∀ n ∈ p.nodes, q.Contains n

def GivesTraced (q : Program) : (pt : Point) → pt.Result → Prop
  | select .., body => ∀ x ∈ body, q.Contains (.stmt x)
  | _, _ => True

end Point

def tracing (q : Program) : Contract Unit where
  inv := Store.Traced q
  stops := Stop.AtNode q
  pre _ pt _ := pt.Traced q
  post _ pt _ r _ := pt.GivesTraced q r

namespace Store.Traced

variable {q : Program} {s t : Store}

theorem of_routines (h : s.Traced q)
    (heq : ∀ i name arity, t.routine? i name arity = s.routine? i name arity) : t.Traced q :=
  fun i name arity r hr => h i name arity r ((heq i name arity).symm.trans hr)

theorem found (h : s.Traced q) (hs : s.Ordered) {scope : Nat} {name : String} {arity : Nat}
    {r : Routine} (hr : s.scopes.findFunction? scope name arity = some r) : r.Traced q := by
  obtain ⟨i, hi⟩ := Store.routine?_of_findFunction? hs hr
  exact h i name arity r hi

theorem initial (q : Program) : Store.initial.Traced q := by
  intro i name arity r hr
  rw [Store.initial_routine?] at hr
  split at hr
  · cases hr
    exact nofun
  · cases hr

theorem bindParameters (h : s.Traced q) (scope : Nat) (names : List String) (types : List Ty)
    (values : List Value) : (s.bindParameters scope names types values).Traced q := by
  induction names generalizing s types values with
  | nil => exact h
  | cons name names ih =>
      cases types with
      | nil => exact h
      | cons type types =>
          cases values with
          | nil => exact h
          | cons value values =>
              exact ih (h.of_routines (Store.routine?_define s scope name ⟨type, true, value⟩)) _ _

theorem defineRoutine (h : s.Traced q) (scope : Nat) {r : Routine} (hr : r.Traced q) :
    (s.defineRoutine scope r).Traced q := by
  intro i name arity r' hr'
  rw [Store.routine?_defineRoutine] at hr'
  split at hr'
  · cases hr'
    exact hr
  · exact h i name arity r' hr'

end Store.Traced

namespace Tracing

variable {q : Program} {rounds depth scope offset : Nat} {s : Store} {α : Type}
  {Φ : α → Store → Prop}

theorem read {node : Node} (hnode : q.Contains node) {m : Run α} {P : α → Prop} {Q : Stop → Prop}
    (h : m.Gives s P Q) (hm : m.StopsAt node.offset) (hs : s.Traced q) (hΦ : ∀ a, P a → Φ a s) :
    (atomic m).Meets (run rounds) ((tracing q).given Ready) Φ s :=
  (meets_atomic m s).mpr ((h.local hm).ends hs hΦ fun _ hwhy => hwhy.atNode hnode)

theorem evaluated {e : Expr} {Φ : Value → Store → Prop} (he : q.Contains (.expr e))
    (hΦ : ∀ v t, t.Traced q → Φ v t) :
    (eval depth scope e).Meets (run rounds) ((tracing q).given Ready) Φ s :=
  ⟨(), fun _ => he, fun v t _ ht _ => hΦ v t ht⟩

theorem allEvaluated {es : List Expr} {Φ : List Value → Store → Prop}
    (hes : ∀ e ∈ es, q.Contains (.expr e)) (hΦ : ∀ vs t, t.Traced q → Φ vs t) :
    (evalAll depth scope es).Meets (run rounds) ((tracing q).given Ready) Φ s :=
  ⟨(), fun _ => hes, fun vs t _ ht _ => hΦ vs t ht⟩

theorem decided {e : Expr} {f : Bool → Plan α} (he : q.Contains (.expr e))
    (hf : ∀ b t, t.Traced q → (f b).Meets (run rounds) ((tracing q).given Ready) Φ t) :
    (do
      let v ← eval depth scope e
      let b ← atomic (Run.truth e.offset v)
      f b).Meets (run rounds) ((tracing q).given Ready) Φ s :=
  .bind (evaluated he fun v t ht =>
    .bind (read he (Run.truth_gives _ v) Run.truth_stopsAt ht fun b _ => hf b t ht))

theorem executed {xs : List Stmt} {Φ : Option Value → Store → Prop} (hs : s.Traced q)
    (hxs : ∀ x ∈ xs, q.Contains (.stmt x)) (hΦ : ∀ r t, t.Traced q → Φ r t) :
    (blockPlan depth scope xs).Meets (run rounds) ((tracing q).given Ready) Φ s := by
  refine .bind ((meets_atomic _ s).mpr ⟨hs.of_routines (Store.routine?_opened s scope), ?_⟩)
  exact ⟨(), fun _ => hxs, fun r t _ ht _ => hΦ r t ht⟩

theorem exprPlan_meets (hs : s.Traced q) (hordered : s.Ordered) {e : Expr}
    (he : q.Contains (.expr e)) :
    (exprPlan depth scope e).Meets (run rounds) ((tracing q).given Ready) (fun _ _ => True) s := by
  have hchild {a : Expr} (ha : a ∈ e.children) : q.Contains (.expr a) :=
    he.child (List.mem_map_of_mem ha)
  cases e with
  | literal info value => trivial
  | group info inner => exact evaluated (hchild List.mem_cons_self) fun _ _ _ => trivial
  | binary info op left right =>
      have hleft := hchild List.mem_cons_self
      have hright := hchild (List.mem_cons_of_mem _ List.mem_cons_self)
      cases op with
      | and =>
          refine decided hleft fun b t _ => ?_
          cases b with
          | false => trivial
          | true => exact decided hright fun _ _ _ => trivial
      | or =>
          refine decided hleft fun b t _ => ?_
          cases b with
          | false => exact decided hright fun _ _ _ => trivial
          | true => trivial
      | _ =>
          exact .bind (evaluated hleft fun v t _ => .bind (evaluated hright fun w u hu =>
            read he (Run.operate_gives depth info.offset _ v w) Run.operate_stopsAt hu
              fun _ _ => trivial))
  | access info name slot =>
      exact .bind (read he (Run.lookup_gives scope name _) Run.lookup_stopsAt hs fun _ _ => trivial)
  | element info name index slot =>
      have hindex := hchild List.mem_cons_self
      refine .bind (read he (Run.lookup_gives scope name _) Run.lookup_stopsAt hs fun found _ => ?_)
      refine .bind (read he (Run.addressOf_gives name _ found.2.value) Run.addressOf_stopsAt hs
        fun address _ => ?_)
      refine .bind (read he (Run.lengthOf_gives address) (Run.lengthOf_stopsAt _) hs
        fun length _ => ?_)
      refine .bind (evaluated hindex fun v t ht => ?_)
      refine .bind (read hindex (Run.position_gives _ _ v) Run.position_stopsAt ht
        fun i _ => ?_)
      exact .bind (read he (Run.elements_gives address) (Run.elements_stopsAt _) ht
        fun _ _ => trivial)
  | call info name arguments slot =>
      refine .bind (read he (Run.lookupRoutine_gives scope name _ _) Run.lookupRoutine_stopsAt hs
        fun r hr => ?_)
      refine .bind (allEvaluated (fun a ha => hchild ha) fun vs t _ => ?_)
      exact ⟨(), fun _ => hs.found hordered hr, fun _ _ _ _ _ => trivial⟩
  | list info elements =>
      exact .bind (allEvaluated (fun a ha => hchild ha) fun vs t ht =>
        (meets_atomic _ t).mpr ⟨ht, trivial⟩)
  | unknown start node =>
      rintro f n ⟨⟩ ⟨⟩
      exact ⟨_, he, rfl⟩

theorem stmtPlan_meets (hs : s.Traced q) {x : Stmt} (hx : q.Contains (.stmt x)) :
    (stmtPlan rounds depth scope x).Meets (run rounds) ((tracing q).given Ready)
      (fun _ _ => True) s := by
  have hdefine {t : Store} (ht : t.Traced q) (home : Nat) (name : String) (cell : Cell)
      {f : Unit → Plan (Option Value)}
      (hf : (f ()).Meets (run rounds) ((tracing q).given Ready) (fun _ _ => True)
        (t.define home name cell)) :
      (atomic (Run.define home name cell) >>= f).Meets (run rounds) ((tracing q).given Ready)
        (fun _ _ => True) t :=
    .bind ((meets_atomic _ t).mpr ⟨ht.of_routines (Store.routine?_define t home name cell), hf⟩)
  cases x with
  | expression offset value =>
      exact .bind (evaluated (hx.child List.mem_cons_self) fun _ _ _ => trivial)
  | declaration offset name typeName value slot =>
      cases slot with
      | none => exact nofun
      | some slot =>
          cases value with
          | none => exact hdefine hs _ _ _ trivial
          | some value =>
              refine .bind (evaluated (hx.child List.mem_cons_self) fun v t ht => ?_)
              exact hdefine ht _ _ _ trivial
  | assignment offset receiver value =>
      have hreceiver : q.Contains (.expr receiver) := hx.child List.mem_cons_self
      have hvalue : q.Contains (.expr value) :=
        hx.child (List.mem_cons_of_mem _ List.mem_cons_self)
      cases receiver with
      | access info name slot =>
          refine .bind (read hreceiver (Run.lookup_gives scope name _) Run.lookup_stopsAt hs
            fun found _ => ?_)
          refine .bind (read hx (Run.requireMutable_gives found.2 name _) Run.requireMutable_stopsAt
            hs fun _ _ => ?_)
          exact .bind (evaluated hvalue fun v t ht => hdefine ht _ _ _ trivial)
      | element info name index slot =>
          have hindex : q.Contains (.expr index) := hreceiver.child List.mem_cons_self
          refine .bind (read hreceiver (Run.lookup_gives scope name _) Run.lookup_stopsAt hs
            fun found _ => ?_)
          refine .bind (read hx (Run.requireMutable_gives found.2 name _) Run.requireMutable_stopsAt
            hs fun _ _ => ?_)
          refine .bind (read hreceiver (Run.addressOf_gives name _ found.2.value)
            Run.addressOf_stopsAt hs fun address _ => ?_)
          refine .bind (read hreceiver (Run.lengthOf_gives address) (Run.lengthOf_stopsAt _) hs
            fun length _ => ?_)
          refine .bind (evaluated hindex fun v t ht => ?_)
          refine .bind (read hindex (Run.position_gives _ _ v) Run.position_stopsAt ht
            fun i _ => ?_)
          exact .bind (evaluated hvalue fun w u hu => .bind ((meets_atomic _ u).mpr ⟨hu, trivial⟩))
      | _ => exact (Stop.Local.fault .notReceiver).atNode hx
  | ifElse offset condition thenBody elseBody =>
      refine decided (hx.child List.mem_cons_self) fun b t ht => ?_
      cases b with
      | false =>
          refine executed ht (fun x hmem => hx.child ?_) fun _ _ _ => trivial
          exact List.mem_cons_of_mem _ (List.mem_append_right _ (List.mem_map_of_mem hmem))
      | true =>
          refine executed ht (fun x hmem => hx.child ?_) fun _ _ _ => trivial
          exact List.mem_cons_of_mem _ (List.mem_append_left _ (List.mem_map_of_mem hmem))
  | switch offset condition cases =>
      refine .bind (evaluated (hx.child List.mem_cons_self) fun v t _ => ?_)
      have hcases : ∀ c ∈ cases, q.Contains (.branch c) := fun c hc =>
        hx.child (List.mem_cons_of_mem _ (List.mem_map_of_mem hc))
      refine .bind ⟨(), fun _ => hcases, fun body u _ hu hbody => ?_⟩
      exact executed hu hbody.2 fun _ _ _ => trivial
  | whileDo offset condition body =>
      refine ⟨(), fun _ => ⟨hx.child List.mem_cons_self, fun x hmem => hx.child ?_⟩,
        fun _ _ _ _ _ => trivial⟩
      exact List.mem_cons_of_mem _ (List.mem_map_of_mem hmem)
  | ret offset value =>
      cases value with
      | none => trivial
      | some value => exact .bind (evaluated (hx.child List.mem_cons_self) fun _ _ _ => trivial)
  | unknown start node =>
      rintro f n ⟨⟩ ⟨⟩
      exact ⟨_, hx, rfl⟩

theorem callPlan_meets (hs : s.Traced q) {r : Routine} (hr : r.Traced q) (values : List Value) :
    (callPlan depth r values).Meets (run rounds) ((tracing q).given Ready) (fun _ _ => True) s := by
  obtain ⟨signature, body⟩ := r
  cases body with
  | print =>
      refine .bind ((meets_atomic _ s).mpr ?_)
      unfold Run.text
      cases s.heap.text? depth (values.headD .nil) with
      | none => exact ⟨hs, nofun⟩
      | some text => exact ⟨hs, .bind ((meets_atomic _ s).mpr ⟨hs, trivial⟩)⟩
  | block parameters statements home =>
      have hopened := hs.of_routines (Store.routine?_opened s home)
      refine .bind ((meets_atomic _ s).mpr ⟨hopened, .bind ((meets_atomic _ _).mpr ?_)⟩)
      rw [Run.bindParameters_eq]
      refine ⟨hopened.bindParameters s.size parameters _ values, .bind ?_⟩
      exact ⟨(), fun _ => hr parameters statements home rfl, fun _ _ _ _ _ => trivial⟩

theorem globals_meets (hs : s.Traced q) {gs : List Global} (hgs : ∀ g ∈ gs, q.Contains (.global g)) :
    ((globals depth gs).plan rounds).Meets (run rounds) ((tracing q).given Ready)
      (fun _ _ => True) s := by
  cases gs with
  | nil => trivial
  | cons g rest =>
      obtain ⟨hg, hrest⟩ := List.forall_mem_cons.mp hgs
      obtain ⟨offset, name, typeName, mutable, value, slot⟩ := g
      cases slot with
      | none => exact nofun
      | some slot =>
          have hnext {t : Store} (ht : t.Traced q) (v : Value) :
              (do
                atomic (Run.define Store.root name ⟨slot.type, mutable, v⟩)
                initAll depth rest : Plan Unit).Meets (run rounds)
                ((tracing q).given Ready) (fun _ _ => True) t := by
            have hdefined := ht.of_routines (Store.routine?_define t Store.root name
              ⟨slot.type, mutable, v⟩)
            refine .bind ((meets_atomic _ t).mpr ⟨hdefined, ?_⟩)
            exact ⟨(), fun _ => hrest, fun _ _ _ _ _ => trivial⟩
          cases value with
          | none => exact hnext hs .nil
          | some e => exact .bind (evaluated (hg.child List.mem_cons_self) fun v t ht => hnext ht v)

theorem functions_added {fs : List Function} (hfs : ∀ f ∈ fs, q.Contains (.function f))
    (hs : s.Traced q) :
    ∃ r t, Program.addFunctions Store.root fs s = (r, t) ∧ t.Traced q ∧
      ∀ why, r = .error why → why.AtNode q := by
  induction fs generalizing s with
  | nil => exact ⟨_, s, rfl, hs, nofun⟩
  | cons f fs ih =>
      obtain ⟨hf, hrest⟩ := List.forall_mem_cons.mp hfs
      obtain ⟨offset, name, parameters, parameterTypes, returnType, body, slot⟩ := f
      cases slot with
      | none =>
          refine ⟨.error .missingSlot, s, rfl, hs, ?_⟩
          rintro _ ⟨⟩
          exact nofun
      | some signature =>
          refine ih hrest (hs.defineRoutine Store.root ?_)
          rintro _ statements _ ⟨⟩ x hx
          exact hf.child (List.mem_map_of_mem hx)

theorem program_meets {p : Program} (hp : ∀ n ∈ p.nodes, q.Contains n) :
    ((program depth p).plan rounds).Meets (run rounds) ((tracing q).given Ready)
      (fun _ _ => True) s := by
  obtain ⟨hglobals, hfunctions⟩ := List.forall_mem_append.mp hp
  rw [List.forall_mem_map] at hglobals hfunctions
  refine .bind ⟨(), fun _ => hglobals, fun _ t hrun ht hpost => .bind ((meets_atomic _ t).mpr ?_)⟩
  have hordered := Framing.addFunctions_ordered p.functions (hpost.1.framed hrun).1
  obtain ⟨r, u, hadd, hu, hwhy⟩ := functions_added hfunctions ht
  rw [hadd] at hordered ⊢
  cases r with
  | error why => exact ⟨hu, hwhy why rfl⟩
  | ok _ =>
      refine ⟨hu, .bind ((meets_atomic _ u).mpr ?_)⟩
      unfold Run.lookupMain
      cases hfound : u.scopes.findFunction? Store.root "main" 0 with
      | none => exact ⟨hu, nofun⟩
      | some r => exact ⟨hu, (), fun _ => hu.found hordered hfound, fun _ _ _ _ _ => trivial⟩

theorem plan_meets {pt : Point} (hs : s.Traced q) (hready : pt.Ready s) (hpt : pt.Traced q) :
    (pt.plan rounds).Meets (run rounds) ((tracing q).given Ready)
      ((tracing q).post () pt s) s := by
  cases pt with
  | expr depth scope e =>
      cases depth with
      | zero => exact nofun
      | succ depth => exact exprPlan_meets hs hready.1 hpt
  | exprs depth scope es =>
      cases es with
      | nil => trivial
      | cons e es =>
          obtain ⟨he, hes⟩ := List.forall_mem_cons.mp hpt
          exact .bind (evaluated he fun _ _ _ => .bind (allEvaluated hes fun _ _ _ => trivial))
  | stmt depth scope x =>
      cases depth with
      | zero => exact nofun
      | succ depth => exact stmtPlan_meets hs hpt
  | stmts depth scope xs =>
      cases xs with
      | nil => trivial
      | cons x xs =>
          obtain ⟨hx, hxs⟩ := List.forall_mem_cons.mp hpt
          refine .bind ⟨(), fun _ => hx, fun r t _ _ _ => ?_⟩
          cases r with
          | some v => trivial
          | none => exact ⟨(), fun _ => hxs, fun _ _ _ _ _ => trivial⟩
  | loop n depth scope condition body =>
      cases n with
      | zero => exact nofun
      | succ n =>
          obtain ⟨hcondition, hbody⟩ := hpt
          refine decided hcondition fun b t ht => ?_
          cases b with
          | false => trivial
          | true =>
              refine .bind (executed ht hbody fun r u _ => ?_)
              cases r with
              | some v => trivial
              | none => exact ⟨(), fun _ => ⟨hcondition, hbody⟩, fun _ _ _ _ _ => trivial⟩
  | select depth scope v cases =>
      cases cases with
      | nil => exact nofun
      | cons c rest =>
          obtain ⟨hc, hrest⟩ := List.forall_mem_cons.mp hpt
          obtain ⟨offset, value, body⟩ := c
          have hbody : ∀ x ∈ body, q.Contains (.stmt x) := fun x hx =>
            hc.child (List.mem_append_right _ (List.mem_map_of_mem hx))
          cases value with
          | none => exact hbody
          | some e =>
              refine .bind (evaluated (hc.child List.mem_cons_self) fun w t ht => ?_)
              refine .bind (read hc (Run.equal_gives depth w v) (Run.equal_stopsAt _) ht
                fun b _ => ?_)
              cases b with
              | true => exact hbody
              | false => exact ⟨(), fun _ => hrest, fun _ _ _ _ hpost => hpost.2⟩
  | call depth r values => exact callPlan_meets hs hpt values
  | globals depth gs => exact globals_meets hs hpt
  | program depth p => exact program_meets hpt

end Tracing

theorem tracing_kept (q : Program) (rounds : Nat) : (tracing q).Kept rounds Ready where
  closed := Ready.asks
  meets hready hs hpt := Tracing.plan_meets hs hready hpt

namespace Program

variable {q : Program} {l : Limits}

theorem contains_root {n : Node} (h : n ∈ q.nodes) : q.Contains n := ⟨n, h, .refl⟩

theorem traced_of_reaches {pt : Point} {s : Store}
    (h : Reaches l.rounds (program l.depth q) Store.initial pt s) : pt.Traced q ∧ s.Traced q := by
  obtain ⟨_, hs, _, hpt⟩ := (tracing_kept q l.rounds).reaches (i := ()) (initial_ready l.depth q)
    (.initial q) (fun _ => contains_root) h
  exact ⟨hpt, hs⟩

/-- A fault of a run that speaks of a place speaks of the place of a node of the program. -/
theorem fault_atNode {why : Stop} (h : (q.runWithin l).result = .error why) : why.AtNode q := by
  obtain rfl | rfl | ⟨s, hrun⟩ := stop_of_result h
  · exact nofun
  · rintro f n ⟨⟩ ⟨⟩
  · have hends := ((tracing_kept q l.rounds).followed (i := ()) (initial_ready l.depth q)
      (.initial q) fun _ => contains_root).1
    rw [hrun] at hends
    exact hends.2

end Program

end PlcLang
