import PlcLang.Proofs.RunActions

namespace PlcLang

open Plan Point

def Store.bindParameters (scope : Nat) : List String → List Ty → List Value → Store → Store
  | name :: names, type :: types, value :: values, s =>
    bindParameters scope names types values (s.define scope name ⟨type, true, value⟩)
  | _, _, _, s => s

theorem Run.bindParameters_eq (scope : Nat) (names : List String) (types : List Ty)
    (values : List Value) (s : Store) : Run.bindParameters scope names types values s =
      (.ok (), s.bindParameters scope names types values) := by
  induction names generalizing types values s with
  | nil => rfl
  | cons name names ih =>
      cases types with
      | nil => rfl
      | cons type types =>
          cases values with
          | nil => rfl
          | cons value values => exact ih types values _

/-- The own variables of a scope after a statement in it. -/
def Stmt.declare : Stmt → (String → Option Binding) → String → Option Binding
  | declaration _ name _ _ (some slot), own => Function.update own name (some ⟨slot.type, true⟩)
  | _, own => own

def Global.declare (g : Global) (own : String → Option Binding) : String → Option Binding :=
  match g.slot with
  | some slot => Function.update own g.name (some ⟨slot.type, g.mutable⟩)
  | none => own

namespace Point

def Placed : Point → Store → Prop
  | expr _ scope _, s | exprs _ scope _, s | select _ scope _ _, s | loop _ _ scope _ _, s =>
    scope < s.size
  | stmt _ scope _, s | stmts _ scope _, s => Store.root < scope ∧ scope < s.size
  | call _ r _, _ => r.AtRoot
  | globals .., _ | program .., _ => True

/-- What is left as it is when the point has been run. -/
def Framed : (pt : Point) → Store → pt.Result → Store → Prop
  | expr .., s, _, s' | loop .., s, _, s' | call .., s, _, s' => s.Keeps s.size s'
  | exprs _ _ es, s, vs, s' => s.Keeps s.size s' ∧ vs.length = es.length
  | select _ _ _ cases, s, body, s' =>
    s.Keeps s.size s' ∧ (body = [] ∨ ∃ c ∈ cases, c.body = body)
  | stmt _ scope x, s, _, s' =>
    s.Keeps scope s' ∧ s'.binding? scope = x.declare (s.binding? scope)
  | stmts _ scope _, s, _, s' => s.Keeps scope s'
  | globals _ gs, s, _, s' => s.Keeps Store.root s' ∧
    s'.binding? Store.root = gs.foldl (fun own g => g.declare own) (s.binding? Store.root)
  | program .., _, _, _ => True

end Point

def framing : Contract Unit where
  inv := Store.Ordered
  stops _ := True
  pre _ := Placed
  post _ := Framed

namespace Framing

variable {rounds depth scope : Nat} {α : Type} {Φ : α → Store → Prop} {s : Store}
  {fact : Point → Store → Prop}

theorem read {m : Run α} {P : α → Prop} {Q : Stop → Prop} (h : m.Gives s P Q) (hs : s.Ordered)
    (hΦ : ∀ a, P a → Φ a s) : (atomic m).Meets (run rounds) (framing.given fact) Φ s :=
  (meets_atomic m s).mpr (h.ends hs hΦ fun _ _ => trivial)

theorem evaluated {e : Expr} {Φ : Value → Store → Prop} (hscope : scope < s.size)
    (hΦ : ∀ v t, t.Ordered → s.Keeps s.size t → Φ v t) :
    (eval depth scope e).Meets (run rounds) (framing.given fact) Φ s :=
  ⟨(), fun _ => hscope, fun v t _ ht hk => hΦ v t ht hk.2⟩

theorem decided {e : Expr} {f : Bool → Plan α} (hscope : scope < s.size)
    (hf : ∀ b t, t.Ordered → s.Keeps s.size t →
      (f b).Meets (run rounds) (framing.given fact) Φ t) :
    (do
      let v ← eval depth scope e
      let b ← atomic (Run.truth e.offset v)
      f b).Meets (run rounds) (framing.given fact) Φ s :=
  .bind (evaluated hscope fun v t ht hk =>
    .bind (read (Run.truth_gives _ v) ht fun b _ => hf b t ht hk))

theorem allEvaluated {es : List Expr} {Φ : List Value → Store → Prop} (hscope : scope < s.size)
    (hΦ : ∀ vs t, t.Ordered → s.Keeps s.size t → vs.length = es.length → Φ vs t) :
    (evalAll depth scope es).Meets (run rounds) (framing.given fact) Φ s :=
  ⟨(), fun _ => hscope, fun vs t _ ht hk => hΦ vs t ht hk.2.1 hk.2.2⟩

/-- A block leaves everything as it was before the block. -/
theorem block_executed {xs : List Stmt} {Φ : Option Value → Store → Prop} (hs : s.Ordered)
    {parent : Nat} (hparent : parent < s.size)
    (hΦ : ∀ r t, t.Ordered → s.Keeps s.size t → Φ r t) :
    (blockPlan depth parent xs).Meets (run rounds) (framing.given fact) Φ s := by
  refine .bind ((meets_atomic _ s).mpr ⟨hs.opened hparent, ?_⟩)
  exact ⟨(), fun _ => ⟨hs.root_lt, Store.size_lt_opened s parent⟩,
    fun r t _ ht hk => hΦ r t ht ((Store.Keeps.opened s s.size parent).trans hk.2)⟩

theorem exprPlan_meets (hs : s.Ordered) (hscope : scope < s.size) (e : Expr) :
    (exprPlan depth scope e).Meets (run rounds) (framing.given fact)
      (fun _ t => s.Keeps s.size t) s := by
  cases e with
  | literal info value => exact .refl s.size s
  | group info inner => exact evaluated hscope fun v t _ hk => hk
  | binary info op left right =>
      have hlater {t : Store} (hk : s.Keeps s.size t) : scope < t.size :=
        Nat.lt_of_lt_of_le hscope hk.size_le
      cases op with
      | and =>
          refine decided hscope fun b t _ hk => ?_
          cases b with
          | false => exact hk
          | true => exact decided (hlater hk) fun _ u _ hk' => hk.andThen hk'
      | or =>
          refine decided hscope fun b t _ hk => ?_
          cases b with
          | true => exact hk
          | false => exact decided (hlater hk) fun _ u _ hk' => hk.andThen hk'
      | _ =>
          exact .bind (evaluated hscope fun v t _ hk =>
            .bind (evaluated (hlater hk) fun w u hu hk' =>
              read (Run.operate_gives depth info.offset _ v w) hu fun r _ => hk.andThen hk'))
  | access info name slot =>
      exact .bind (read (Run.lookup_gives scope name _) hs fun found _ => .refl s.size s)
  | element info name index slot =>
      refine .bind (read (Run.lookup_gives scope name _) hs fun found _ => ?_)
      refine .bind (read (Run.addressOf_gives name _ found.2.value) hs fun address _ => ?_)
      refine .bind (read (Run.lengthOf_gives address) hs fun length _ => ?_)
      refine .bind (evaluated hscope fun v t ht hk => ?_)
      refine .bind (read (Run.position_gives _ _ v) ht fun i _ => ?_)
      exact .bind (read (Run.elements_gives address) ht fun vs _ => hk)
  | call info name arguments slot =>
      refine .bind (read (Run.lookupRoutine_gives scope name _ _) hs fun r hr => ?_)
      refine .bind (allEvaluated hscope fun vs t ht hk _ => ?_)
      exact ⟨(), fun _ => hs.atRoot_of_findFunction? hr, fun v u _ hu hk' => hk.andThen hk'.2⟩
  | list info elements =>
      refine .bind (allEvaluated hscope fun vs t ht hk _ => ?_)
      exact (meets_atomic _ t).mpr ⟨ht.of_scopes rfl, hk.andThen (.of_scopes _ rfl)⟩
  | unknown start node => trivial

theorem stmtPlan_meets (hs : s.Ordered) (hscope : scope < s.size) (x : Stmt) :
    (stmtPlan rounds depth scope x).Meets (run rounds) (framing.given fact)
      (fun _ t => s.Keeps scope t ∧ t.binding? scope = x.declare (s.binding? scope)) s := by
  have hle := Nat.le_of_lt hscope
  have hkept {t : Store} (hk : s.Keeps s.size t) :
      s.Keeps scope t ∧ t.binding? scope = s.binding? scope :=
    ⟨hk.mono hle, funext (hk.binding scope hscope)⟩
  cases x with
  | expression offset value => exact .bind (evaluated hscope fun v t _ hk => hkept hk)
  | declaration offset name typeName value slot =>
      cases slot with
      | none => trivial
      | some slot =>
          have hdefine {t : Store} (hk : s.Keeps s.size t) (v : Value) :
              s.Keeps scope (t.define scope name ⟨slot.type, true, v⟩) ∧
                (t.define scope name ⟨slot.type, true, v⟩).binding? scope =
                  Function.update (s.binding? scope) name (some ⟨slot.type, true⟩) := by
            obtain ⟨hk', hb⟩ := hkept hk
            refine ⟨hk'.trans (.define_below t scope name _), ?_⟩
            rw [Store.binding?_define_self (Nat.lt_of_lt_of_le hscope hk.size_le), hb]
            rfl
          cases value with
          | none =>
              exact .bind ((meets_atomic _ s).mpr
                ⟨hs.define scope name _, hdefine (.refl s.size s) .nil⟩)
          | some value =>
              exact .bind (evaluated hscope fun v t ht hk => .bind ((meets_atomic _ t).mpr
                ⟨ht.define scope name _, hdefine hk v⟩))
  | assignment offset receiver value =>
      cases receiver with
      | access info name slot =>
          refine .bind (read (Run.lookup_gives scope name _) hs fun found hfound => ?_)
          refine .bind (read (Run.requireMutable_gives found.2 name offset) hs fun _ _ => ?_)
          refine .bind (evaluated hscope fun v t ht hk => .bind ((meets_atomic _ t).mpr ?_))
          exact ⟨ht.define found.1 name _, hkept (hk.andThen (.reassign hs hfound hk v))⟩
      | element info name index slot =>
          refine .bind (read (Run.lookup_gives scope name _) hs fun found _ => ?_)
          refine .bind (read (Run.requireMutable_gives found.2 name offset) hs fun _ _ => ?_)
          refine .bind (read (Run.addressOf_gives name _ found.2.value) hs fun address _ => ?_)
          refine .bind (read (Run.lengthOf_gives address) hs fun length _ => ?_)
          refine .bind (evaluated hscope fun v t ht hk => ?_)
          refine .bind (read (Run.position_gives _ _ v) ht fun i _ => ?_)
          have hscope' := Nat.lt_of_lt_of_le hscope hk.size_le
          refine .bind (evaluated hscope' fun w u hu hk' => .bind ((meets_atomic _ u).mpr ?_))
          exact ⟨hu.of_scopes rfl, hkept ((hk.andThen hk').andThen (.of_scopes _ rfl))⟩
      | _ => trivial
  | ifElse offset condition thenBody elseBody =>
      refine decided hscope fun b t ht hk => ?_
      have hscope' := Nat.lt_of_lt_of_le hscope hk.size_le
      cases b with
      | false => exact block_executed ht hscope' fun r u _ hk' => hkept (hk.andThen hk')
      | true => exact block_executed ht hscope' fun r u _ hk' => hkept (hk.andThen hk')
  | switch offset condition cases =>
      refine .bind (evaluated hscope fun v t ht hk => ?_)
      have hscope' := Nat.lt_of_lt_of_le hscope hk.size_le
      refine .bind ⟨(), fun _ => hscope', fun body u _ hu hsel => ?_⟩
      have hk₂ := hk.andThen hsel.2.1
      exact block_executed hu (Nat.lt_of_lt_of_le hscope hk₂.size_le)
        fun r w _ hk' => hkept (hk₂.andThen hk')
  | whileDo offset condition body =>
      exact ⟨(), fun _ => hscope, fun r t _ _ hk => hkept hk.2⟩
  | ret offset value =>
      cases value with
      | none => exact hkept (.refl s.size s)
      | some value => exact .bind (evaluated hscope fun v t _ hk => hkept hk)
  | unknown start node => trivial

theorem keeps_bindParameters (scope : Nat) (names : List String) (types : List Ty) (values : List Value)
    (hs : s.Ordered) : (s.bindParameters scope names types values).Ordered ∧
      s.Keeps scope (s.bindParameters scope names types values) := by
  induction names generalizing types values s with
  | nil => exact ⟨hs, .refl scope s⟩
  | cons name names ih =>
      cases types with
      | nil => exact ⟨hs, .refl scope s⟩
      | cons type types =>
          cases values with
          | nil => exact ⟨hs, .refl scope s⟩
          | cons value values =>
              obtain ⟨hs', hk⟩ := ih types values (hs.define scope name ⟨type, true, value⟩)
              exact ⟨hs', (Store.Keeps.define_below s scope name _).trans hk⟩

theorem callPlan_meets (hs : s.Ordered) {r : Routine} (hr : r.AtRoot) (values : List Value) :
    (callPlan depth r values).Meets (run rounds) (framing.given fact)
      (fun _ t => s.Keeps s.size t) s := by
  obtain ⟨signature, body⟩ := r
  cases body with
  | print =>
      refine .bind (read (Run.text_gives depth _) hs fun text _ => .bind ((meets_atomic _ s).mpr ?_))
      exact ⟨hs.of_scopes rfl, .of_scopes s.size rfl⟩
  | block parameters statements home =>
      have hhome : home < s.size := hr _ _ _ rfl ▸ hs.root_lt
      refine .bind ((meets_atomic _ s).mpr ⟨hs.opened hhome, ?_⟩)
      refine .bind ((meets_atomic _ _).mpr ?_)
      rw [Run.bindParameters_eq]
      have hopened := Store.Keeps.opened s s.size home
      obtain ⟨hs', hk⟩ := keeps_bindParameters s.size parameters signature.parameters values
        (hs.opened hhome)
      have hsize := Nat.lt_of_lt_of_le (Store.size_lt_opened s home) hk.size_le
      refine ⟨hs', .bind ⟨(), fun _ => ⟨hs.root_lt, hsize⟩, fun r t _ _ hk' => ?_⟩⟩
      exact (hopened.trans hk).trans hk'.2

theorem addFunctions_ordered (fs : List Function) (hs : s.Ordered) :
    (Program.addFunctions Store.root fs s).2.Ordered := by
  induction fs generalizing s with
  | nil => exact hs
  | cons f fs ih =>
      obtain ⟨offset, name, parameters, parameterTypes, returnType, body, slot⟩ := f
      cases slot with
      | none => exact hs
      | some signature =>
          refine ih (hs.defineRoutine Store.root fun _ _ home h => ?_)
          cases h
          rfl

theorem globals_meets (hs : s.Ordered) (gs : List Global) :
    ((globals depth gs).plan rounds).Meets (run rounds) (framing.given fact)
      ((globals depth gs).Framed s) s := by
  cases gs with
  | nil => exact ⟨.refl Store.root s, rfl⟩
  | cons g rest =>
      obtain ⟨offset, name, typeName, mutable, value, slot⟩ := g
      cases slot with
      | none => trivial
      | some slot =>
          have hrest {t : Store} (ht : t.Ordered) (hk : s.Keeps s.size t) (v : Value) :
              (do
                atomic (Run.define Store.root name ⟨slot.type, mutable, v⟩)
                initAll depth rest : Plan Unit).Meets (run rounds) (framing.given fact)
                ((globals depth (⟨offset, name, typeName, mutable, value, some slot⟩ ::
                  rest)).Framed s) t := by
            refine .bind ((meets_atomic _ t).mpr ⟨ht.define Store.root name _, ?_⟩)
            refine ⟨(), fun _ => trivial, ?_⟩
            rintro r u _ _ ⟨_, hk', hown⟩
            have hdefine := Store.Keeps.define_below t Store.root name
              ⟨slot.type, mutable, v⟩
            have hroot : (t.define Store.root name ⟨slot.type, mutable, v⟩).binding? Store.root =
                Function.update (s.binding? Store.root) name (some ⟨slot.type, mutable⟩) := by
              rw [Store.binding?_define_self ht.root_lt,
                funext (hk.binding Store.root hs.root_lt)]
              rfl
            refine ⟨((hk.mono (Nat.zero_le _)).trans hdefine).trans hk', hown.trans ?_⟩
            exact congrArg (rest.foldl fun own g => g.declare own) hroot
          cases value with
          | none => exact hrest hs (.refl s.size s) .nil
          | some e => exact .bind (evaluated hs.root_lt fun v t ht hk => hrest ht hk v)

theorem program_meets (p : Program) :
    ((program depth p).plan rounds).Meets (run rounds) (framing.given fact)
      ((program depth p).Framed s) s := by
  refine .bind ⟨(), fun _ => trivial, fun _ t _ ht _ => ?_⟩
  refine .bind ((meets_atomic _ t).mpr ?_)
  have hadd := addFunctions_ordered p.functions ht
  cases hrun : Program.addFunctions Store.root p.functions t with
  | mk r u =>
      rw [hrun] at hadd
      cases r with
      | error why => exact ⟨hadd, trivial⟩
      | ok _ =>
          refine ⟨hadd, .bind (read Run.lookupMain_gives hadd fun r hr => ?_)⟩
          exact ⟨(), fun _ => hadd.atRoot_of_findFunction? hr, fun _ _ _ _ _ => trivial⟩

theorem plan_meets (hs : s.Ordered) (pt : Point) (hpt : pt.Placed s) :
    (pt.plan rounds).Meets (run rounds) (framing.given fact) (pt.Framed s) s := by
  cases pt with
  | expr depth scope e =>
      cases depth with
      | zero => trivial
      | succ depth => exact exprPlan_meets hs hpt e
  | exprs depth scope es =>
      cases es with
      | nil => exact ⟨.refl s.size s, rfl⟩
      | cons e es =>
          refine .bind (evaluated hpt fun v t ht hk => .bind ?_)
          refine allEvaluated (Nat.lt_of_lt_of_le hpt hk.size_le) fun vs u _ hk' hlen => ?_
          exact ⟨hk.andThen hk', congrArg (· + 1) hlen⟩
  | stmt depth scope x =>
      cases depth with
      | zero => trivial
      | succ depth => exact stmtPlan_meets hs hpt.2 x
  | stmts depth scope xs =>
      cases xs with
      | nil => exact .refl scope s
      | cons x xs =>
          refine .bind ⟨(), fun _ => hpt, ?_⟩
          rintro r t _ ht ⟨_, hk, _⟩
          cases r with
          | some v => exact hk
          | none =>
              refine ⟨(), fun _ => ⟨hpt.1, Nat.lt_of_lt_of_le hpt.2 hk.size_le⟩, ?_⟩
              exact fun r u _ _ hk' => hk.trans hk'.2
  | loop n depth scope condition body =>
      cases n with
      | zero => trivial
      | succ n =>
          refine decided hpt fun b t ht hk => ?_
          cases b with
          | false => exact hk
          | true =>
              have hpt' := Nat.lt_of_lt_of_le hpt hk.size_le
              refine .bind (block_executed ht hpt' fun r u hu hk' => ?_)
              have hk₂ := hk.andThen hk'
              cases r with
              | some v => exact hk₂
              | none =>
                  refine ⟨(), fun _ => Nat.lt_of_lt_of_le hpt hk₂.size_le, ?_⟩
                  exact fun r w _ _ hk' => hk₂.andThen hk'.2
  | select depth scope v cases =>
      cases cases with
      | nil => exact ⟨.refl s.size s, .inl rfl⟩
      | cons c rest =>
          obtain ⟨offset, value, body⟩ := c
          cases value with
          | none => exact ⟨.refl s.size s, .inr ⟨_, List.mem_cons_self, rfl⟩⟩
          | some e =>
              refine .bind (evaluated hpt fun w t ht hk => ?_)
              refine .bind (read (Run.equal_gives depth w v) ht fun b _ => ?_)
              cases b with
              | true => exact ⟨hk, .inr ⟨_, List.mem_cons_self, rfl⟩⟩
              | false =>
                  refine ⟨(), fun _ => Nat.lt_of_lt_of_le hpt hk.size_le, ?_⟩
                  rintro r u _ _ ⟨_, hk', hr⟩
                  refine ⟨hk.andThen hk', hr.imp_right ?_⟩
                  exact fun ⟨c, hc, hbody⟩ => ⟨c, List.mem_cons_of_mem _ hc, hbody⟩
  | call depth r values => exact callPlan_meets hs hpt values
  | globals depth gs => exact globals_meets hs gs
  | program depth p => exact program_meets p

end Framing

theorem framing_kept (rounds : Nat) : framing.Kept rounds fun _ _ => True where
  closed _ _ := trivial
  meets _ hs hpt := Framing.plan_meets hs _ hpt

end PlcLang
