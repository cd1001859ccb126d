import PlcLang.Proofs.RunFunctions

namespace PlcLang

open Plan Point

namespace Point

def Ready (pt : Point) (s : Store) : Prop := s.Ordered ∧ pt.Placed s

theorem Ready.asks {rounds : Nat} {pt sub : Point} {s t : Store} (h : pt.Ready s)
    (hasks : (pt.plan rounds).Asks (run rounds) s sub t) : sub.Ready t := by
  obtain ⟨ht, _, hplaced⟩ := ((framing_kept rounds).followed (i := ()) trivial h.1 h.2).2.1 sub t hasks
  exact ⟨ht, hplaced⟩

theorem Ready.framed {rounds : Nat} {pt : Point} {s t : Store} {r : pt.Result} (h : pt.Ready s)
    (hrun : pt.run rounds s = (.ok r, t)) : t.Ordered ∧ pt.Framed s r t := by
  have hends := ((framing_kept rounds).followed (i := ()) trivial h.1 h.2).1
  rw [hrun] at hends
  exact hends

/-- What is run at the point follows the rules in an environment that its scope shows. -/
def Checked (allowed : Ty → Prop) : Point → Store → Prop
  | expr _ scope e, s => ∃ Γ T, s.Shows scope Γ ∧ e.HasType (.filled allowed) Γ T
  | exprs _ scope es, s => ∃ Γ, s.Shows scope Γ ∧ ∀ e ∈ es, ∃ T, e.HasType (.filled allowed) Γ T
  | stmt _ scope x, s => ∃ Γ Δ returns, s.Shows scope Γ ∧ x.Typed (.filled allowed) returns Γ Δ
  | stmts _ scope xs, s =>
    ∃ Γ returns, s.Shows scope Γ ∧ Stmt.BlockTyped (.filled allowed) returns Γ xs
  | loop _ _ scope condition body, s => ∃ Γ returns, s.Shows scope Γ ∧
    condition.HasType (.filled allowed) Γ .boolean ∧
    Stmt.BlockTyped (.filled allowed) returns Γ.enter body
  | select _ scope _ cases, s => ∃ Γ T returns, s.Shows scope Γ ∧
    Stmt.CasesTyped (.filled allowed) returns Γ T cases
  | call _ r values, s => s.Fits allowed r ∧ values.length = r.signature.arity
  | globals _ gs, s =>
    s.OnlyPrints ∧ ∃ Γ Δ, s.Shows Store.root Γ ∧ Global.ListTyped (.filled allowed) Γ gs Δ
  | program _ p, s => s = Store.initial ∧ p.Typed (.filled allowed)

end Point

def resolution (allowed : Ty → Prop) : Contract Unit where
  inv := Store.Sound allowed
  stops := Stop.Ordinary
  pre _ := Checked allowed
  post _ _ _ _ _ := True

namespace Resolution

structure Here (allowed : Ty → Prop) (s : Store) (scope : Nat) (Γ : Env) : Prop where
  ordered : s.Ordered
  sound : s.Sound allowed
  placed : scope < s.size
  shows : s.Shows scope Γ

variable {allowed : Ty → Prop} {rounds depth scope : Nat} {s t : Store} {Γ : Env} {α : Type}

theorem Here.of_keeps (h : Here allowed s scope Γ) (ht : t.Ordered) (hsound : t.Sound allowed)
    (hk : s.Keeps s.size t) : Here allowed t scope Γ where
  ordered := ht
  sound := hsound
  placed := Nat.lt_of_lt_of_le h.placed hk.size_le
  shows := h.shows.of_keeps h.ordered ht hk h.placed h.placed

theorem Here.found (h : Here allowed s scope Γ) {name : String} {b : Binding}
    (hb : Γ.vars name = some b) :
    ∃ home cell, s.scopes.findVariable? scope name = some (home, cell) ∧ cell.binding = b := by
  have hvisible := (h.shows.vars name).trans hb
  obtain ⟨found, hfound, hbinding⟩ := Option.map_eq_some_iff.mp hvisible
  exact ⟨found.1, found.2, hfound, hbinding⟩

theorem Here.routine (h : Here allowed s scope Γ) {name : String} {arity : Nat} {signature : Signature}
    (hs : Γ.funs name arity = some signature) :
    ∃ r, s.scopes.findFunction? scope name arity = some r ∧ r.signature = signature ∧
      r.signature.arity = arity ∧ s.Fits allowed r := by
  have hvisible := (h.shows.funs name arity).trans hs
  obtain ⟨r, hr, hsignature⟩ := Option.map_eq_some_iff.mp hvisible
  obtain ⟨i, hi⟩ := Store.routine?_of_findFunction? h.ordered hr
  obtain ⟨_, harity, hfits⟩ := h.sound i name arity r hi
  exact ⟨r, hr, hsignature, harity, hfits⟩

theorem read {m : Run α} {P : α → Prop} {Q : Stop → Prop} {Φ : α → Store → Prop}
    (h : m.Gives s P Q) (hs : s.Sound allowed) (hΦ : ∀ a, P a → Φ a s)
    (hQ : ∀ why, Q why → why.Ordinary) :
    (atomic m).Meets (run rounds) ((resolution allowed).given Ready) Φ s :=
  (meets_atomic m s).mpr (h.ends hs hΦ hQ)

theorem lookedUp {name : String} {offset : Nat} {b : Binding} {Φ : Nat × Cell → Store → Prop}
    (h : Here allowed s scope Γ) (hb : Γ.vars name = some b)
    (hΦ : ∀ home cell, s.scopes.findVariable? scope name = some (home, cell) → cell.binding = b →
      Φ (home, cell) s) :
    (atomic (Run.lookup scope name offset)).Meets (run rounds)
      ((resolution allowed).given Ready) Φ s := by
  obtain ⟨home, cell, hfound, hcell⟩ := h.found hb
  refine read (Run.lookup_gives scope name offset) h.sound ?_ ?_
  · rintro ⟨home', cell'⟩ hfound'
    cases hfound.symm.trans hfound'
    exact hΦ home cell hfound hcell
  · intro why hnone
    cases hfound.symm.trans hnone

theorem evaluated {e : Expr} {T : Ty} {Φ : Value → Store → Prop} (h : Here allowed s scope Γ)
    (he : e.HasType (.filled allowed) Γ T)
    (hΦ : ∀ v t, Here allowed t scope Γ → s.Keeps s.size t → Φ v t) :
    (eval depth scope e).Meets (run rounds) ((resolution allowed).given Ready) Φ s := by
  refine ⟨(), fun _ => ⟨Γ, T, h.shows, he⟩, fun v t hrun ht hready => ?_⟩
  obtain ⟨hordered, hk⟩ := hready.1.framed hrun
  exact hΦ v t (h.of_keeps hordered ht hk) hk

theorem decided {e : Expr} {T : Ty} {f : Bool → Plan α} {Φ : α → Store → Prop}
    (h : Here allowed s scope Γ) (he : e.HasType (.filled allowed) Γ T)
    (hf : ∀ b t, Here allowed t scope Γ →
      (f b).Meets (run rounds) ((resolution allowed).given Ready) Φ t) :
    (do
      let v ← eval depth scope e
      let b ← atomic (Run.truth e.offset v)
      f b).Meets (run rounds) ((resolution allowed).given Ready) Φ s :=
  .bind (evaluated h he fun v t ht _ =>
    .bind (read (Run.truth_gives _ v) ht.sound (fun b _ => hf b t ht) fun _ => id))

theorem allEvaluated {es : List Expr} {Φ : List Value → Store → Prop}
    (h : Here allowed s scope Γ) (hes : ∀ e ∈ es, ∃ T, e.HasType (.filled allowed) Γ T)
    (hΦ : ∀ vs t, Here allowed t scope Γ → s.Keeps s.size t → vs.length = es.length → Φ vs t) :
    (evalAll depth scope es).Meets (run rounds) ((resolution allowed).given Ready) Φ s := by
  refine ⟨(), fun _ => ⟨Γ, h.shows, hes⟩, fun vs t hrun ht hready => ?_⟩
  obtain ⟨hordered, hk, hlen⟩ := hready.1.framed hrun
  exact hΦ vs t (h.of_keeps hordered ht hk) hk hlen

theorem block_executed {xs : List Stmt} {returns : Ty} {Φ : Option Value → Store → Prop}
    (h : Here allowed s scope Γ) (hxs : Stmt.BlockTyped (.filled allowed) returns Γ.enter xs)
    (hΦ : ∀ r t, Here allowed t scope Γ → Φ r t) :
    (blockPlan depth scope xs).Meets (run rounds) ((resolution allowed).given Ready) Φ s := by
  have hopened := h.ordered.opened h.placed
  have hk := Store.Keeps.opened s s.size scope
  refine .bind ((meets_atomic _ s).mpr
    ⟨h.sound.of_keeps h.ordered hopened hk h.ordered.root_lt, ?_⟩)
  have hshows := h.shows.opened h.ordered h.placed
  refine ⟨(), fun _ => ⟨Γ.enter, returns, hshows, hxs⟩, fun r t hrun ht hready => ?_⟩
  obtain ⟨hordered, hk'⟩ := hready.1.framed hrun
  exact hΦ r t (h.of_keeps hordered ht (hk.trans hk'))

theorem arguments_typed {arguments : List Expr} {types : List Ty}
    (hlen : arguments.length = types.length)
    (h : ∀ p ∈ arguments.zip types, p.1.HasType (.filled allowed) Γ p.2) :
    ∀ e ∈ arguments, ∃ T, e.HasType (.filled allowed) Γ T := by
  induction arguments generalizing types with
  | nil => exact nofun
  | cons e es ih =>
      cases types with
      | nil => cases hlen
      | cons T types =>
          simp only [List.zip_cons_cons, List.forall_mem_cons] at h ⊢
          exact ⟨⟨T, h.1⟩, ih (Nat.succ.inj hlen) h.2⟩

theorem exprPlan_meets (h : Here allowed s scope Γ) {e : Expr} {T : Ty}
    (he : e.HasType (.filled allowed) Γ T) :
    (exprPlan depth scope e).Meets (run rounds) ((resolution allowed).given Ready)
      (fun _ _ => True) s := by
  cases he with
  | literal => trivial
  | group hinner => exact evaluated h hinner fun _ _ _ _ => trivial
  | @binary info op left right L R T hleft hright hop _ =>
      cases op with
      | and =>
          refine decided h hleft fun b t ht => ?_
          cases b with
          | false => trivial
          | true => exact decided ht hright fun _ _ _ => trivial
      | or =>
          refine decided h hleft fun b t ht => ?_
          cases b with
          | false => exact decided ht hright fun _ _ _ => trivial
          | true => trivial
      | other symbol => cases hop <;> simp_all
      | _ =>
          exact .bind (evaluated h hleft fun v t ht _ => .bind (evaluated ht hright fun w u hu _ =>
            read (Run.operate_gives depth info.offset _ v w) hu.sound (fun _ _ => trivial)
              fun _ hwhy => hwhy (by decide)))
  | access hvar _ _ => exact .bind (lookedUp h hvar fun _ _ _ _ => trivial)
  | @element info name index slot b hvar hindex _ _ =>
      refine .bind (lookedUp h hvar fun home cell _ _ => ?_)
      refine .bind (read (Run.addressOf_gives name _ cell.value) h.sound (fun address _ => ?_) fun _ => id)
      refine .bind (read (Run.lengthOf_gives address) h.sound (fun length _ => ?_) fun _ h => h.elim)
      refine .bind (evaluated h hindex fun v t ht _ => ?_)
      refine .bind (read (Run.position_gives _ _ v) ht.sound (fun i _ => ?_) fun _ => id)
      exact .bind (read (Run.elements_gives address) ht.sound (fun _ _ => trivial) fun _ h => h.elim)
  | @call info name arguments slot signature types hs hacc hlen hargs _ _ =>
      obtain ⟨r, hr, rfl, harity, hfits⟩ := h.routine hs
      refine .bind (read (Run.lookupRoutine_gives scope name _ _) h.sound ?_ ?_)
      · rintro r' hr'
        cases hr.symm.trans hr'
        refine .bind (allEvaluated h (arguments_typed hlen hargs) fun vs t ht hk hlen' => ?_)
        have hfits' := hfits.of_keeps h.ordered ht.ordered hk h.ordered.root_lt
        exact ⟨(), fun _ => ⟨hfits', hlen'.trans harity.symm⟩, fun _ _ _ _ _ => trivial⟩
      · rintro why hnone
        cases hr.symm.trans hnone
  | list hne hall _ =>
      refine .bind (allEvaluated h (fun e he => ⟨_, hall e he⟩) fun vs t ht _ _ => ?_)
      refine (meets_atomic _ t).mpr ⟨?_, trivial⟩
      exact ht.sound.of_keeps ht.ordered (ht.ordered.of_scopes rfl) (.of_scopes t.size rfl)
        ht.ordered.root_lt

theorem defined (h : Here allowed s scope Γ) (hscope : Store.root < scope) (name : String)
    (cell : Cell) {Φ : Unit → Store → Prop} (hΦ : Φ () (s.define scope name cell)) :
    (atomic (Run.define scope name cell)).Meets (run rounds) ((resolution allowed).given Ready) Φ s := by
  refine (meets_atomic _ s).mpr ⟨?_, hΦ⟩
  exact h.sound.of_keeps h.ordered (h.ordered.define scope name cell)
    (.define_below s scope name cell) hscope

theorem receiverFound {name : String} {offset offset' : Nat} {T : Ty} {Φ : Nat × Cell → Plan α}
    {Ψ : α → Store → Prop} (h : Here allowed s scope Γ) (hb : Γ.vars name = some ⟨T, true⟩)
    (hΦ : ∀ home cell, s.scopes.findVariable? scope name = some (home, cell) →
      cell.binding = ⟨T, true⟩ →
      (Φ (home, cell)).Meets (run rounds) ((resolution allowed).given Ready) Ψ s) :
    (do
      let found ← atomic (Run.lookup scope name offset)
      atomic (Run.requireMutable found.2 name offset')
      Φ found).Meets (run rounds) ((resolution allowed).given Ready) Ψ s := by
  refine .bind (lookedUp h hb fun home cell hfound hcell => ?_)
  refine .bind (read (Run.requireMutable_gives cell name offset') h.sound ?_ ?_)
  · exact fun _ _ => hΦ home cell hfound hcell
  · intro why hfalse
    exact absurd (hfalse.symm.trans (congrArg Binding.mutable hcell)) Bool.false_ne_true

theorem stmtPlan_meets (h : Here allowed s scope Γ) (hscope : Store.root < scope) {x : Stmt}
    {returns : Ty} {Δ : Env} (hx : x.Typed (.filled allowed) returns Γ Δ) :
    (stmtPlan rounds depth scope x).Meets (run rounds) ((resolution allowed).given Ready)
      (fun _ _ => True) s := by
  cases hx with
  | expression hcall => exact .bind (evaluated h hcall fun _ _ _ _ => trivial)
  | declarationOfType _ hslot =>
      obtain ⟨v, rfl, _⟩ := Slots.exists_of_symbol hslot
      exact .bind (defined h hscope _ _ trivial)
  | declarationOfValue hvalue _ hslot | declarationOfBoth hvalue _ _ hslot =>
      obtain ⟨v, rfl, _⟩ := Slots.exists_of_symbol hslot
      exact .bind (evaluated h hvalue fun v t ht _ => .bind (defined ht hscope _ _ trivial))
  | @assignment _ offset info name slot value T S _ hvar hvalue _ =>
      refine receiverFound h hvar fun home cell hfound _ => ?_
      refine .bind (evaluated h hvalue fun v t ht hk => .bind ((meets_atomic _ t).mpr ⟨?_, trivial⟩))
      exact ht.sound.of_keeps ht.ordered (ht.ordered.define home name _)
        (.reassign h.ordered hfound hk v) ht.ordered.root_lt
  | @elementAssignment _ offset info name index slot value T S hreceiver hvar hvalue _ =>
      obtain ⟨hindex, _⟩ := hreceiver.element_parts
      refine receiverFound h hvar fun home cell _ _ => ?_
      refine .bind (read (Run.addressOf_gives name _ cell.value) h.sound (fun address _ => ?_) fun _ => id)
      refine .bind (read (Run.lengthOf_gives address) h.sound (fun length _ => ?_) fun _ h => h.elim)
      refine .bind (evaluated h hindex fun v t ht _ => ?_)
      refine .bind (read (Run.position_gives _ _ v) ht.sound (fun i _ => ?_) fun _ => id)
      refine .bind (evaluated ht hvalue fun w u hu _ => .bind ((meets_atomic _ u).mpr ⟨?_, trivial⟩))
      exact hu.sound.of_keeps hu.ordered (hu.ordered.of_scopes rfl) (.of_scopes u.size rfl)
        hu.ordered.root_lt
  | ifElse hcondition _ hthen helse =>
      refine decided h hcondition fun b t ht => ?_
      cases b with
      | false => exact block_executed ht helse fun _ _ _ => trivial
      | true => exact block_executed ht hthen fun _ _ _ => trivial
  | @switch _ offset condition cases T last hcondition hvalues hbodies _ _ =>
      refine .bind (evaluated h hcondition fun v t ht _ => ?_)
      refine .bind ⟨(), fun _ => ⟨Γ, T, returns, ht.shows, hvalues, hbodies⟩, ?_⟩
      intro body u hrun hu hready
      obtain ⟨hordered, hk, hbody⟩ := hready.1.framed hrun
      have hhere := ht.of_keeps hordered hu hk
      have htyped : Stmt.BlockTyped (.filled allowed) returns Γ.enter body := by
        obtain rfl | ⟨c, hc, rfl⟩ := hbody
        · exact .nil
        · exact hbodies c hc
      exact block_executed hhere htyped fun _ _ _ => trivial
  | whileDo hcondition hbody =>
      exact ⟨(), fun _ => ⟨Γ, returns, h.shows, hcondition, hbody⟩, fun _ _ _ _ _ => trivial⟩
  | bareReturn => trivial
  | valueReturn hvalue => exact .bind (evaluated h hvalue fun _ _ _ _ => trivial)

theorem callPlan_meets (hs : s.Ordered) (hsound : s.Sound allowed) {r : Routine}
    {values : List Value} (hr : s.Fits allowed r) (hlen : values.length = r.signature.arity) :
    (callPlan depth r values).Meets (run rounds) ((resolution allowed).given Ready)
      (fun _ _ => True) s := by
  obtain rfl | ⟨parameters, statements, Γ, hbody, hshows, htyped, _⟩ := hr
  · refine .bind (read (Run.text_gives depth _) hsound (fun text _ => ?_) fun _ => id)
    refine .bind ((meets_atomic _ s).mpr ⟨?_, trivial⟩)
    exact hsound.of_keeps hs (hs.of_scopes rfl) (.of_scopes s.size rfl) hs.root_lt
  · rw [callPlan, hbody]
    have hopened := hs.opened hs.root_lt
    have hk := Store.Keeps.opened s s.size Store.root
    have hsound' := hsound.of_keeps hs hopened hk hs.root_lt
    refine .bind ((meets_atomic _ s).mpr ⟨hsound', .bind ((meets_atomic _ _).mpr ?_)⟩)
    rw [Run.bindParameters_eq]
    have hsize := Store.size_lt_opened s Store.root
    obtain ⟨hbound, hk'⟩ := Framing.keeps_bindParameters s.size parameters r.signature.parameters
      values hopened
    refine ⟨hsound'.of_keeps hopened hbound hk' hs.root_lt, .bind ?_⟩
    have hshows' := (hshows.opened hs hs.root_lt).bindParameters parameters _ values hopened hsize hlen
    exact ⟨(), fun _ => ⟨_, r.signature.returns, hshows', htyped⟩, fun _ _ _ _ _ => trivial⟩

theorem main_ready {p : Program} (hp : p.Typed (.filled allowed)) (hs : s.Ordered)
    (hframed : (globals depth p.globals).Framed Store.initial () s) : ∃ rs r Γ,
      Program.addFunctions Store.root p.functions s = (.ok (), s.withRoutines rs) ∧
      Here allowed (s.withRoutines rs) Store.root Γ ∧
      (s.withRoutines rs).scopes.findFunction? Store.root "main" 0 = some r ∧
      r.signature.returns = .integer ∧ r.signature.arity = 0 ∧
      (s.withRoutines rs).Fits allowed r := by
  obtain ⟨Γ, signatures, hglobals, _, hnodup, ⟨main, hmem, hname, harity, hreturns⟩, hbodies⟩ := hp
  obtain ⟨hk, hown⟩ := hframed
  have hshows := Store.initial_shows.after_globals Store.initial_ordered hs hk hown hglobals
  have hprints := Store.initial_onlyPrints.of_keeps hk
  have hadd := Program.addFunctions_eq (hbodies.imp fun f signature h => h.2.2.1) s
  have hmap := Function.map_signature_routines hbodies.length_eq
  have hroot := Function.forall_routines (P := Routine.AtRoot) hbodies
    fun f signature _ parameters statements home h => (Body.block.inj h).2.2.symm
  have hfits (t : Store) (ht : t.Shows Store.root (Γ.withFunctions signatures)) :=
    Function.forall_routines (P := t.Fits allowed) hbodies fun f signature h =>
      .inr ⟨f.parameters, f.body, _, rfl, ht, h.2.1, h.2.2.2⟩
  generalize Function.routines p.functions signatures = rs at hadd hmap hroot hfits
  have hshows' := hshows.withRoutines hs hglobals.funs_eq hroot (hmap.symm ▸ hnodup)
  rw [hmap] at hshows'
  have hnodup' : (rs.map fun r => r.signature.key).Nodup := by
    rw [← hmap, List.map_cons, List.map_map] at hnodup
    exact (List.nodup_cons.mp hnodup).2
  have hordered := hs.withRoutines hroot
  have hhere : Here allowed (s.withRoutines rs) Store.root (Γ.withFunctions signatures) :=
    ⟨hordered, hprints.withRoutines hs hroot hnodup' (hfits _ hshows'), hordered.root_lt, hshows'⟩
  have hmain : (Γ.withFunctions signatures).funs "main" 0 = some main :=
    (Program.lookupIn_eq_some hnodup).mpr ⟨List.mem_cons_of_mem _ hmem, hname, harity⟩
  obtain ⟨r, hr, rfl, harity', hr'⟩ := hhere.routine hmain
  exact ⟨rs, r, _, hadd, hhere, hr, hreturns, harity', hr'⟩

theorem globals_meets (h : Here allowed s Store.root Γ) (hprints : s.OnlyPrints) {gs : List Global}
    {Δ : Env} (hgs : Global.ListTyped (.filled allowed) Γ gs Δ) :
    ((globals depth gs).plan rounds).Meets (run rounds) ((resolution allowed).given Ready)
      (fun _ _ => True) s := by
  cases hgs with
  | nil => trivial
  | @cons _ _ g rest T hg hrest =>
      obtain ⟨offset, name, typeName, mutable, value, slot⟩ := g
      obtain ⟨_, hvalue, _, hslot⟩ := hg
      obtain ⟨b, hb, _, htype, _⟩ := Slots.exists_of_symbol hslot
      cases hb
      have hnext {t : Store} (ht : Here allowed t Store.root Γ) (hk : s.Keeps s.size t) (v : Value) :
          (do
            atomic (Run.define Store.root name ⟨b.type, mutable, v⟩)
            initAll depth rest : Plan Unit).Meets (run rounds)
            ((resolution allowed).given Ready) (fun _ _ => True) t := by
        have hdefine := Store.Keeps.define_below t Store.root name ⟨b.type, mutable, v⟩
        have hprints' := (hprints.of_keeps hk).of_keeps hdefine
        have hdeclared := ht.shows.define ht.ordered ht.placed name ⟨b.type, mutable, v⟩
        have hbinding : Cell.binding ⟨b.type, mutable, v⟩ = ⟨T, mutable⟩ :=
          congrArg (Binding.mk · mutable) htype
        rw [hbinding] at hdeclared
        refine .bind ((meets_atomic _ t).mpr ⟨hprints'.sound, ?_⟩)
        exact ⟨(), fun _ => ⟨hprints', _, Δ, hdeclared, hrest⟩, fun _ _ _ _ _ => trivial⟩
      cases value with
      | none => exact hnext h (.refl s.size s) .nil
      | some e =>
          obtain ⟨S, he, _⟩ := hvalue e rfl
          exact .bind (evaluated h he fun v t ht hk => hnext ht hk v)

theorem program_meets {p : Program} (hp : p.Typed (.filled allowed)) :
    ((program depth p).plan rounds).Meets (run rounds) ((resolution allowed).given Ready)
      (fun _ _ => True) Store.initial := by
  obtain ⟨Γ, _, hglobals, _⟩ := id hp
  refine .bind ⟨(), fun _ => ⟨Store.initial_onlyPrints, .initial, Γ, Store.initial_shows,
    hglobals⟩, fun _ t hrun _ hready => ?_⟩
  obtain ⟨ht, hframed⟩ := hready.1.framed hrun
  obtain ⟨rs, r, _, hadd, hu, hr, _, harity, hfits⟩ := main_ready hp ht hframed
  refine .bind ((meets_atomic _ t).mpr ?_)
  rw [hadd]
  refine ⟨hu.sound, .bind (read Run.lookupMain_gives hu.sound ?_ ?_)⟩
  · rintro r' hr'
    cases hr.symm.trans hr'
    exact ⟨(), fun _ => ⟨hfits, harity.symm⟩, fun _ _ _ _ _ => trivial⟩
  · intro why hnone
    cases hr.symm.trans hnone

theorem plan_meets {pt : Point} (hs : s.Sound allowed) (hready : pt.Ready s)
    (hpt : pt.Checked allowed s) :
    (pt.plan rounds).Meets (run rounds) ((resolution allowed).given Ready) (fun _ _ => True) s := by
  obtain ⟨hordered, hplaced⟩ := hready
  cases pt with
  | expr depth scope e =>
      obtain ⟨Γ, T, hshows, he⟩ := hpt
      cases depth with
      | zero => trivial
      | succ depth => exact exprPlan_meets ⟨hordered, hs, hplaced, hshows⟩ he
  | exprs depth scope es =>
      obtain ⟨Γ, hshows, hes⟩ := hpt
      cases es with
      | nil => trivial
      | cons e es =>
          obtain ⟨⟨T, he⟩, hes⟩ := List.forall_mem_cons.mp hes
          have h : Here allowed s scope Γ := ⟨hordered, hs, hplaced, hshows⟩
          exact .bind (evaluated h he fun v t ht _ =>
            .bind (allEvaluated ht hes fun _ _ _ _ _ => trivial))
  | stmt depth scope x =>
      obtain ⟨Γ, Δ, returns, hshows, hx⟩ := hpt
      cases depth with
      | zero => trivial
      | succ depth => exact stmtPlan_meets ⟨hordered, hs, hplaced.2, hshows⟩ hplaced.1 hx
  | stmts depth scope xs =>
      obtain ⟨Γ, returns, hshows, hxs⟩ := hpt
      cases hxs with
      | nil => trivial
      | @cons _ Δ x xs hx hxs =>
          refine .bind ⟨(), fun _ => ⟨Γ, Δ, returns, hshows, hx⟩, fun r t hrun _ hready => ?_⟩
          obtain ⟨ht, hk, hown⟩ := hready.1.framed hrun
          have hshows' := hshows.after_stmt hordered ht hplaced.2 hk hown hx
          cases r with
          | some v => trivial
          | none => exact ⟨(), fun _ => ⟨Δ, returns, hshows', hxs⟩, fun _ _ _ _ _ => trivial⟩
  | loop n depth scope condition body =>
      obtain ⟨Γ, returns, hshows, hcondition, hbody⟩ := hpt
      cases n with
      | zero => trivial
      | succ n =>
          have h : Here allowed s scope Γ := ⟨hordered, hs, hplaced, hshows⟩
          refine decided h hcondition fun b t ht => ?_
          cases b with
          | false => trivial
          | true =>
              refine .bind (block_executed ht hbody fun r u hu => ?_)
              cases r with
              | some v => trivial
              | none =>
                  exact ⟨(), fun _ => ⟨Γ, returns, hu.shows, hcondition, hbody⟩,
                    fun _ _ _ _ _ => trivial⟩
  | select depth scope v cases =>
      obtain ⟨Γ, T, returns, hshows, hvalues, hbodies⟩ := hpt
      cases cases with
      | nil => trivial
      | cons c rest =>
          obtain ⟨offset, value, body⟩ := c
          cases value with
          | none => trivial
          | some e =>
              have h : Here allowed s scope Γ := ⟨hordered, hs, hplaced, hshows⟩
              obtain ⟨he, hvalues⟩ := List.forall_mem_cons.mp hvalues
              refine .bind (evaluated h (he e rfl) fun w t ht _ => ?_)
              refine .bind (read (Run.equal_gives depth w v) ht.sound (fun b _ => ?_) fun _ => id)
              cases b with
              | true => trivial
              | false =>
                  have hrest := (List.forall_mem_cons.mp hbodies).2
                  exact ⟨(), fun _ => ⟨Γ, T, returns, ht.shows, hvalues, hrest⟩,
                    fun _ _ _ _ _ => trivial⟩
  | call depth r values => exact callPlan_meets hordered hs hpt.1 hpt.2
  | globals depth gs =>
      obtain ⟨hprints, Γ, Δ, hshows, hgs⟩ := hpt
      exact globals_meets ⟨hordered, hs, hordered.root_lt, hshows⟩ hprints hgs
  | program depth p =>
      obtain ⟨rfl, hp⟩ := hpt
      exact program_meets hp

end Resolution

theorem resolution_kept (allowed : Ty → Prop) (rounds : Nat) :
    (resolution allowed).Kept rounds Ready where
  closed := Ready.asks
  meets hready hs hpt := Resolution.plan_meets hs hready hpt

/-- What is so at every point of a run of a checked program. -/
structure Point.Known (allowed : Ty → Prop) (pt : Point) (s : Store) : Prop where
  ready : pt.Ready s
  sound : s.Sound allowed
  checked : pt.Checked allowed s

def Store.Finds (s : Store) (scope : Nat) (name : String) (slot : Option Variable) : Prop :=
  ∃ v home cell, slot = some v ∧ v.name = name ∧
    s.scopes.findVariable? scope name = some (home, cell) ∧ cell.type = v.type ∧
    cell.mutable = v.mutable

def Store.FindsFunction (s : Store) (scope : Nat) (name : String) (arity : Nat)
    (slot : Option Signature) : Prop :=
  ∃ signature r, slot = some signature ∧ signature.name = name ∧ signature.arity = arity ∧
    s.scopes.findFunction? scope name arity = some r ∧ r.signature = signature

/-- The name that is looked up at the point, if any, leads where the slot at the point says. -/
def Point.Resolved : Point → Store → Prop
  | expr _ scope (.access _ name slot), s
  | expr _ scope (.element _ name _ slot), s
  | stmt _ scope (.assignment _ (.access _ name slot) _), s
  | stmt _ scope (.assignment _ (.element _ name _ slot) _), s => s.Finds scope name slot
  | expr _ scope (.call _ name arguments slot), s => s.FindsFunction scope name arguments.length slot
  | _, _ => True

namespace Resolution

variable {allowed : Ty → Prop} {s : Store} {scope : Nat} {Γ : Env}

theorem Here.finds (h : Here allowed s scope Γ) {name : String} {slot : Option Variable} {b : Binding}
    (hb : Γ.vars name = some b) (hslot : (Slots.filled allowed).symbol slot name b) :
    s.Finds scope name slot := by
  obtain ⟨home, cell, hfound, rfl⟩ := h.found hb
  obtain ⟨v, hv, hname, htype, hmutable⟩ := Slots.exists_of_symbol hslot
  exact ⟨v, home, cell, hv, hname, hfound, htype.symm, hmutable.symm⟩

theorem Here.expr_resolved (h : Here allowed s scope Γ) (depth : Nat) {e : Expr} {T : Ty}
    (he : e.HasType (.filled allowed) Γ T) : (expr depth scope e).Resolved s := by
  cases he with
  | access hvar _ hslot => exact h.finds hvar hslot
  | element hvar _ _ hslot => exact h.finds hvar hslot
  | @call info name arguments slot signature types hfun _ _ _ _ hslot =>
      obtain ⟨r, hr, rfl, harity, _⟩ := h.routine hfun
      obtain ⟨i, hi⟩ := Store.routine?_of_findFunction? h.ordered hr
      exact ⟨r.signature, r, hslot.1, (h.sound i name _ r hi).1, harity, hr, rfl⟩
  | _ => trivial

theorem Here.stmt_resolved (h : Here allowed s scope Γ) (depth : Nat) {x : Stmt} {returns : Ty}
    {Δ : Env} (hx : x.Typed (.filled allowed) returns Γ Δ) : (stmt depth scope x).Resolved s := by
  cases hx with
  | assignment hreceiver _ _ _ | elementAssignment hreceiver _ _ _ =>
      exact h.expr_resolved depth hreceiver
  | _ => trivial

end Resolution

theorem Point.Known.resolved {allowed : Ty → Prop} {pt : Point} {s : Store}
    (h : pt.Known allowed s) : pt.Resolved s := by
  obtain ⟨⟨hordered, hplaced⟩, hs, hpt⟩ := h
  cases pt with
  | expr depth scope e =>
      obtain ⟨Γ, T, hshows, he⟩ := hpt
      exact Resolution.Here.expr_resolved ⟨hordered, hs, hplaced, hshows⟩ depth he
  | stmt depth scope x =>
      obtain ⟨Γ, Δ, returns, hshows, hx⟩ := hpt
      exact Resolution.Here.stmt_resolved ⟨hordered, hs, hplaced.2, hshows⟩ depth hx
  | _ => trivial

namespace Program

variable {allowed : Ty → Prop} {p q : Program}

theorem initial_ready (depth : Nat) (q : Program) : (program depth q).Ready Store.initial :=
  ⟨Store.initial_ordered, trivial⟩

theorem known_of_reaches (hq : q.Typed (.filled allowed)) {l : Limits} {pt : Point} {s : Store}
    (h : Reaches l.rounds (program l.depth q) Store.initial pt s) : pt.Known allowed s := by
  obtain ⟨hready, hsound, _, hpt⟩ := (resolution_kept allowed l.rounds).reaches (i := ())
    (initial_ready l.depth q) Store.initial_onlyPrints.sound ⟨rfl, hq⟩ h
  exact ⟨hready, hsound, hpt⟩

theorem stop_of_result {l : Limits} {why : Stop} (h : (q.runWithin l).result = .error why) :
    why = .tooDeep ∨ why = .fault ⟨.callDepth, none⟩ ∨
      ∃ s, (program l.depth q).run l.rounds Store.initial = (.error why, s) := by
  unfold runWithin at h
  split at h
  · next v s _ =>
      cases htext : s.heap.text? resultDepth v with
      | none =>
          rw [htext] at h
          cases h
          exact .inl rfl
      | some text =>
          rw [htext] at h
          cases h
  · cases h
    exact .inr (.inl rfl)
  · next stop s hne hrun =>
      cases h
      exact .inr (.inr ⟨s, hrun⟩)

/-- In every run of a checked program each name that is looked up leads to the variable or function
that checking has put in the slot, and the run never stops for a name or a node without a meaning. -/
theorem names_resolve {depth : Nat} (h : p.checkWithin depth = .ok q) (l : Limits) :
    (∀ pt s, Reaches l.rounds (program l.depth q) Store.initial pt s → pt.Resolved s) ∧
    ∀ why, (q.runWithin l).result = .error why → why.Ordinary := by
  obtain ⟨_, hq⟩ := checkWithin_sound  (fun _ _ => trivial)
    (fun _ _ => trivial) h
  constructor
  · exact fun pt s hreach => (known_of_reaches hq hreach).resolved
  · intro why hwhy
    obtain rfl | rfl | ⟨s, hrun⟩ := stop_of_result hwhy
    · trivial
    · exact id
    · have hkept := resolution_kept (fun _ => True) l.rounds
      have hends := (hkept.followed (i := ()) (initial_ready l.depth q)
        Store.initial_onlyPrints.sound ⟨rfl, hq⟩).1
      rw [hrun] at hends
      exact hends.2

/-- A function that adds to a global, called for an element of a list. -/
def adder : Program where
  globals := [⟨0, "total", "Integer", true, some (.literal ⟨0, none⟩ (.integer 2)), none⟩]
  functions := [
    ⟨0, "add", ["n"], ["Integer"], some "Integer", [
      .assignment 0 (.access ⟨0, none⟩ "total" none) (.binary ⟨0, none⟩ .add
        (.access ⟨0, none⟩ "total" none) (.access ⟨0, none⟩ "n" none)),
      .ret 0 (some (.access ⟨0, none⟩ "total" none))], none⟩,
    ⟨0, "main", [], [], some "Integer", [
      .declaration 0 "ns" none (some (.list ⟨0, none⟩ [.literal ⟨0, none⟩ (.integer 3),
        .literal ⟨0, none⟩ (.integer 4)])) none,
      .assignment 0 (.element ⟨0, none⟩ "ns" (.literal ⟨0, none⟩ (.integer 0)) none)
        (.call ⟨0, none⟩ "add" [.element ⟨0, none⟩ "ns" (.literal ⟨0, none⟩ (.integer 1)) none] none),
      .ret 0 (some (.access ⟨0, none⟩ "ns" none))], none⟩]

def adderChecked : Program :=
  let total : Variable := ⟨0, "total", "total", .integer, true⟩
  let n : Variable := ⟨1, "n", "n", .integer, true⟩
  let ns : Variable := ⟨2, "ns", "ns", .integer, true⟩
  let add : Signature := ⟨"add", "add", [.integer], .integer⟩
  let info : Info := ⟨0, some .integer⟩
  let number (n : Int) : Expr := .literal info (.integer n)
  { globals := [⟨0, "total", "Integer", true, some (number 2), some total⟩]
    functions := [
      ⟨0, "add", ["n"], ["Integer"], some "Integer", [
        .assignment 0 (.access info "total" (some total)) (.binary info .add
          (.access info "total" (some total)) (.access info "n" (some n))),
        .ret 0 (some (.access info "total" (some total)))], some add⟩,
      ⟨0, "main", [], [], some "Integer", [
        .declaration 0 "ns" none (some (.list info [number 3, number 4])) (some ns),
        .assignment 0 (.element info "ns" (number 0) (some ns))
          (.call info "add" [.element info "ns" (number 1) (some ns)] (some add)),
        .ret 0 (some (.access info "ns" (some ns)))], some ⟨"main", "main", [], .integer⟩⟩] }

theorem adder_check : adder.check = .ok adderChecked := rfl

theorem adder_names_resolve : adder.check = .ok adderChecked ∧
    (∀ pt s, Reaches Limits.standard.rounds (program Limits.standard.depth adderChecked)
      Store.initial pt s → pt.Resolved s) ∧
    ∀ why, adderChecked.run.result = .error why → why.Ordinary :=
  ⟨adder_check, names_resolve adder_check .standard⟩

end Program

end PlcLang
