import PlcLang.Proofs.RunFrame

namespace PlcLang

namespace Store

variable {s t : Store} {scope : Nat} {Γ : Env}

structure Shows (s : Store) (scope : Nat) (Γ : Env) : Prop where
  vars : ∀ name, s.visible? scope name = Γ.vars name
  funs : ∀ name arity,
    (s.scopes.findFunction? scope name arity).map Routine.signature = Γ.funs name arity

theorem Shows.of_keeps (h : s.Shows scope Γ) (hs : s.Ordered) (ht : t.Ordered) {bound : Nat}
    (hk : s.Keeps bound t) (hsize : scope < s.size) (hbound : scope < bound) : t.Shows scope Γ where
  vars name := (hk.visible? hs ht hsize hbound name).trans (h.vars name)
  funs name arity := by
    rw [hk.findFunction? hs ht hsize]
    exact h.funs name arity

theorem Shows.opened (h : s.Shows scope Γ) (hs : s.Ordered) (hsize : scope < s.size) :
    (s.opened scope).Shows s.size Γ.enter where
  vars name := (visible?_opened hs hsize name).trans (h.vars name)
  funs name arity := by
    rw [findFunction?_opened hs hsize]
    exact h.funs name arity

/-- What is visible from a scope, where the answers from outside of it are given. -/
theorem visible?_eq_or (hs : s.Ordered) (scope : Nat) :
    ∃ outer : String → Option Binding,
      (∀ name, s.visible? scope name = (s.binding? scope name).or (outer name)) ∧
      ∀ t : Store, t.Ordered → scope < s.size → s.Keeps scope t →
        ∀ name, t.visible? scope name = (t.binding? scope name).or (outer name) := by
  refine ⟨fun name => (s.parent? scope).bind (s.visible? · name), visible?_eq hs scope, ?_⟩
  intro t ht hsize hk name
  rw [visible?_eq ht, hk.parent scope hsize]
  cases hp : s.parent? scope with
  | none => rfl
  | some p =>
      have hlt := hs.older scope p hp
      simp only [Option.bind_some]
      rw [hk.visible? hs ht (hlt.trans hsize) hlt]

/-- Where own variables are the only change, the environment changes like them. -/
theorem Shows.of_own (h : s.Shows scope Γ) (hs : s.Ordered) (ht : t.Ordered)
    (hsize : scope < s.size) (hk : s.Keeps scope t) {Δ : Env} (hfuns : Δ.funs = Γ.funs)
    (hown : ∀ outer : String → Option Binding,
      (∀ name, (s.binding? scope name).or (outer name) = Γ.vars name) →
      ∀ name, (t.binding? scope name).or (outer name) = Δ.vars name) : t.Shows scope Δ where
  vars name := by
    obtain ⟨outer, hvis, hvis'⟩ := visible?_eq_or hs scope
    rw [hvis' t ht hsize hk]
    exact hown outer (fun n => (hvis n).symm.trans (h.vars n)) name
  funs name arity := by
    rw [hk.findFunction? hs ht hsize, hfuns]
    exact h.funs name arity

theorem or_update {own outer : String → Option Binding} {Γ : Env}
    (h : ∀ name, (own name).or (outer name) = Γ.vars name) (key : String) (b : Binding)
    (name : String) : (Function.update own key (some b) name).or (outer name) =
      (Γ.declare key b).vars name := by
  simp only [Env.declare, Function.update_apply]
  split
  · rfl
  · exact h name

theorem Shows.define (h : s.Shows scope Γ) (hs : s.Ordered) (hsize : scope < s.size) (name : String)
    (cell : Cell) : (s.define scope name cell).Shows scope (Γ.declare name cell.binding) := by
  refine h.of_own hs (hs.define scope name cell) hsize (.define_below s scope name cell) rfl ?_
  intro outer houter n
  rw [binding?_define_self hsize]
  exact or_update houter name cell.binding n

theorem Shows.bindParameters (h : s.Shows scope Γ) (names : List String) (types : List Ty)
    (values : List Value) (hs : s.Ordered) (hsize : scope < s.size)
    (hlen : values.length = types.length) :
    (s.bindParameters scope names types values).Shows scope
      (Γ.withParameters (names.zip types)) := by
  induction names generalizing types values s Γ with
  | nil => exact h
  | cons name names ih =>
      cases types with
      | nil => exact h
      | cons type types =>
          cases values with
          | nil => cases hlen
          | cons value values =>
              have hshows := h.define hs hsize name ⟨type, true, value⟩
              refine ih hshows types values (hs.define scope name _) ?_ (Nat.succ.inj hlen)
              rw [size_define]
              exact hsize

end Store

variable {allowed : Ty → Prop}

theorem Slots.exists_of_symbol {slot : Option Variable} {name : String} {b : Binding}
    (h : (Slots.filled allowed).symbol slot name b) :
    ∃ v, slot = some v ∧ v.name = name ∧ v.type = b.type ∧ v.mutable = b.mutable := by
  obtain ⟨⟨v, hv, hname, _, rfl⟩, _⟩ := h
  exact ⟨v, hv, hname, rfl, rfl⟩

theorem Expr.HasType.element_parts {σ : Slots} {Γ : Env} {info : Info} {name : String} {index : Expr}
    {slot : Option Variable} {T : Ty} (h : (Expr.element info name index slot).HasType σ Γ T) :
    index.HasType σ Γ .integer ∧ ∃ b : Binding, b.type = T ∧ σ.symbol slot name b := by
  cases h with
  | element _ hindex _ hslot => exact ⟨hindex, _, rfl, hslot⟩

/-- A statement that is executed changes what its scope shows as the rules say. -/
theorem Store.Shows.after_stmt {s t : Store} {scope : Nat} {Γ Δ : Env} {returns : Ty} {x : Stmt}
    (h : s.Shows scope Γ) (hs : s.Ordered) (ht : t.Ordered) (hsize : scope < s.size)
    (hk : s.Keeps scope t) (hown : t.binding? scope = x.declare (s.binding? scope))
    (htyped : x.Typed (.filled allowed) returns Γ Δ) : t.Shows scope Δ := by
  have hsame (hx : ∀ own, x.declare own = own) : t.Shows scope Γ :=
    h.of_own hs ht hsize hk rfl fun outer houter name => by
      rw [hown, hx]
      exact houter name
  cases htyped with
  | declarationOfType _ hslot | declarationOfValue _ _ hslot | declarationOfBoth _ _ _ hslot =>
      obtain ⟨v, rfl, _, hv, _⟩ := Slots.exists_of_symbol hslot
      refine h.of_own hs ht hsize hk rfl fun outer houter name => ?_
      rw [hown, Stmt.declare, hv]
      exact or_update houter _ _ name
  | _ => exact hsame fun _ => rfl

theorem Global.ListTyped.funs_eq {σ : Slots} {Γ Δ : Env} {gs : List Global}
    (h : Global.ListTyped σ Γ gs Δ) : Δ.funs = Γ.funs := by
  induction h with
  | nil => rfl
  | cons _ _ ih => exact ih

theorem Store.Shows.after_globals {s t : Store} {Γ Δ : Env} {gs : List Global}
    (h : s.Shows root Γ) (hs : s.Ordered) (ht : t.Ordered) (hk : s.Keeps root t)
    (hown : t.binding? root = gs.foldl (fun own g => g.declare own) (s.binding? root))
    (htyped : Global.ListTyped (.filled allowed) Γ gs Δ) : t.Shows root Δ := by
  refine h.of_own hs ht hs.root_lt hk htyped.funs_eq fun outer houter => ?_
  rw [hown]
  clear h hown
  generalize s.binding? root = own at houter ⊢
  induction htyped generalizing own with
  | nil => exact houter
  | @cons Γ Δ g rest T hg _ ih =>
      obtain ⟨_, _, _, hslot⟩ := hg
      obtain ⟨v, hv, _, htype, _⟩ := Slots.exists_of_symbol hslot
      refine ih (g.declare own) fun name => ?_
      have hdeclare : g.declare own = Function.update own g.name (some ⟨T, g.mutable⟩) := by
        rw [Global.declare, hv]
        dsimp only
        rw [htype]
      rw [hdeclare]
      exact or_update houter g.name ⟨T, g.mutable⟩ name

end PlcLang
