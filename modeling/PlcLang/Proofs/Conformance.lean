import PlcLang.Proofs.ListTypes
import PlcLang.Proofs.RunPrefixes
import PlcLang.Proofs.Resolution

namespace PlcLang

open Plan Point

theorem Expr.HasType.slot_eq {allowed : Ty → Prop} {Γ : Env} {e : Expr} {T : Ty}
    (h : e.HasType (.filled allowed) Γ T) : e.info.type = some T ∧ allowed T := by
  cases h with
  | literal _ hslot | group _ hslot | binary _ _ _ hslot | access _ hslot _
  | element _ _ hslot _ | call _ _ _ _ hslot _ | list _ _ hslot => exact hslot

/-- The value agrees with the type that checking has put in the expression. -/
def Value.Suits (types : List Ty) (e : Expr) (v : Value) : Prop :=
  ∀ T, e.info.type = some T → v.Conforms types T

/-- The value is not of the type: it is a scalar of another type, or a list that was made for
another type. -/
def Value.Foreign (made : Nat → Ty → Prop) (T : Ty) : Value → Prop
  | nil => False
  | list a => ∃ S, made a S ∧ S ≠ T
  | v => v.typeName ≠ T.name

theorem Value.Conforms.of_not_foreign {made : Nat → Ty → Prop} {types : List Ty} {S T : Ty}
    {v : Value} (h : v.Conforms types S) (hmade : ∀ a R, types[a]? = some R → made a R)
    (hv : T.Concrete → ¬ v.Foreign made T) : v.Conforms types T := by
  cases v with
  | nil => trivial
  | list a =>
      obtain ⟨R, hR, _⟩ := h
      exact ⟨R, hR, fun hT => by_contra fun hne => hv hT ⟨R, hmade a R hR, hne⟩⟩
  | _ => exact fun hT => not_not.mp (hv hT)

namespace Point

/-- The list at the address is what a list expression of the type gives. -/
inductive Makes (rounds : Nat) : Point → Store → Nat → Ty → Prop
  | mk {depth scope address : Nat} {info : Info} {es : List Expr} {s t : Store} {T : Ty} :
      (expr depth scope (.list info es)).run rounds s = (.ok (.list address), t) →
      info.type = some T → Makes rounds (expr depth scope (.list info es)) s address T

/-- Through a variable of type Any or Comparable, a value is assigned to an element of a list that
was made for values of another type. -/
inductive Breaks (rounds : Nat) (made : Nat → Ty → Prop) : Point → Store → Prop
  | mk {s t u : Store} {depth scope offset address i : Nat} {info : Info} {name : String}
      {index value : Expr} {slot : Variable} {found : Nat × Cell} {v w : Value} {T : Ty} :
      ¬ slot.type.Concrete → s.scopes.findVariable? scope name = some found →
      found.2.value = .list address → (expr depth scope index).run rounds s = (.ok v, t) →
      Run.position (s.heap.elements address).size index.offset v t = (.ok i, t) →
      (expr depth scope value).run rounds t = (.ok w, u) →
      made address T → T.Concrete → w.Foreign made T →
      Breaks rounds made
        (stmt (depth + 1) scope (.assignment offset (.element info name index (some slot)) value)) s

def Takes (types : List Ty) : Point → Prop
  | call _ r values => List.Forall₂ (fun T v => v.Conforms types T) r.signature.parameters values
  | _ => True

def Gives (allowed : Ty → Prop) (types : List Ty) : (pt : Point) → pt.Result → Prop
  | expr _ _ e, v => v.Suits types e
  | exprs _ _ es, vs => List.Forall₂ (fun e v => v.Suits types e) es vs
  | stmt _ _ x, r => ∀ v returns Γ Δ, r = some v → x.Typed (.filled allowed) returns Γ Δ →
    v.Conforms types returns
  | stmts _ _ xs, r | loop _ _ _ _ xs, r => ∀ v returns Γ, r = some v →
    Stmt.BlockTyped (.filled allowed) returns Γ xs → v.Conforms types returns
  | call _ r _, v => v.Conforms types r.signature.returns
  | program .., v => v.Conforms types .integer
  | select .., _ | globals .., _ => True

end Point

/-- The type of a list's elements is fixed when the list is made; lists that are made later come
after. -/
def conformance (allowed : Ty → Prop) (made : Nat → Ty → Prop) : Contract (List Ty) where
  inv s := ∃ types, s.Agrees allowed made types
  stops _ := True
  pre types pt s := s.Agrees allowed made types ∧ pt.Takes types
  post types pt _ r t := ∃ types', types <+: types' ∧ t.Agrees allowed made types' ∧
    pt.Gives allowed types' r

namespace Conformance

variable {allowed : Ty → Prop} {made : Nat → Ty → Prop} {rounds depth scope : Nat} {s t : Store}
  {Γ : Env} {α : Type} {types : List Ty} {fact : Point → Store → Prop}

theorem read {m : Run α} {P : α → Prop} {Q : Stop → Prop} {Φ : α → Store → Prop}
    (h : m.Gives s P Q) (hs : s.Agrees allowed made types) (hΦ : ∀ a, P a → Φ a s) :
    (atomic m).Meets (run rounds) ((conformance allowed made).after fact) Φ s :=
  (meets_atomic m s).mpr (h.ends ⟨types, hs⟩ hΦ fun _ _ => trivial)

theorem evaluated {e : Expr} {T : Ty} {Φ : Value → Store → Prop} (hs : s.Agrees allowed made types)
    (he : e.HasType (.filled allowed) Γ T)
    (hΦ : ∀ v t types', types <+: types' → t.Agrees allowed made types' → v.Conforms types' T → Φ v t) :
    (eval depth scope e).Meets (run rounds) ((conformance allowed made).after fact) Φ s := by
  refine ⟨types, ⟨hs, trivial⟩, ?_⟩
  rintro v t - - ⟨-, types', hle, ht, hv⟩
  exact hΦ v t types' hle ht (hv T he.slot_eq.1)

theorem decided {e : Expr} {T : Ty} {f : Bool → Plan α} {Φ : α → Store → Prop}
    (hs : s.Agrees allowed made types) (he : e.HasType (.filled allowed) Γ T)
    (hf : ∀ b t types', types <+: types' → t.Agrees allowed made types' →
      (f b).Meets (run rounds) ((conformance allowed made).after fact) Φ t) :
    (do
      let v ← eval depth scope e
      let b ← atomic (Run.truth e.offset v)
      f b).Meets (run rounds) ((conformance allowed made).after fact) Φ s :=
  .bind (evaluated hs he fun v t types' hle ht _ =>
    .bind (read (Run.truth_gives _ v) ht fun b _ => hf b t types' hle ht))

theorem allEvaluated {es : List Expr} {Φ : List Value → Store → Prop} (hs : s.Agrees allowed made types)
    (hΦ : ∀ vs t types', types <+: types' → t.Agrees allowed made types' →
      List.Forall₂ (fun e v => v.Suits types' e) es vs → Φ vs t) :
    (evalAll depth scope es).Meets (run rounds) ((conformance allowed made).after fact) Φ s := by
  refine ⟨types, ⟨hs, trivial⟩, ?_⟩
  rintro vs t - - ⟨-, types', hle, ht, hvs⟩
  exact hΦ vs t types' hle ht hvs

theorem block_executed {xs : List Stmt} {Φ : Option Value → Store → Prop}
    (hs : s.Agrees allowed made types)
    (hΦ : ∀ r t types', types <+: types' → t.Agrees allowed made types' →
      (stmts depth scope xs).Gives allowed types' r → Φ r t) :
    (blockPlan depth scope xs).Meets (run rounds) ((conformance allowed made).after fact) Φ s := by
  have hopened := hs.opened scope
  refine .bind ((meets_atomic _ s).mpr ⟨⟨types, hopened⟩, types, ⟨hopened, trivial⟩, ?_⟩)
  rintro r t - - ⟨-, types', hle, ht, hr⟩
  exact hΦ r t types' hle ht hr

theorem arguments_conform {parameters S : List Ty} {arguments : List Expr} {values : List Value}
    (hacc : List.Forall₂ Ty.Accepts parameters S) (hlen : arguments.length = S.length)
    (hargs : ∀ p ∈ arguments.zip S, p.1.HasType (.filled allowed) Γ p.2)
    (hvalues : List.Forall₂ (fun e v => v.Suits types e) arguments values) :
    List.Forall₂ (fun T v => v.Conforms types T) parameters values := by
  induction hacc generalizing arguments values with
  | nil =>
      obtain rfl := List.length_eq_zero_iff.mp hlen
      cases hvalues
      exact .nil
  | cons hT _ ih =>
      cases hvalues with
      | nil => cases hlen
      | cons hv hvalues =>
          rw [List.zip_cons_cons, List.forall_mem_cons] at hargs
          have hconforms := hv _ hargs.1.slot_eq.1
          exact .cons (hconforms.of_accepts hT) (ih (Nat.succ.inj hlen) hargs.2 hvalues)

theorem elements_conform {es : List Expr} {vs : List Value} {T : Ty}
    (hes : ∀ e ∈ es, e.HasType (.filled allowed) Γ T)
    (hvs : List.Forall₂ (fun e v => v.Suits types e) es vs) : ∀ v ∈ vs, v.Conforms types T := by
  induction hvs with
  | nil => exact nofun
  | cons hv _ ih =>
      obtain ⟨he, hes⟩ := List.forall_mem_cons.mp hes
      exact List.forall_mem_cons.mpr ⟨hv T he.slot_eq.1, ih hes⟩

theorem result_of_logical {op : BinOp} {L R T : Ty} (h : op.HasType L R T)
    (hop : op = .and ∨ op = .or) : T = .boolean := by
  obtain rfl | rfl := hop <;> cases h with
  | logical | order | equality => rfl
  | arithmetic h => simp at h

theorem found_conforms (hs : s.Agrees allowed made types) (hhere : Resolution.Here allowed s scope Γ)
    {name : String} {b : Binding} (hb : Γ.vars name = some b) {found : Nat × Cell}
    (hfound : s.scopes.findVariable? scope name = some found) :
    found.2.value.Conforms types b.type := by
  obtain ⟨home, cell, hfound', rfl⟩ := hhere.found hb
  cases hfound.symm.trans hfound'
  exact (hs.cells home name cell (Store.cell?_of_findVariable? hhere.ordered hfound)).2

theorem exprPlan_meets (hs : s.Agrees allowed made types) (hhere : Resolution.Here allowed s scope Γ)
    {e : Expr} {T : Ty} (he : e.HasType (.filled allowed) Γ T)
    (hmakes : ∀ a T, (expr (depth + 1) scope e).Makes rounds s a T → made a T) :
    (exprPlan depth scope e).Meets (run rounds) ((conformance allowed made).after fact)
      (fun v t => ∃ types', types <+: types' ∧ t.Agrees allowed made types' ∧ v.Conforms types' T) s := by
  cases he with
  | literal hvalue _ => exact ⟨types, List.prefix_rfl, hs, .of_literal hvalue⟩
  | group hinner _ =>
      exact evaluated hs hinner fun v t types' hle ht hv => ⟨types', hle, ht, hv⟩
  | @binary info op left right L R T hleft hright hop _ =>
      have hboolean {t : Store} {types' : List Ty} (hle : types <+: types')
          (ht : t.Agrees allowed made types') (hT : T = .boolean) (b : Bool) :
          ∃ types', types <+: types' ∧ t.Agrees allowed made types' ∧
            (Value.boolean b).Conforms types' T :=
        ⟨types', hle, ht, fun _ => hT ▸ rfl⟩
      cases op with
      | and =>
          have hT := result_of_logical hop (.inl rfl)
          refine decided hs hleft fun b t types₁ hle ht => ?_
          cases b with
          | false => exact hboolean hle ht hT false
          | true =>
              exact decided ht hright fun b u types₂ hle' hu => hboolean (hle.trans hle') hu hT b
      | or =>
          have hT := result_of_logical hop (.inr rfl)
          refine decided hs hleft fun b t types₁ hle ht => ?_
          cases b with
          | false =>
              exact decided ht hright fun b u types₂ hle' hu => hboolean (hle.trans hle') hu hT b
          | true => exact hboolean hle ht hT true
      | _ =>
          refine .bind (evaluated hs hleft fun v t types₁ hle ht hv =>
            .bind (evaluated ht hright fun w u types₂ hle' hu hw =>
              read (Run.operate_gives depth info.offset _ v w) hu fun r hr => ?_))
          exact ⟨types₂, hle.trans hle', hu, hr.conforms hop (hv.mono hle') hw⟩
  | access hvar _ _ =>
      refine .bind (read (Run.lookup_gives scope _ _) hs fun found hfound => ?_)
      exact ⟨types, List.prefix_rfl, hs, found_conforms hs hhere hvar hfound⟩
  | @element info name index slot b hvar hindex _ _ =>
      refine .bind (read (Run.lookup_gives scope name _) hs fun found hfound => ?_)
      refine .bind (read (Run.addressOf_gives name _ found.2.value) hs fun address haddress => ?_)
      have hlist := found_conforms hs hhere hvar hfound
      rw [haddress] at hlist
      refine .bind (read (Run.lengthOf_gives address) hs fun length _ => ?_)
      refine .bind (evaluated hs hindex fun v t types₁ hle ht _ => ?_)
      refine .bind (read (Run.position_gives length _ v) ht fun i _ => ?_)
      refine .bind (read (Run.elements_gives address) ht ?_)
      rintro vs rfl
      -- The index may have run code that writes to the list, but its type is the same as before.
      obtain ⟨S, hS, hsame⟩ := hlist.mono hle
      have helement : ((t.heap.elements address).getD i .nil).Conforms types₁ S := by
        rw [Array.getD_eq_getD_getElem?]
        cases hget : (t.heap.elements address)[i]? with
        | none => trivial
        | some w => exact ht.elements address S hS w (Array.mem_of_getElem? hget)
      exact ⟨types₁, hle, ht, helement.imp hsame⟩
  | @call info name arguments slot signature S hs' hacc hlen hargs _ _ =>
      obtain ⟨r, hr, rfl, _⟩ := hhere.routine hs'
      refine .bind (read (Run.lookupRoutine_gives scope name _ _) hs ?_)
      intro r' hr'
      cases hr.symm.trans hr'
      refine .bind (allEvaluated hs fun vs t types₁ hle ht hvs => ?_)
      refine ⟨types₁, ⟨ht, arguments_conform hacc hlen hargs hvs⟩, ?_⟩
      rintro v u - - ⟨-, types₂, hle', hu, hv⟩
      exact ⟨types₂, hle.trans hle', hu, hv⟩
  | @list info elements T hne hall hslot =>
      refine .bind ⟨types, ⟨hs, trivial⟩, ?_⟩
      rintro vs t hrun - ⟨-, types₁, hle, ht, hvs⟩
      have hmade : made t.heap.lists.size T := by
        refine hmakes _ _ (.mk (t := t.alloc vs) ?_ hslot.1)
        rw [run_eq_follow]
        exact follow_ask_ok hrun
      have halloc := ht.alloc (elements_conform hall hvs) hmade
      refine (meets_atomic (Run.alloc vs) t).mpr ?_
      refine ⟨⟨_, halloc⟩, _, hle.trans (List.prefix_append types₁ [T]), halloc, T, ?_, fun _ => rfl⟩
      rw [← ht.length]
      exact List.getElem?_concat_length

theorem defined (hs : s.Agrees allowed made types) (name : String) (cell : Cell)
    (htype : allowed cell.type) (hcell : cell.value.Conforms types cell.type)
    {Φ : Unit → Store → Prop}
    (hΦ : ∀ t : Store, t.Agrees allowed made types → Φ () t) :
    (atomic (Run.define scope name cell)).Meets (run rounds)
      ((conformance allowed made).after fact) Φ s := by
  have hdefine := hs.define scope name htype hcell
  exact (meets_atomic _ s).mpr ⟨⟨types, hdefine⟩, hΦ _ hdefine⟩

theorem declared (hs : s.Agrees allowed made types) {name : String} {slot : Variable} {T : Ty}
    {v : Value} (hslot : (Slots.filled allowed).symbol (some slot) name ⟨T, true⟩) (hv : v.Conforms types T)
    {Φ : Unit → Store → Prop} (hΦ : ∀ t : Store, t.Agrees allowed made types → Φ () t) :
    (atomic (Run.define scope name ⟨slot.type, true, v⟩)).Meets (run rounds)
      ((conformance allowed made).after fact) Φ s := by
  obtain ⟨_, hsome, _, htype, _⟩ := Slots.exists_of_symbol hslot
  cases hsome
  have hT : slot.type = T := htype
  exact defined hs name _ (hT ▸ hslot.2) (hT ▸ hv) hΦ

theorem stmtPlan_meets (hknown : ∀ pt s, fact pt s → pt.Known allowed s)
    (hs : s.Agrees allowed made types) (hhere : Resolution.Here allowed s scope Γ)
    {x : Stmt} (hwhole : ¬ (stmt (depth + 1) scope x).Breaks rounds made s) {returns : Ty} {Δ : Env}
    (hx : x.Typed (.filled allowed) returns Γ Δ) :
    (stmtPlan rounds depth scope x).Meets (run rounds) ((conformance allowed made).after fact)
      (fun r t => ∃ types', types <+: types' ∧ t.Agrees allowed made types' ∧
        (stmt (depth + 1) scope x).Gives allowed types' r) s := by
  have hnone {t : Store} {types' : List Ty} (hle : types <+: types')
      (ht : t.Agrees allowed made types') :
      ∃ types', types <+: types' ∧ t.Agrees allowed made types' ∧
        (stmt (depth + 1) scope x).Gives allowed types' none :=
    ⟨types', hle, ht, nofun⟩
  cases hx with
  | expression hcall =>
      exact .bind (evaluated hs hcall fun _ _ _ hle ht _ => hnone hle ht)
  | declarationOfType _ hslot =>
      obtain ⟨v, rfl, _⟩ := Slots.exists_of_symbol hslot
      exact .bind (declared (v := .nil) hs hslot trivial fun t ht => hnone List.prefix_rfl ht)
  | declarationOfValue hvalue _ hslot =>
      obtain ⟨v, rfl, _⟩ := Slots.exists_of_symbol hslot
      exact .bind (evaluated hs hvalue fun v t types₁ hle ht hv =>
        .bind (declared ht hslot hv fun u hu => hnone hle hu))
  | declarationOfBoth hvalue hacc _ hslot =>
      obtain ⟨v, rfl, _⟩ := Slots.exists_of_symbol hslot
      exact .bind (evaluated hs hvalue fun v t types₁ hle ht hv =>
        .bind (declared ht hslot (hv.of_accepts hacc) fun u hu => hnone hle hu))
  | @assignment _ offset info name slot value T S _ hvar hvalue hacc =>
      refine .bind (read (Run.lookup_gives scope name _) hs fun found hfound => ?_)
      refine .bind (read (Run.requireMutable_gives found.2 name offset) hs fun _ _ => ?_)
      refine .bind (evaluated hs hvalue fun v t types₁ hle ht hv => .bind ?_)
      obtain ⟨home, cell, hfound', hcell⟩ := hhere.found hvar
      cases hfound.symm.trans hfound'
      have hT : cell.type = T := congrArg Binding.type hcell
      have hallowed := (hs.cells home name cell
        (Store.cell?_of_findVariable? hhere.ordered hfound)).1
      have hconforms : v.Conforms types₁ cell.type := hT ▸ hv.of_accepts hacc
      exact defined ht name { cell with value := v } hallowed hconforms fun u hu => hnone hle hu
  | @elementAssignment _ offset info name index slot value T S hreceiver hvar hvalue hacc =>
      obtain ⟨hindex, b, rfl, hslot⟩ := hreceiver.element_parts
      refine .bind (read (Run.lookup_gives scope name _) hs fun found hfound => ?_)
      refine .bind (read (Run.requireMutable_gives found.2 name offset) hs fun _ _ => ?_)
      refine .bind (read (Run.addressOf_gives name _ found.2.value) hs fun address haddress => ?_)
      have hlist := found_conforms hs hhere hvar hfound
      rw [haddress] at hlist
      refine .bind (read (Run.lengthOf_gives address) hs ?_)
      rintro length rfl
      refine .bind ⟨types, ⟨hs, trivial⟩, ?_⟩
      rintro v t hindexrun - ⟨-, types₁, hle, ht, -⟩
      refine .bind (read (Run.position_gives _ _ v).self ht fun i hi => ?_)
      refine .bind ⟨types₁, ⟨ht, trivial⟩, ?_⟩
      rintro w u hvaluerun - ⟨-, types₂, hle', hu, hw⟩
      have hw := (hw S hvalue.slot_eq.1).of_accepts hacc
      obtain ⟨⟨x, rfl, _, _, rfl⟩, _⟩ := hslot
      have hkept (R : Ty) (hR : types₂[address]? = some R) : w.Conforms types₂ R := by
        by_cases hx : x.type.Concrete
        · -- The variable takes values of one type only, and the list was made for this type.
          obtain ⟨R', hR', hsame⟩ := hlist.mono (hle.trans hle')
          cases hR.symm.trans hR'
          exact hw.imp fun _ => (hsame hx).symm
        · exact hw.of_not_foreign hu.made fun hconcrete hforeign => hwhole
            (.mk hx hfound haddress hindexrun hi hvaluerun (hu.made _ R hR) hconcrete hforeign)
      have hwrite := hu.write hkept i
      exact .bind ((meets_atomic _ u).mpr ⟨⟨types₂, hwrite⟩, hnone (hle.trans hle') hwrite⟩)
  | ifElse hcondition _ _ _ =>
      refine decided hs hcondition fun b t types₁ hle ht => ?_
      cases b with
      | false =>
          refine block_executed ht fun r u types₂ hle' hu hr => ⟨types₂, hle.trans hle', hu, ?_⟩
          intro v returns Γ' Δ' hv htyped
          cases htyped with
          | ifElse _ _ _ helse => exact hr v returns _ hv helse
      | true =>
          refine block_executed ht fun r u types₂ hle' hu hr => ⟨types₂, hle.trans hle', hu, ?_⟩
          intro v returns Γ' Δ' hv htyped
          cases htyped with
          | ifElse _ _ hthen _ => exact hr v returns _ hv hthen
  | @switch _ offset condition cases T last hcondition _ _ _ _ =>
      refine .bind (evaluated hs hcondition fun v t types₁ hle ht _ => ?_)
      refine .bind ⟨types₁, ⟨ht, trivial⟩, ?_⟩
      rintro body u hrun - ⟨hfact, types₂, hle', hu, -⟩
      obtain ⟨_, _, hcases⟩ := (hknown _ _ hfact).ready.framed hrun
      refine block_executed hu fun r w types₃ hle'' hw hr =>
        ⟨types₃, (hle.trans hle').trans hle'', hw, ?_⟩
      intro v returns Γ' Δ' hv htyped
      have hbody : Stmt.BlockTyped (.filled allowed) returns Γ'.enter body := by
        obtain rfl | ⟨c, hc, rfl⟩ := hcases
        · exact .nil
        · cases htyped with
          | switch _ _ hbodies _ _ => exact hbodies c hc
      exact hr v returns _ hv hbody
  | whileDo hcondition hbody =>
      refine ⟨types, ⟨hs, trivial⟩, ?_⟩
      rintro r t - - ⟨-, types', hle, ht, hr⟩
      refine ⟨types', hle, ht, fun v returns Γ' Δ' hv htyped => ?_⟩
      cases htyped with
      | whileDo _ hbody => exact hr v returns _ hv hbody
  | bareReturn =>
      refine ⟨types, List.prefix_rfl, hs, ?_⟩
      rintro _ returns Γ' Δ' ⟨⟩ -
      trivial
  | valueReturn hvalue =>
      refine .bind (evaluated hs hvalue fun v t types' hle ht hv => ⟨types', hle, ht, ?_⟩)
      rintro _ returns Γ' Δ' ⟨⟩ htyped
      cases htyped with
      | valueReturn hvalue' hacc =>
          cases hvalue.slot_eq.1.symm.trans hvalue'.slot_eq.1
          exact hv.of_accepts hacc

theorem callPlan_meets (hs : s.Agrees allowed made types) {r : Routine} {values : List Value}
    (hr : s.Fits allowed r)
    (hvalues : List.Forall₂ (fun T v => v.Conforms types T) r.signature.parameters values) :
    (callPlan depth r values).Meets (run rounds) ((conformance allowed made).after fact)
      (fun v t => ∃ types', types <+: types' ∧ t.Agrees allowed made types' ∧
        v.Conforms types' r.signature.returns) s := by
  obtain rfl | ⟨parameters, statements, Γ, hbody, _, htyped, hparameters, _⟩ := hr
  · refine .bind (read (Run.text_gives depth _) hs fun text _ => .bind ((meets_atomic _ s).mpr ?_))
    have hprinted : Store.Agrees allowed made types { s with output := s.output ++ text ++ "\n" } :=
      hs.of_eq rfl fun _ _ => rfl
    exact ⟨⟨types, hprinted⟩, types, List.prefix_rfl, hprinted, trivial⟩
  · rw [callPlan, hbody]
    have hopened := hs.opened Store.root
    have hbound := hopened.bindParameters s.size parameters hparameters hvalues
    refine .bind ((meets_atomic _ s).mpr ⟨⟨types, hopened⟩, .bind ((meets_atomic _ _).mpr ?_)⟩)
    rw [Run.bindParameters_eq]
    refine ⟨⟨types, hbound⟩, .bind ⟨types, ⟨hbound, trivial⟩, ?_⟩⟩
    rintro result t - - ⟨-, types', hle, ht, hresult⟩
    refine ⟨types', hle, ht, ?_⟩
    cases result with
    | none => trivial
    | some v => exact hresult v _ _ rfl htyped

theorem globals_meets (hs : s.Agrees allowed made types) {gs : List Global} {Δ : Env}
    (hgs : Global.ListTyped (.filled allowed) Γ gs Δ) :
    ((globals depth gs).plan rounds).Meets (run rounds) ((conformance allowed made).after fact)
      ((conformance allowed made).post types (globals depth gs) s) s := by
  cases hgs with
  | nil => exact ⟨types, List.prefix_rfl, hs, trivial⟩
  | @cons _ _ g rest T hg _ =>
      obtain ⟨offset, name, typeName, mutable, value, slot⟩ := g
      obtain ⟨_, hvalue, _, hslot⟩ := hg
      obtain ⟨b, hb, _, htype, _⟩ := Slots.exists_of_symbol hslot
      cases hb
      have hT : b.type = T := htype
      have hnext {t : Store} {types₁ : List Ty} (hle : types <+: types₁)
          (ht : t.Agrees allowed made types₁) {v : Value} (hv : v.Conforms types₁ T) :
          (do
            atomic (Run.define Store.root name ⟨b.type, mutable, v⟩)
            initAll depth rest : Plan Unit).Meets (run rounds)
            ((conformance allowed made).after fact) (fun _ u => ∃ types', types <+: types' ∧
              u.Agrees allowed made types' ∧ True) t := by
        refine .bind (defined ht name _ (hT ▸ hslot.2) (hT ▸ hv) fun u hu => ?_)
        refine ⟨types₁, ⟨hu, trivial⟩, ?_⟩
        rintro r w - - ⟨-, types₂, hle', hw, -⟩
        exact ⟨types₂, hle.trans hle', hw, trivial⟩
      cases value with
      | none => exact hnext (v := .nil) List.prefix_rfl hs trivial
      | some e =>
          obtain ⟨S, he, hacc⟩ := hvalue e rfl
          exact .bind (evaluated hs he fun v t types₁ hle ht hv =>
            hnext hle ht (hv.of_accepts hacc))

theorem program_meets (hknown : ∀ pt s, fact pt s → pt.Known allowed s) {p : Program}
    (hp : p.Typed (.filled allowed)) (hs : Store.initial.Agrees allowed made types) :
    ((program depth p).plan rounds).Meets (run rounds) ((conformance allowed made).after fact)
      ((conformance allowed made).post types (program depth p) Store.initial) Store.initial := by
  refine .bind ⟨types, ⟨hs, trivial⟩, ?_⟩
  rintro _ t hrun - ⟨hglobals, types₁, hle, ht, -⟩
  obtain ⟨hordered, hframed⟩ := (hknown _ _ hglobals).ready.framed hrun
  obtain ⟨rs, r, _, hadd, _, hr, hreturns, harity, _⟩ := Resolution.main_ready hp hordered hframed
  have hadded := ht.withRoutines rs
  refine .bind ((meets_atomic _ t).mpr ?_)
  rw [hadd]
  refine ⟨⟨types₁, hadded⟩, .bind (read Run.lookupMain_gives hadded ?_)⟩
  intro r' hr'
  cases hr.symm.trans hr'
  have hnil : r.signature.parameters = [] := List.length_eq_zero_iff.mp harity
  refine ⟨types₁, ⟨hadded, ?_⟩, ?_⟩
  · rw [Takes, hnil]
    exact .nil
  · rintro v u - - ⟨-, types₂, hle', hu, hv⟩
    have hv : v.Conforms types₂ r.signature.returns := hv
    rw [hreturns] at hv
    exact ⟨types₂, hle.trans hle', hu, hv⟩

theorem plan_meets (hknown : ∀ pt s, fact pt s → pt.Known allowed s) {pt : Point}
    (hpoint : pt.Known allowed s) (hwhole : ¬ pt.Breaks rounds made s)
    (hmakes : ∀ a T, pt.Makes rounds s a T → made a T) (hs : s.Agrees allowed made types)
    (htakes : pt.Takes types) :
    (pt.plan rounds).Meets (run rounds) ((conformance allowed made).after fact)
      ((conformance allowed made).post types pt s) s := by
  obtain ⟨⟨hordered, hplaced⟩, hsound, hpt⟩ := hpoint
  cases pt with
  | expr depth scope e =>
      obtain ⟨Γ, T, hshows, he⟩ := hpt
      cases depth with
      | zero => trivial
      | succ depth =>
          refine (exprPlan_meets hs ⟨hordered, hsound, hplaced, hshows⟩ he hmakes).imp ?_
          rintro v t ⟨types', hle, ht, hv⟩
          refine ⟨types', hle, ht, fun S hS => ?_⟩
          cases he.slot_eq.1.symm.trans hS
          exact hv
  | exprs depth scope es =>
      obtain ⟨Γ, hshows, hes⟩ := hpt
      cases es with
      | nil => exact ⟨types, List.prefix_rfl, hs, .nil⟩
      | cons e es =>
          obtain ⟨⟨T, he⟩, _⟩ := List.forall_mem_cons.mp hes
          refine .bind (evaluated hs he fun v t types₁ hle ht hv =>
            .bind (allEvaluated ht fun vs u types₂ hle' hu hvs => ?_))
          refine ⟨types₂, hle.trans hle', hu, .cons (fun S hS => ?_) hvs⟩
          cases he.slot_eq.1.symm.trans hS
          exact hv.mono hle'
  | stmt depth scope x =>
      obtain ⟨Γ, Δ, returns, hshows, hx⟩ := hpt
      cases depth with
      | zero => trivial
      | succ depth =>
          exact stmtPlan_meets hknown hs ⟨hordered, hsound, hplaced.2, hshows⟩ hwhole hx
  | stmts depth scope xs =>
      cases xs with
      | nil => exact ⟨types, List.prefix_rfl, hs, nofun⟩
      | cons x xs =>
          refine .bind ⟨types, ⟨hs, trivial⟩, ?_⟩
          rintro r t - - ⟨-, types₁, hle, ht, hr⟩
          cases r with
          | some v =>
              refine ⟨types₁, hle, ht, fun v returns Γ hv htyped => ?_⟩
              cases htyped with
              | cons hx _ => exact hr v returns _ _ hv hx
          | none =>
              refine ⟨types₁, ⟨ht, trivial⟩, ?_⟩
              rintro r u - - ⟨-, types₂, hle', hu, hr⟩
              refine ⟨types₂, hle.trans hle', hu, fun v returns Γ hv htyped => ?_⟩
              cases htyped with
              | cons _ hxs => exact hr v returns _ hv hxs
  | loop n depth scope condition body =>
      obtain ⟨Γ, returns, hshows, hcondition, _⟩ := hpt
      cases n with
      | zero => trivial
      | succ n =>
          refine decided hs hcondition fun b t types₁ hle ht => ?_
          cases b with
          | false => exact ⟨types₁, hle, ht, nofun⟩
          | true =>
              refine .bind (block_executed ht fun r u types₂ hle' hu hr => ?_)
              cases r with
              | some v => exact ⟨types₂, hle.trans hle', hu, hr⟩
              | none =>
                  refine ⟨types₂, ⟨hu, trivial⟩, ?_⟩
                  rintro r w - - ⟨-, types₃, hle'', hw, hr⟩
                  exact ⟨types₃, (hle.trans hle').trans hle'', hw, hr⟩
  | select depth scope v cases =>
      obtain ⟨Γ, T, returns, hshows, hvalues, _⟩ := hpt
      cases cases with
      | nil => exact ⟨types, List.prefix_rfl, hs, trivial⟩
      | cons c rest =>
          obtain ⟨offset, value, body⟩ := c
          cases value with
          | none => exact ⟨types, List.prefix_rfl, hs, trivial⟩
          | some e =>
              have he := hvalues _ List.mem_cons_self e rfl
              refine .bind (evaluated hs he fun w t types₁ hle ht _ => ?_)
              refine .bind (read (Run.equal_gives depth w v) ht fun b _ => ?_)
              cases b with
              | true => exact ⟨types₁, hle, ht, trivial⟩
              | false =>
                  refine ⟨types₁, ⟨ht, trivial⟩, ?_⟩
                  rintro r u - - ⟨-, types₂, hle', hu, -⟩
                  exact ⟨types₂, hle.trans hle', hu, trivial⟩
  | call depth r values => exact callPlan_meets hs hpt.1 htakes
  | globals depth gs =>
      obtain ⟨_, Γ, Δ, _, hgs⟩ := hpt
      exact globals_meets hs hgs
  | program depth p =>
      obtain ⟨rfl, hp⟩ := hpt
      exact program_meets hknown hp hs

theorem asksBefore_element {broken : Point → Store → Prop} {offset : Nat} {info : Info}
    {name : String} {index value : Expr} (slot : Option Variable) {sub : Point}
    (h : (stmtPlan rounds depth scope
      (.assignment offset (.element info name index slot) value)).AsksBefore
      (run rounds) broken s sub t) :
    sub = expr depth scope index ∧ t = s ∨ sub = expr depth scope value ∧
      (stmtPlan rounds depth scope (.assignment offset (.element info name index slot) value)).Asks
        (run rounds) s (expr depth scope index) s ∧
      ¬ broken (expr depth scope index) s ∧
      ∃ v, (expr depth scope index).run rounds s = (.ok v, t) := by
  obtain ⟨found, hfound, h⟩ := h.of_read (Run.lookup_gives scope name _)
  obtain ⟨_, hmutable, h⟩ := h.of_read (Run.requireMutable_gives found.2 name offset)
  obtain ⟨address, haddress, h⟩ := h.of_read (Run.addressOf_gives name _ found.2.value)
  obtain ⟨length, hlength, h⟩ := h.of_read (Run.lengthOf_gives address)
  obtain ⟨rfl, rfl⟩ | ⟨hwhole, v, u, hrun, h⟩ := h
  · exact .inl ⟨rfl, rfl⟩
  · obtain ⟨i, hi, h⟩ := AsksBefore.of_read (Run.position_gives length _ v) h
    obtain ⟨rfl, rfl⟩ | ⟨_, w, u', _, h⟩ := h
    · refine .inr ⟨rfl, ?_, hwhole, v, hrun⟩
      exact .read hfound (.read hmutable (.read haddress (.read hlength (.inl ⟨rfl, rfl⟩))))
    · exact h.elim

end Conformance

/-- Values agree with their types up to a point that breaks a list. -/
theorem conformance_kept {allowed : Ty → Prop} {made : Nat → Ty → Prop} {rounds : Nat}
    {fact : Point → Store → Prop}
    (hclosed : ∀ {pt sub : Point} {s t : Store}, fact pt s →
      (pt.plan rounds).Asks (run rounds) s sub t → fact sub t)
    (hknown : ∀ pt s, fact pt s → pt.Known allowed s)
    (hwhole : ∀ pt s, fact pt s → ¬ pt.Breaks rounds made s)
    (hmakes : ∀ pt s, fact pt s → ∀ a T, pt.Makes rounds s a T → made a T) :
    (conformance allowed made).Kept rounds fact where
  closed := hclosed
  meets {_ pt s} hfact _ hpre := (Conformance.plan_meets hknown (hknown pt s hfact)
    (hwhole pt s hfact) (hmakes pt s hfact) hpre.1 hpre.2).given

theorem Store.initial_agrees (allowed : Ty → Prop) (made : Nat → Ty → Prop) :
    Store.initial.Agrees allowed made [] where
  length := rfl
  made := nofun
  elements := nofun
  cells i name cell hcell := by
    rw [initial_cell?] at hcell
    cases hcell

namespace Program

variable {allowed : Ty → Prop} {q : Program} {l : Limits} {pt : Point} {s t : Store}

def Makes (l : Limits) (q : Program) (address : Nat) (T : Ty) : Prop :=
  ∃ pt s, Reaches l.rounds (program l.depth q) Store.initial pt s ∧ pt.Makes l.rounds s address T

abbrev Breaks (l : Limits) (q : Program) : Point → Store → Prop := Point.Breaks l.rounds (q.Makes l)

/-- The point is part of the run of the program, and nothing breaks in it. -/
def Whole (l : Limits) (q : Program) (pt : Point) (s : Store) : Prop :=
  Reaches l.rounds (program l.depth q) Store.initial pt s ∧ ¬ Breaking l.rounds (q.Breaks l) pt s

section

variable (hq : q.Typed (.filled allowed))
include hq

theorem conformance_of_typed : (conformance allowed (q.Makes l)).Kept l.rounds (q.Whole l) := by
  refine conformance_kept ?_ (fun pt s h => known_of_reaches hq h.1) ?_ ?_
  · rintro pt sub s t ⟨hreach, hwhole⟩ hasks
    exact ⟨hreach.step hasks, fun hbreaks => hwhole (.of_reaches (.step .refl hasks) hbreaks)⟩
  · exact fun pt s h hbreaks => h.2 ⟨pt, s, .refl, hbreaks⟩
  · exact fun pt s h a T hmakes => ⟨pt, s, h.1, hmakes⟩

theorem meets_of_reaches (hreach : Reaches l.rounds (program l.depth q) Store.initial pt s)
    (hwhole : ¬ q.Breaks l pt s) {types : List Ty} (hs : s.Agrees allowed (q.Makes l) types)
    (htakes : pt.Takes types) :
    (∀ sub t, (pt.plan l.rounds).AsksBefore (Point.run l.rounds)
      (Breaking l.rounds (q.Breaks l)) s sub t →
        ∃ types', t.Agrees allowed (q.Makes l) types' ∧ sub.Takes types') ∧
    ∀ t, (pt.plan l.rounds).PassesBefore (Point.run l.rounds) (Breaking l.rounds (q.Breaks l)) s t →
      ∃ types', t.Agrees allowed (q.Makes l) types' := by
  have hfacts (sub : Point) (t : Store) (h : q.Whole l sub t) : sub.Known allowed t :=
    known_of_reaches hq h.1
  have hmeets := Conformance.plan_meets hfacts (known_of_reaches hq hreach) hwhole
    (fun a T hmakes => ⟨pt, s, hreach, hmakes⟩) hs htakes
  have hsub (sub : Point) (t : Store) (hasks : (pt.plan l.rounds).Asks (Point.run l.rounds) s sub t)
      (hwhole : ¬ Breaking l.rounds (q.Breaks l) sub t)
      (hinv : (conformance allowed (q.Makes l)).inv t) (types : List Ty)
      (hpre : (conformance allowed (q.Makes l)).pre types sub t) := by
    have hfact : q.Whole l sub t := ⟨hreach.step hasks, hwhole⟩
    exact And.intro hfact ((conformance_of_typed hq).followed hfact hinv hpre).1
  obtain ⟨hasks, hpasses⟩ := hmeets.before ⟨types, hs⟩ hsub
  exact ⟨fun sub t h => (hasks sub t h).2, hpasses⟩

theorem agrees_of_breaks (hreach : Reaches l.rounds (program l.depth q) Store.initial pt s)
    (hbreaks : q.Breaks l pt s) {types : List Ty} (hs : s.Agrees allowed (q.Makes l) types)
    {sub : Point} (hasks : (pt.plan l.rounds).AsksBefore (Point.run l.rounds)
      (Breaking l.rounds (q.Breaks l)) s sub t) :
    ∃ types', t.Agrees allowed (q.Makes l) types' ∧ sub.Takes types' := by
  cases hbreaks with
  | @mk _ _ _ _ _ _ _ _ _ _ _ _ slot =>
      obtain ⟨rfl, rfl⟩ | ⟨rfl, hindex, hwhole, v, hrun⟩ :=
        Conformance.asksBefore_element (some slot) hasks
      · exact ⟨types, hs, trivial⟩
      · have hends := ((conformance_of_typed hq).followed ⟨hreach.step hindex, hwhole⟩ ⟨types, hs⟩
          ⟨hs, trivial⟩).1
        rw [hrun] at hends
        obtain ⟨_, types', _, ht, _⟩ := hends
        exact ⟨types', ht, trivial⟩

theorem agrees_of_reachesBefore
    (h : ReachesBefore l.rounds (q.Breaks l) (program l.depth q) Store.initial pt s) :
    ∃ types, s.Agrees allowed (q.Makes l) types ∧ pt.Takes types := by
  induction h with
  | refl => exact ⟨[], Store.initial_agrees _ _, trivial⟩
  | @step pt sub s t hbefore hasks ih =>
      obtain ⟨types, hs, htakes⟩ := ih
      by_cases hbreaks : q.Breaks l pt s
      · exact agrees_of_breaks hq hbefore.reaches hbreaks hs hasks
      · exact (meets_of_reaches hq hbefore.reaches hbreaks hs htakes).1 sub t hasks

theorem agrees_of_visitsBefore
    (h : VisitsBefore l.rounds (q.Breaks l) (program l.depth q) Store.initial t) :
    ∃ types, t.Agrees allowed (q.Makes l) types := by
  obtain ⟨pt, s, hbefore, hwhole, hpasses⟩ := h
  obtain ⟨types, hs, htakes⟩ := agrees_of_reachesBefore hq hbefore
  exact (meets_of_reaches hq hbefore.reaches hwhole hs htakes).2 t hpasses

theorem gives_of_reachesBefore
    (h : ReachesBefore l.rounds (q.Breaks l) (program l.depth q) Store.initial pt s)
    (hwhole : ¬ Breaking l.rounds (q.Breaks l) pt s) {r : pt.Result}
    (hrun : pt.run l.rounds s = (.ok r, t)) :
    ∃ types, t.Agrees allowed (q.Makes l) types ∧ pt.Gives allowed types r := by
  obtain ⟨types, hs, htakes⟩ := agrees_of_reachesBefore hq h
  have hends := ((conformance_of_typed hq).followed ⟨h.reaches, hwhole⟩ ⟨types, hs⟩ ⟨hs, htakes⟩).1
  rw [hrun] at hends
  obtain ⟨_, types', _, ht, hr⟩ := hends
  exact ⟨types', ht, hr⟩

end

end Program

end PlcLang
