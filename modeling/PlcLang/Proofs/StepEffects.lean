import PlcLang.Proofs.ListLengths
import PlcLang.Proofs.NewNames
import PlcLang.Proofs.RunSteps

namespace PlcLang

open Plan Point

namespace Point

/-- The point assigns to an element: a value is put into the list at the address, which a mutable
variable has held when the assignment was begun. -/
inductive Writes (s : Store) : Point → Nat → Store → Store → Prop
  | mk {u : Store} {depth scope offset : Nat} {info : Info} {name : String} {index value : Expr}
      {slot : Option Variable} {found : Nat × Cell} {address i : Nat} (v : Value) :
      s.scopes.findVariable? scope name = some found → found.2.mutable = true →
      found.2.value = .list address → i < (u.heap.elements address).size →
      Writes s (stmt depth scope (.assignment offset (.element info name index slot) value)) address
        u (u.write address i v)

/-- What a step of a point, run from the store `s`, does to the store that it comes to. -/
inductive Effect (pt : Point) (s : Store) : Store → Store → Prop
  /-- No variable and no list is changed: something is looked up or printed, a scope is opened, or
  functions are added. -/
  | quiet {u u' : Store} : u'.heap = u.heap → (∀ i name, u'.cell? i name = u.cell? i name) →
      Effect pt s u u'
  /-- A scope without variables is given parameters. -/
  | bound {u : Store} {scope : Nat} (names : List String) (types : List Ty) (values : List Value) :
      Store.root < scope → (∀ name, u.cell? scope name = none) →
      Effect pt s u (u.bindParameters scope names types values)
  | declared {u : Store} {scope : Nat} {name : String} {cell : Cell} : Store.root < scope →
      u.binding? scope name = none → Effect pt s u (u.define scope name cell)
  | initialized {u : Store} {depth : Nat} {g : Global} {rest : List Global} {cell : Cell} :
      pt = globals depth (g :: rest) → u.binding? Store.root g.name = none →
      cell.mutable = g.mutable → Effect pt s u (u.define Store.root g.name cell)
  | assigned {u : Store} {scope : Nat} {name : String} {cell : Cell} :
      u.binding? scope name = some cell.binding → cell.mutable = true →
      Effect pt s u (u.define scope name cell)
  | allocated {u : Store} (vs : List Value) : Effect pt s u (u.alloc vs)
  | written {u u' : Store} {address : Nat} : pt.Writes s address u u' → Effect pt s u u'

theorem Effect.refl {pt : Point} {s : Store} (u : Store) : pt.Effect s u u :=
  .quiet rfl fun _ _ => rfl

end Point

namespace Effects

variable {rounds depth scope : Nat} {pt : Point} {s₀ s : Store} {α : Type}

theorem read {m : Run α} {P : α → Prop} {Q : Stop → Prop} {β : Type} {f : α → Plan β}
    (h : m.Gives s P Q) (hf : ∀ a, P a → (f a).Moves (run rounds) (pt.Effect s₀) s) :
    (atomic m >>= f).Moves (run rounds) (pt.Effect s₀) s :=
  .read h .refl hf

theorem last {m : Run α} {P : α → Prop} {Q : Stop → Prop} (h : m.Gives s P Q) :
    (atomic m).Moves (run rounds) (pt.Effect s₀) s := by
  refine .atomic ?_
  obtain ⟨a, heq, _⟩ | ⟨why, heq, _⟩ := h <;> rw [heq] <;> exact .refl s

theorem decided {e : Expr} {f : Bool → Plan α}
    (hf : ∀ b t, (f b).Moves (run rounds) (pt.Effect s₀) t) :
    (do
      let v ← eval depth scope e
      let b ← atomic (Run.truth e.offset v)
      f b).Moves (run rounds) (pt.Effect s₀) s :=
  .asked fun v t _ => read (Run.truth_gives _ v) fun b _ => hf b t

theorem block (s : Store) (depth parent : Nat) (xs : List Stmt) :
    (blockPlan depth parent xs).Moves (run rounds) (pt.Effect s₀) s :=
  .acted rfl (.quiet rfl (Store.cell?_opened s parent)) (.await _)

theorem exprPlan_moves (s : Store) (depth scope : Nat) (e : Expr) :
    (exprPlan depth scope e).Moves (run rounds) (pt.Effect s₀) s := by
  cases e with
  | literal info value => exact .done _
  | group info inner => exact .await _
  | binary info op left right =>
      cases op with
      | and =>
          refine decided fun b t => ?_
          cases b with
          | false => exact .done _
          | true => exact decided fun _ _ => .done _
      | or =>
          refine decided fun b t => ?_
          cases b with
          | false => exact decided fun _ _ => .done _
          | true => exact .done _
      | _ => exact .asked fun v t _ => .asked fun w u _ => last (Run.operate_gives depth _ _ v w)
  | access info name slot => exact read (Run.lookup_gives scope name _) fun _ _ => .done _
  | element info name index slot =>
      refine read (Run.lookup_gives scope name _) fun found _ => ?_
      refine read (Run.addressOf_gives name _ found.2.value) fun address _ => ?_
      refine read (Run.lengthOf_gives address) fun length _ => .asked fun v t _ => ?_
      refine read (Run.position_gives _ _ v) fun i _ => ?_
      exact read (Run.elements_gives address) fun _ _ => .done _
  | call info name arguments slot =>
      exact read (Run.lookupRoutine_gives scope name _ _) fun r _ => .asked fun vs t _ => .await _
  | list info elements => exact .asked fun vs t _ => .atomic (.allocated vs)
  | unknown start node => exact .stop _

theorem index_kept (hs : s.Ordered) (hclosed : s.Closed) (hscope : scope < s.size) {e : Expr}
    {v : Value} {t : Store} (hrun : e.eval rounds depth scope s = (.ok v, t)) :
    t.Closed ∧ s.heap.Keeps t.heap ∧ t.Ordered ∧ scope < t.size := by
  have hready : (expr depth scope e).Ready s := ⟨hs, hscope⟩
  obtain ⟨ht, hk⟩ := hready.framed hrun
  obtain ⟨hclosed', hkeeps, _⟩ := hready.keeps_lists hclosed trivial hrun
  exact ⟨hclosed', hkeeps, ht, Nat.lt_of_lt_of_le hscope hk.size_le⟩

theorem stmtPlan_moves {x : Stmt} (hready : (stmt (depth + 1) scope x).Ready s)
    (hnew : (stmt (depth + 1) scope x).NamesNew s) (hclosed : s.Closed) :
    (stmtPlan rounds depth scope x).Moves (run rounds) ((stmt (depth + 1) scope x).Effect s) s := by
  obtain ⟨hs, hroot, hscope⟩ := hready
  have hkept {e : Expr} {v : Value} {t : Store} (hrun : e.eval rounds depth scope s = (.ok v, t)) :
      s.Keeps s.size t := by
    have hready : (expr depth scope e).Ready s := ⟨hs, hscope⟩
    exact (hready.framed hrun).2
  cases x with
  | expression offset value => exact .asked fun _ _ _ => .done _
  | declaration offset name typeName value slot =>
      cases slot with
      | none => exact .stop _
      | some slot =>
          cases value with
          | none => exact .acted rfl (.declared hroot hnew) (.done _)
          | some value =>
              refine .asked fun v t hrun => .acted rfl (.declared hroot ?_) (.done _)
              rw [(hkept hrun).binding scope hscope]
              exact hnew
  | assignment offset receiver value =>
      cases receiver with
      | access info name slot =>
          refine read (Run.lookup_gives scope name _) fun found hfound => ?_
          refine read (Run.requireMutable_gives found.2 name offset) fun _ hm => ?_
          refine .asked fun v t hrun => .acted rfl (.assigned ?_ hm) (.done _)
          -- The variable was looked up before the value; the evaluation has left its binding.
          have hcell := Store.cell?_of_findVariable? hs hfound
          rw [(hkept hrun).binding _ (Store.lt_size_of_cell? hcell), Store.binding?, hcell]
          rfl
      | element info name index slot =>
          refine read (Run.lookup_gives scope name _) fun found hfound => ?_
          refine read (Run.requireMutable_gives found.2 name offset) fun _ hm => ?_
          refine read (Run.addressOf_gives name _ found.2.value) fun address haddress => ?_
          refine read (Run.lengthOf_gives address) ?_
          rintro length rfl
          refine .asked fun v t hindex => read (Run.position_gives _ _ v) fun i hi => ?_
          refine .asked fun w u hvalue => .acted rfl (.written (.mk w hfound hm haddress ?_)) (.done _)
          obtain ⟨hclosed', hkeeps, ht, hscope'⟩ := index_kept hs hclosed hscope hindex
          obtain ⟨_, hkeeps', _⟩ := index_kept ht hclosed' hscope' hvalue
          have hi' : i < (t.heap.elements address).size :=
            hkeeps.length address (Heap.lt_size_of_mem_elements (Array.getElem_mem hi)) ▸ hi
          exact hkeeps'.length address (Heap.lt_size_of_mem_elements (Array.getElem_mem hi')) ▸ hi'
      | _ => exact .stop _
  | ifElse offset condition thenBody elseBody =>
      refine decided fun b t => ?_
      cases b with
      | false => exact block t depth scope elseBody
      | true => exact block t depth scope thenBody
  | switch offset condition cases =>
      exact .asked fun v t _ => .asked fun body u _ => block u depth scope body
  | whileDo offset condition body => exact .await _
  | ret offset value =>
      cases value with
      | none => exact .done _
      | some value => exact .asked fun _ _ _ => .done _
  | unknown start node => exact .stop _

theorem callPlan_moves (hs : s.Ordered) (depth : Nat) (r : Routine) (values : List Value) :
    (callPlan depth r values).Moves (run rounds) (pt.Effect s₀) s := by
  obtain ⟨signature, body⟩ := r
  cases body with
  | print =>
      refine read (Run.text_gives depth _) fun _ _ => .acted rfl (.quiet rfl ?_) (.done _)
      exact fun _ _ => rfl
  | block parameters statements home =>
      have hempty (name : String) : (s.opened home).cell? s.size name = none := by
        rw [Store.cell?_opened, Store.cell?_of_size_le (Nat.le_refl s.size)]
      refine .acted rfl (.quiet rfl (Store.cell?_opened s home)) ?_
      refine .acted (Run.bindParameters_eq s.size _ _ _ _) (.bound _ _ _ hs.root_lt hempty) ?_
      exact .asked fun _ _ _ => .done _

theorem globals_moves {gs : List Global} (hs : s.Ordered) (hnew : (globals depth gs).NamesNew s) :
    ((globals depth gs).plan rounds).Moves (run rounds) ((globals depth gs).Effect s) s := by
  cases gs with
  | nil => exact .done _
  | cons g rest =>
      obtain ⟨offset, name, typeName, mutable, value, slot⟩ := g
      cases slot with
      | none => exact .stop _
      | some slot =>
          cases value with
          | none => exact .acted rfl (.initialized rfl hnew rfl) (.await _)
          | some e =>
              refine .asked fun v t hrun => .acted rfl (.initialized rfl ?_ rfl) (.await _)
              have hready : (expr depth Store.root e).Ready s := ⟨hs, hs.root_lt⟩
              change t.binding? Store.root name = none
              rw [(hready.framed hrun).2.binding _ hs.root_lt]
              exact hnew

theorem program_moves (s : Store) (depth : Nat) (p : Program) :
    ((program depth p).plan rounds).Moves (run rounds) (pt.Effect s₀) s := by
  refine .asked fun _ t _ => .bind (.atomic ?_) fun _ u _ => ?_
  · obtain ⟨hheap, hcells⟩ := Program.addFunctions_unchanged p.functions t
    exact .quiet hheap hcells
  · exact read Run.lookupMain_gives fun r _ => .await _

theorem plan_moves (hready : pt.Ready s) (hnew : pt.NamesNew s) (hclosed : s.Closed) :
    (pt.plan rounds).Moves (run rounds) (pt.Effect s) s := by
  cases pt with
  | expr depth scope e =>
      cases depth with
      | zero => exact .stop _
      | succ depth => exact exprPlan_moves s depth scope e
  | exprs depth scope es =>
      cases es with
      | nil => exact .done _
      | cons e es => exact .asked fun _ _ _ => .asked fun _ _ _ => .done _
  | stmt depth scope x =>
      cases depth with
      | zero => exact .stop _
      | succ depth => exact stmtPlan_moves hready hnew hclosed
  | stmts depth scope xs =>
      cases xs with
      | nil => exact .done _
      | cons x xs =>
          refine .asked fun r t _ => ?_
          cases r with
          | some v => exact .done _
          | none => exact .await _
  | loop n depth scope condition body =>
      cases n with
      | zero => exact .stop _
      | succ n =>
          refine decided fun b t => ?_
          cases b with
          | false => exact .done _
          | true =>
              refine .bind (block t depth scope body) fun r u _ => ?_
              cases r with
              | some v => exact .done _
              | none => exact .await _
  | select depth scope v cases =>
      cases cases with
      | nil => exact .done _
      | cons c rest =>
          obtain ⟨offset, value, body⟩ := c
          cases value with
          | none => exact .done _
          | some e =>
              refine .asked fun w t _ => read (Run.equal_gives depth w v) fun b _ => ?_
              cases b with
              | true => exact .done _
              | false => exact .await _
  | call depth r values => exact callPlan_moves hready.1 depth r values
  | globals depth gs => exact globals_moves hready.1 hnew
  | program depth p => exact program_moves s depth p

end Effects

theorem Program.effect_of_step {allowed : Ty → Prop} {q : Program} {l : Limits} {u u' : Store}
    (hq : q.Typed (.filled allowed))
    (h : Point.Steps l.rounds (program l.depth q) Store.initial u u') :
    ∃ pt s, Reaches l.rounds (program l.depth q) Store.initial pt s ∧ pt.Effect s u u' := by
  obtain ⟨pt, s, hreach, hstep⟩ := h
  refine ⟨pt, s, hreach, ?_⟩
  have hready := hreach.ready (initial_ready l.depth q)
  exact Effects.plan_moves hready (namesNew_of_reaches hq hreach) (closed_of_reaches hreach).1 u u' hstep

end PlcLang
