import PlcLang.Proofs.Resolution
import PlcLang.Proofs.StoreRelabeling

namespace PlcLang

variable {ρ : Relabeling}

namespace Run

variable {α β γ δ : Type}

/-- From like stores both runs go to like stores, and they end in the same way. -/
def Alike (ρ : Relabeling) (R : α → β → Prop) (m : Run α) (m' : Run β) : Prop :=
  ∀ s s', s.Alike ρ s' →
    Matched (fun why why' => why' = Stop.relabel ρ why) R (m s).1 (m' s').1 ∧
      (m s).2.Alike ρ (m' s').2

variable {R : α → β → Prop} {S : γ → δ → Prop}

namespace Alike

theorem pure {a : α} {b : β} (h : R a b) : Alike ρ R (pure a) (pure b) := fun _ _ hs => ⟨.ok h, hs⟩

theorem throw {why why' : Stop} (h : why' = why.relabel ρ) :
    Alike ρ R (throw why : Run α) (throw why' : Run β) :=
  fun _ _ hs => ⟨.error h, hs⟩

theorem fault (cause : FaultCause) (o : Nat) :
    Alike ρ R (fault cause o : Run α) (fault cause (ρ.place o) : Run β) := .throw rfl

theorem bind {m : Run α} {m' : Run β} {f : α → Run γ} {f' : β → Run δ} (h : Alike ρ R m m')
    (hf : ∀ a b, R a b → Alike ρ S (f a) (f' b)) : Alike ρ S (m >>= f) (m' >>= f') := by
  intro s s' hs
  obtain ⟨hr, ht⟩ := h s s' hs
  rw [bind_apply, bind_apply]
  generalize (m s).1 = r, (m' s').1 = r' at hr
  cases hr with
  | ok hr => exact hf _ _ hr _ _ ht
  | error hwhy => exact ⟨.error hwhy, ht⟩

theorem mapM {f : α → Run γ} {f' : β → Run δ} {as : List α} {bs : List β}
    (h : List.Forall₂ R as bs) (hf : ∀ a b, R a b → Alike ρ S (f a) (f' b)) :
    Alike ρ (List.Forall₂ S) (as.mapM f) (bs.mapM f') := by
  induction h with
  | nil => exact .pure .nil
  | cons hab _ ih =>
      rw [List.mapM_cons, List.mapM_cons]
      exact (hf _ _ hab).bind fun _ _ hcd => ih.bind fun _ _ hrest => .pure (.cons hcd hrest)

theorem ite {c : Prop} [Decidable c] {m n : Run α} {m' n' : Run β} (h : Alike ρ R m m')
    (h' : Alike ρ R n n') : Alike ρ R (if c then m else n) (if c then m' else n') := by
  split
  · exact h
  · exact h'

theorem guard {c : Prop} [Decidable c] {cause : FaultCause} {o : Nat} {f : α → Run γ}
    {f' : β → Run δ} {m : Run γ} {m' : Run δ} (h : Alike ρ S m m') :
    Alike ρ S (if c then Run.fault cause o >>= f else m)
      (if c then Run.fault cause (ρ.place o) >>= f' else m') := by
  split
  · exact fun _ _ hs => ⟨.error rfl, hs⟩
  · exact h

end Alike

theorem Alike.read {m : Run α} {m' : Run β}
    (h : ∀ s s', s.Alike ρ s' → ∃ r r', m s = (r, s) ∧ m' s' = (r', s') ∧
      Matched (fun why why' => why' = Stop.relabel ρ why) R r r') : Alike ρ R m m' := by
  intro s s' hs
  obtain ⟨r, r', hm, hm', hr⟩ := h s s' hs
  rw [hm, hm']
  exact ⟨hr, hs⟩

theorem openScope_alike (parent : Nat) : Alike ρ Eq (openScope parent) (openScope parent) :=
  fun _ _ hs => ⟨.ok hs.size.symm, hs.opened parent⟩

theorem define_alike (scope : Nat) (name : String) (cell : Cell) :
    Alike ρ Eq (define scope name cell) (define scope name cell) :=
  fun _ _ hs => ⟨.ok rfl, hs.define scope name cell⟩

theorem lookup_alike (scope : Nat) (name : String) (o : Nat) :
    Alike ρ Eq (lookup scope name o) (lookup scope name (ρ.place o)) := by
  refine .read fun s s' hs => ?_
  unfold lookup
  rw [hs.findVariable?]
  cases s.scopes.findVariable? scope name with
  | some found => exact ⟨_, _, rfl, rfl, .ok rfl⟩
  | none => exact ⟨_, _, rfl, rfl, .error rfl⟩

theorem lookupRoutine_alike (scope : Nat) (name : String) (arity o : Nat) :
    Alike ρ (fun r r' => r' = r.relabel ρ) (lookupRoutine scope name arity o)
      (lookupRoutine scope name arity (ρ.place o)) := by
  refine .read fun s s' hs => ?_
  unfold lookupRoutine
  rw [hs.findFunction?]
  cases s.scopes.findFunction? scope name arity with
  | some r => exact ⟨_, _, rfl, rfl, .ok rfl⟩
  | none => exact ⟨_, _, rfl, rfl, .error rfl⟩

theorem elements_alike (address : Nat) : Alike ρ Eq (elements address) (elements address) :=
  .read fun _ _ hs => ⟨_, _, rfl, rfl, .ok (by rw [hs.heap])⟩

theorem lengthOf_alike (address : Nat) : Alike ρ Eq (lengthOf address) (lengthOf address) :=
  .read fun _ _ hs => ⟨_, _, rfl, rfl, .ok (by rw [hs.heap])⟩

theorem alloc_alike (vs : List Value) : Alike ρ Eq (alloc vs) (alloc vs) := by
  intro s s' hs
  unfold alloc
  rw [hs.heap]
  exact ⟨.ok rfl, hs.of_scopes rfl rfl rfl hs.output⟩

theorem write_alike (address index : Nat) (v : Value) :
    Alike ρ Eq (write address index v) (write address index v) := by
  intro s s' hs
  unfold write
  rw [hs.heap]
  exact ⟨.ok rfl, hs.of_scopes rfl rfl rfl hs.output⟩

theorem printLine_alike (line : String) : Alike ρ Eq (printLine line) (printLine line) := by
  intro s s' hs
  unfold printLine
  rw [hs.output]
  exact ⟨.ok rfl, hs.of_scopes rfl rfl hs.heap rfl⟩

theorem text_alike (depth : Nat) (v : Value) : Alike ρ Eq (text depth v) (text depth v) := by
  refine .read fun s s' hs => ?_
  unfold text
  rw [hs.heap]
  cases s.heap.text? depth v with
  | some line => exact ⟨_, _, rfl, rfl, .ok rfl⟩
  | none => exact ⟨_, _, rfl, rfl, .error rfl⟩

theorem equal_alike (depth : Nat) (v w : Value) : Alike ρ Eq (equal depth v w) (equal depth v w) := by
  refine .read fun s s' hs => ?_
  unfold equal
  rw [hs.heap]
  cases s.heap.equal? depth v w with
  | some b => exact ⟨_, _, rfl, rfl, .ok rfl⟩
  | none => exact ⟨_, _, rfl, rfl, .error rfl⟩

theorem truth_alike (o : Nat) (v : Value) : Alike ρ Eq (truth o v) (truth (ρ.place o) v) := by
  cases v with
  | boolean b => exact .pure rfl
  | _ => exact .fault _ o

theorem addressOf_alike (name : String) (o : Nat) (v : Value) :
    Alike ρ Eq (addressOf name o v) (addressOf name (ρ.place o) v) := by
  cases v with
  | list a => exact .pure rfl
  | _ => exact .fault _ o

theorem position_alike (length o : Nat) (v : Value) :
    Alike ρ Eq (position length o v) (position length (ρ.place o) v) := by
  cases v with
  | integer i => exact .ite (.pure rfl) (.fault _ o)
  | _ => exact .fault _ o

theorem lift_alike (o : Nat) (r : Except FaultCause Value) :
    Alike ρ Eq (lift o r) (lift (ρ.place o) r) := by
  cases r with
  | ok v => exact .pure rfl
  | error cause => exact .fault _ o

theorem concatenate_alike (depth : Nat) (v w : Value) :
    Alike ρ Eq (do return Value.string ((← text depth v) ++ (← text depth w)))
      (do return Value.string ((← text depth v) ++ (← text depth w))) := by
  apply (text_alike depth v).bind
  rintro a _ rfl
  apply (text_alike depth w).bind
  rintro b _ rfl
  exact .pure rfl

theorem operate_alike (depth o : Nat) (op : BinOp) (v w : Value) :
    Alike ρ Eq (operate depth o op v w) (operate depth (ρ.place o) op v w) := by
  cases op with
  | eq | ne =>
      apply (equal_alike depth v w).bind
      rintro b _ rfl
      exact .pure rfl
  | add =>
      cases v with
      | string a => exact concatenate_alike depth _ w
      | _ =>
          cases w with
          | string a => exact concatenate_alike depth _ _
          | _ => exact lift_alike o _
  | _ => exact lift_alike o _

theorem bindParameters_alike (scope : Nat) (names : List String) (types : List Ty)
    (values : List Value) :
    Alike ρ Eq (bindParameters scope names types values)
      (bindParameters scope names types values) := by
  induction names generalizing types values with
  | nil => exact .pure rfl
  | cons name names ih =>
      cases types with
      | nil => exact .pure rfl
      | cons type types =>
          cases values with
          | nil => exact .pure rfl
          | cons value values =>
              exact (define_alike scope name _).bind fun _ _ _ => ih types values

variable {step step' : Stmt → Run (Option Value)} {exec exec' : Nat → Stmt → Run (Option Value)}
  {eval eval' : Expr → Run Value}

theorem inOrder_alike (hstep : ∀ x, Alike ρ Eq (step x) (step' (x.relabel ρ))) (xs : List Stmt) :
    Alike ρ Eq (inOrder step xs) (inOrder step' (xs.map (Stmt.relabel ρ))) := by
  induction xs with
  | nil => exact .pure rfl
  | cons x xs ih =>
      apply (hstep x).bind
      rintro r _ rfl
      cases r with
      | some v => exact .pure rfl
      | none => exact ih

theorem block_alike (hexec : ∀ scope x, Alike ρ Eq (exec scope x) (exec' scope (x.relabel ρ)))
    (parent : Nat) (body : List Stmt) :
    Alike ρ Eq (block exec parent body) (block exec' parent (body.map (Stmt.relabel ρ))) := by
  apply (openScope_alike parent).bind
  rintro scope _ rfl
  exact inOrder_alike (hexec scope) body

theorem loop_alike {condition condition' : Run Bool} {body body' : Run (Option Value)}
    (hcondition : Alike ρ Eq condition condition') (hbody : Alike ρ Eq body body') (n : Nat) :
    Alike ρ Eq (loop condition body n) (loop condition' body' n) := by
  induction n with
  | zero => exact .throw rfl
  | succ n ih =>
      apply hcondition.bind
      rintro b _ rfl
      refine .ite ?_ (.pure rfl)
      apply hbody.bind
      rintro r _ rfl
      cases r with
      | some v => exact .pure rfl
      | none => exact ih

theorem call_alike (hexec : ∀ scope x, Alike ρ Eq (exec scope x) (exec' scope (x.relabel ρ)))
    (depth : Nat) (r : Routine) (values : List Value) :
    Alike ρ Eq (call exec depth r values) (call exec' depth (r.relabel ρ) values) := by
  obtain ⟨signature, body⟩ := r
  cases body with
  | print =>
      apply (text_alike depth (values.headD .nil)).bind
      rintro line _ rfl
      exact (printLine_alike line).bind fun _ _ _ => .pure rfl
  | block parameters statements home =>
      apply (openScope_alike home).bind
      rintro scope _ rfl
      refine (bindParameters_alike scope parameters signature.parameters values).bind fun _ _ _ => ?_
      apply (inOrder_alike (hexec scope) statements).bind
      rintro r _ rfl
      exact .pure rfl

theorem select_alike (heval : ∀ e, Alike ρ Eq (eval e) (eval' (e.relabel ρ))) (depth : Nat)
    (v : Value) (cases : List Case) :
    Alike ρ (fun body body' => body' = body.map (Stmt.relabel ρ)) (select eval depth v cases)
      (select eval' depth v (cases.map (Case.relabel ρ))) := by
  induction cases with
  | nil => exact .pure rfl
  | cons c cases ih =>
      obtain ⟨o, value, body⟩ := c
      rw [List.map_cons, Case.relabel, Stmt.relabelEach_eq_map]
      cases value with
      | none => exact .pure rfl
      | some e =>
          apply (heval e).bind
          rintro w _ rfl
          apply (equal_alike depth w v).bind
          rintro b _ rfl
          exact .ite (.pure rfl) ih

theorem assign_alike (heval : ∀ e, Alike ρ Eq (eval e) (eval' (e.relabel ρ))) (scope o : Nat)
    (receiver value : Expr) :
    Alike ρ Eq (assign eval scope o receiver value)
      (assign eval' scope (ρ.place o) (receiver.relabel ρ) (value.relabel ρ)) := by
  cases receiver with
  | access info name slot =>
      apply (lookup_alike scope name info.offset).bind
      rintro ⟨home, cell⟩ _ rfl
      refine .guard ?_
      apply (heval value).bind
      rintro v _ rfl
      exact define_alike home name _
  | element info name index slot =>
      rw [Expr.relabel, assign, assign, Expr.offset_relabel]
      apply (lookup_alike scope name info.offset).bind
      rintro ⟨home, cell⟩ _ rfl
      refine .guard ?_
      apply (addressOf_alike name info.offset cell.value).bind
      rintro address _ rfl
      apply (lengthOf_alike address).bind
      rintro length _ rfl
      apply (heval index).bind
      rintro v _ rfl
      apply (position_alike length index.offset v).bind
      rintro i _ rfl
      apply (heval value).bind
      rintro w _ rfl
      exact write_alike address i w
  | literal | group | binary | call | list | unknown => exact .fault _ o

end Run

open Run

theorem Expr.literal_alike (rounds depth scope : Nat) (info : Info) (value : Literal) :
    Alike ρ Eq (Expr.eval rounds (depth + 1) scope (.literal info value))
      (Expr.eval rounds (depth + 1) scope (.literal (info.relabel ρ) value)) := by
  cases value <;> exact .pure rfl

theorem Expr.condition_alike {eval eval' : Expr → Run Value}
    (heval : ∀ e, Alike ρ Eq (eval e) (eval' (e.relabel ρ))) (e : Expr) :
    Alike ρ Eq (eval e >>= truth e.offset)
      (eval' (e.relabel ρ) >>= truth (e.relabel ρ).offset) := by
  rw [Expr.offset_relabel]
  apply (heval e).bind
  rintro v _ rfl
  exact Run.truth_alike e.offset v

theorem Expr.decided_alike {eval eval' : Expr → Run Value}
    (heval : ∀ e, Alike ρ Eq (eval e) (eval' (e.relabel ρ))) (e : Expr) {α : Type}
    {f f' : Bool → Run α} (hf : ∀ b, Alike ρ Eq (f b) (f' b)) :
    Alike ρ Eq (eval e >>= fun v => truth e.offset v >>= f)
      (eval' (e.relabel ρ) >>= fun v => truth (e.relabel ρ).offset v >>= f') := by
  rw [← bind_assoc, ← bind_assoc]
  apply (Expr.condition_alike heval e).bind
  rintro b _ rfl
  exact hf b

section

variable {rounds depth : Nat}
  (heval : ∀ scope e, Alike ρ Eq (Expr.eval rounds depth scope e)
    (Expr.eval rounds depth scope (e.relabel ρ)))
  (hexec : ∀ scope x, Alike ρ Eq (Stmt.exec rounds depth scope x)
    (Stmt.exec rounds depth scope (x.relabel ρ)))
include heval hexec

theorem Expr.eval_succ_alike (scope : Nat) (e : Expr) :
    Alike ρ Eq (Expr.eval rounds (depth + 1) scope e)
      (Expr.eval rounds (depth + 1) scope (e.relabel ρ)) := by
  have hall (es : List Expr) : Alike ρ Eq (es.mapM (Expr.eval rounds depth scope))
      ((es.map (Expr.relabel ρ)).mapM (Expr.eval rounds depth scope)) := by
    have hmap := Run.Alike.mapM (S := Eq) (forall₂_map_right (Expr.relabel ρ) es)
      fun e _ he => he ▸ heval scope e
    rwa [List.forall₂_eq_eq_eq] at hmap
  cases e with
  | literal info value => exact Expr.literal_alike rounds depth scope info value
  | group info inner => exact heval scope inner
  | binary info op left right =>
      have hright : Alike ρ Eq
          (Expr.eval rounds depth scope right >>= fun v => truth right.offset v >>= fun b =>
            pure (Value.boolean b))
          (Expr.eval rounds depth scope (right.relabel ρ) >>= fun v =>
            truth (right.relabel ρ).offset v >>= fun b => pure (Value.boolean b)) :=
        Expr.decided_alike (heval scope) right fun b => .pure rfl
      cases op with
      | and => exact Expr.decided_alike (heval scope) left fun b => .ite hright (.pure rfl)
      | or => exact Expr.decided_alike (heval scope) left fun b => .ite (.pure rfl) hright
      | _ =>
          apply (heval scope left).bind
          rintro v _ rfl
          apply (heval scope right).bind
          rintro w _ rfl
          exact Run.operate_alike depth info.offset _ v w
  | access info name slot =>
      apply (Run.lookup_alike scope name info.offset).bind
      rintro found _ rfl
      exact .pure rfl
  | element info name index slot =>
      rw [Expr.relabel, Expr.eval, Expr.eval, Expr.offset_relabel]
      apply (Run.lookup_alike scope name info.offset).bind
      rintro ⟨home, cell⟩ _ rfl
      apply (Run.addressOf_alike name info.offset cell.value).bind
      rintro address _ rfl
      apply (Run.lengthOf_alike address).bind
      rintro length _ rfl
      apply (heval scope index).bind
      rintro v _ rfl
      apply (Run.position_alike length index.offset v).bind
      rintro i _ rfl
      apply (Run.elements_alike address).bind
      rintro vs _ rfl
      exact .pure rfl
  | call info name arguments slot =>
      rw [Expr.relabel, Expr.eval, Expr.eval, Expr.relabelEach_eq_map, List.length_map]
      apply (Run.lookupRoutine_alike scope name arguments.length info.offset).bind
      rintro r _ rfl
      apply (hall arguments).bind
      rintro values _ rfl
      exact Run.call_alike hexec depth r values
  | list info elements =>
      rw [Expr.relabel, Expr.eval, Expr.eval, Expr.relabelEach_eq_map]
      apply (hall elements).bind
      rintro values _ rfl
      exact Run.alloc_alike values
  | unknown start node => exact .throw rfl

theorem Stmt.exec_succ_alike (scope : Nat) (x : Stmt) :
    Alike ρ Eq (Stmt.exec rounds (depth + 1) scope x)
      (Stmt.exec rounds (depth + 1) scope (x.relabel ρ)) := by
  have hblock := Run.block_alike hexec scope
  cases x with
  | expression o value =>
      apply (heval scope value).bind
      rintro v _ rfl
      exact .pure rfl
  | declaration o name typeName value slot =>
      cases slot with
      | none => exact .throw rfl
      | some slot =>
          cases value with
          | none => exact (Run.define_alike scope name _).bind fun _ _ _ => .pure rfl
          | some e =>
              apply (heval scope e).bind
              rintro v _ rfl
              exact (Run.define_alike scope name _).bind fun _ _ _ => .pure rfl
  | assignment o receiver value =>
      exact (Run.assign_alike (heval scope) scope o receiver value).bind fun _ _ _ => .pure rfl
  | ifElse o condition thenBody elseBody =>
      rw [Stmt.relabel, Stmt.exec, Stmt.exec, Stmt.relabelEach_eq_map, Stmt.relabelEach_eq_map]
      exact Expr.decided_alike (heval scope) condition fun b =>
        .ite (hblock thenBody) (hblock elseBody)
  | switch o condition cases =>
      rw [Stmt.relabel, Stmt.exec, Stmt.exec, Case.relabelEach_eq_map]
      apply (heval scope condition).bind
      rintro v _ rfl
      apply (Run.select_alike (heval scope) depth v cases).bind
      rintro body _ rfl
      exact hblock body
  | whileDo o condition body =>
      rw [Stmt.relabel, Stmt.exec, Stmt.exec, Stmt.relabelEach_eq_map]
      exact Run.loop_alike (Expr.condition_alike (heval scope) condition) (hblock body) rounds
  | ret o value =>
      cases value with
      | none => exact .pure rfl
      | some e =>
          apply (heval scope e).bind
          rintro v _ rfl
          exact .pure rfl
  | unknown start node => exact .throw rfl

end

theorem Expr.eval_exec_alike (rounds depth : Nat) :
    (∀ scope e, Alike ρ Eq (Expr.eval rounds depth scope e)
      (Expr.eval rounds depth scope (e.relabel ρ))) ∧
    ∀ scope x, Alike ρ Eq (Stmt.exec rounds depth scope x)
      (Stmt.exec rounds depth scope (x.relabel ρ)) := by
  induction depth with
  | zero => exact ⟨fun _ _ => .throw rfl, fun _ _ => .throw rfl⟩
  | succ depth ih =>
      exact ⟨Expr.eval_succ_alike ih.1 ih.2, Stmt.exec_succ_alike ih.1 ih.2⟩

namespace Program

theorem initGlobals_alike (l : Limits) (gs : List Global) :
    Alike ρ Eq (initGlobals l gs) (initGlobals l (gs.map (Global.relabel ρ))) := by
  induction gs with
  | nil => exact .pure rfl
  | cons g gs ih =>
      obtain ⟨o, name, typeName, mutable, value, slot⟩ := g
      cases slot with
      | none => exact .throw rfl
      | some slot =>
          cases value with
          | none => exact (define_alike Store.root name _).bind fun _ _ _ => ih
          | some e =>
              apply ((Expr.eval_exec_alike l.rounds l.depth).1 Store.root e).bind
              rintro v _ rfl
              exact (define_alike Store.root name _).bind fun _ _ _ => ih

end Program

def Function.routine? (f : Function) : Option Routine := f.slot.map f.routine

namespace Function

theorem routine?_relabel (f : Function) :
    (f.relabel ρ).routine? = f.routine?.map (Routine.relabel ρ) := by
  rw [routine?, routine?, Option.map_map]
  rfl

theorem atRoot_of_mem {fs : List Function} : ∀ r ∈ fs.filterMap routine?, r.AtRoot := by
  intro r hr parameters statements home hbody
  obtain ⟨f, _, hf⟩ := List.mem_filterMap.mp hr
  obtain ⟨s, _, rfl⟩ := Option.map_eq_some_iff.mp hf
  cases hbody
  rfl

end Function

namespace Program

/-- Each function has a signature, and no two have one name and arity. -/
structure Callable (q : Program) : Prop where
  filled : ∀ f ∈ q.functions, f.slot.isSome
  nodup : ((q.functions.filterMap Function.routine?).map fun r => r.signature.key).Nodup

theorem routines_of_slots {fs : List Function} {signatures : List Signature}
    (h : List.Forall₂ (fun f s => f.slot = some s) fs signatures) :
    (∀ f ∈ fs, f.slot.isSome) ∧
      (fs.filterMap Function.routine?).map Routine.signature = signatures := by
  induction h with
  | nil => exact ⟨nofun, rfl⟩
  | @cons f s _ _ hf _ ih =>
      have hroutine : f.routine? = some (f.routine s) := by
        rw [Function.routine?, hf, Option.map_some]
      refine ⟨List.forall_mem_cons.mpr ⟨by rw [hf]; rfl, ih.1⟩, ?_⟩
      rw [List.filterMap_cons_some hroutine, List.map_cons, ih.2]
      rfl

theorem Typed.callable {allowed : Ty → Prop} {q : Program} (h : q.Typed (.filled allowed)) :
    q.Callable := by
  obtain ⟨Γ, signatures, _, _, hnodup, _, hbodies⟩ := h
  obtain ⟨hfilled, hsignatures⟩ := routines_of_slots (hbodies.imp fun f s h => h.2.2.1)
  refine ⟨hfilled, ?_⟩
  rw [← hsignatures, List.map_cons, List.map_map] at hnodup
  exact (List.nodup_cons.mp hnodup).2

theorem callable_of_check {p q : Program} {depth : Nat}
    (h : p.checkWithin depth = .ok q) : q.Callable := by
  have hq : q.Typed (.filled fun _ => True) :=
    (checkWithin_sound (fun _ _ => trivial) (fun _ _ => trivial) h).2
  exact hq.callable

theorem addFunctions_filled {fs : List Function} (h : ∀ f ∈ fs, f.slot.isSome) (s : Store) :
    addFunctions Store.root fs s = (.ok (), s.withRoutines (fs.filterMap Function.routine?)) := by
  induction fs generalizing s with
  | nil => rfl
  | cons f fs ih =>
      obtain ⟨hf, hfs⟩ := List.forall_mem_cons.mp h
      obtain ⟨o, name, parameters, parameterTypes, returnType, body, slot⟩ := f
      cases slot with
      | none => cases hf
      | some signature => exact ih hfs _

end Program

namespace Program

def Report.Alike (ρ : Relabeling) (r r' : Report) : Prop :=
  r'.output = r.output ∧ Matched (fun why why' => why' = Stop.relabel ρ why) Eq r.result r'.result

theorem main_eq (l : Limits) (q : Program) : q.main l = (do
    initGlobals l q.globals
    addFunctions Store.root q.functions
    let r ← lookupMain
    call (Stmt.execWithin l) l.depth r []) := by
  unfold main
  congr 1
  funext _
  congr 1
  funext _
  exact Run.main_eq_lookup _

theorem lookupMain_alike :
    Run.Alike ρ (fun r r' => r' = r.relabel ρ) lookupMain lookupMain := by
  refine .read fun s s' hs => ?_
  unfold lookupMain
  rw [hs.findFunction?]
  cases s.scopes.findFunction? Store.root "main" 0 with
  | some r => exact ⟨_, _, rfl, rfl, .ok rfl⟩
  | none => exact ⟨_, _, rfl, rfl, .error rfl⟩

theorem ordered_after_globals {l : Limits} {gs : List Global} {t : Store}
    (h : initGlobals l gs Store.initial = (.ok (), t)) : t.Ordered := by
  have hready : (Point.globals l.depth gs).Ready Store.initial := ⟨Store.initial_ordered, trivial⟩
  have hrun : (Point.globals l.depth gs).run l.rounds Store.initial = (.ok (), t) := h
  exact (hready.framed hrun).1

section

variable {q q' : Program} (hglobals : q'.globals = q.globals.map (Global.relabel ρ))
  (hfunctions : q'.functions.Perm (q.functions.map (Function.relabel ρ))) (hq : q.Callable)
  (l : Limits)
include hglobals hfunctions hq

/-- The functions may stand in another order. -/
theorem main_alike :
    Matched (fun why why' => why' = Stop.relabel ρ why) Eq (q.main l Store.initial).1
      (q'.main l Store.initial).1 ∧
      (q.main l Store.initial).2.Alike ρ (q'.main l Store.initial).2 := by
  have hfilled : ∀ f ∈ q'.functions, f.slot.isSome := by
    intro f hf
    obtain ⟨f, hmem, rfl⟩ := List.mem_map.mp (hfunctions.mem_iff.mp hf)
    exact hq.filled f hmem
  have hperm : (q'.functions.filterMap Function.routine?).Perm
      ((q.functions.filterMap Function.routine?).map (Routine.relabel ρ)) := by
    have hfilter := hfunctions.filterMap Function.routine?
    rw [List.filterMap_map] at hfilter
    rw [List.map_filterMap]
    refine hfilter.trans (.of_eq ?_)
    congr 1
    funext f
    exact f.routine?_relabel
  have hcall : Run.Alike ρ Eq (lookupMain >>= fun r => call (Stmt.execWithin l) l.depth r [])
      (lookupMain >>= fun r => call (Stmt.execWithin l) l.depth r []) := by
    apply lookupMain_alike.bind
    rintro r _ rfl
    exact call_alike (Expr.eval_exec_alike l.rounds l.depth).2 l.depth r []
  obtain ⟨hr, ht⟩ := initGlobals_alike l q.globals _ _ (Store.Alike.initial (ρ := ρ))
  rw [← hglobals] at hr ht
  rw [main_eq, main_eq, bind_apply, bind_apply]
  cases hrun : initGlobals l q.globals Store.initial with
  | mk r t =>
      cases hrun' : initGlobals l q'.globals Store.initial with
      | mk r' t' =>
          rw [hrun, hrun'] at hr ht
          cases hr with
          | error hwhy => exact ⟨.error hwhy, ht⟩
          | ok _ =>
              have hadded := ht.withRoutines (ordered_after_globals hrun)
                (ordered_after_globals hrun') Function.atRoot_of_mem Function.atRoot_of_mem
                hq.nodup hperm
              have hend := hcall _ _ hadded
              simp only [ExceptT.bindCont]
              rw [bind_apply, bind_apply, addFunctions_filled hq.filled,
                addFunctions_filled hfilled]
              exact hend

theorem runWithin_alike : (q.runWithin l).Alike ρ (q'.runWithin l) := by
  obtain ⟨hr, ht⟩ := main_alike hglobals hfunctions hq l
  unfold runWithin
  cases hrun : (q.main l).run Store.initial with
  | mk r s =>
      cases hrun' : (q'.main l).run Store.initial with
      | mk r' s' =>
          rw [show q.main l Store.initial = (r, s) from hrun,
            show q'.main l Store.initial = (r', s') from hrun'] at hr ht
          cases hr with
          | ok hv =>
              subst hv
              refine ⟨ht.output, ?_⟩
              dsimp only
              rw [ht.heap]
              cases s.heap.text? resultDepth _ with
              | some text => exact .ok rfl
              | none => exact .error rfl
          | @error why _ hwhy =>
              subst hwhy
              cases why <;> exact ⟨ht.output, .error rfl⟩

end

theorem runWithin_relabel (ρ : Relabeling) {q : Program} (hq : q.Callable) (l : Limits) :
    (q.runWithin l).Alike ρ ((q.relabel ρ).runWithin l) :=
  runWithin_alike rfl (.refl _) hq l

end Program

end PlcLang
