import PlcLang.Proofs.ListLengths
import PlcLang.Proofs.RunSteps

namespace PlcLang

open Plan Point

namespace Store

/-- What a single step of any run does to a store. -/
inductive Change (s : Store) : Store → Prop
  | same : Change s s
  | opened (parent : Nat) : Change s (s.opened parent)
  | defined (scope : Nat) (name : String) (cell : Cell) : Change s (s.define scope name cell)
  | bound (scope : Nat) (names : List String) (types : List Ty) (values : List Value) :
    Change s (s.bindParameters scope names types values)
  | extended (fs : List Function) : Change s (Program.addFunctions root fs s).2
  | printed (line : String) : Change s { s with output := s.output ++ line ++ "\n" }
  | allocated (vs : List Value) : Change s (s.alloc vs)
  | written (address i : Nat) (v : Value) : Change s (s.write address i v)

theorem Change.keeps {s t : Store} (h : s.Change t) : s.heap.Keeps t.heap := by
  cases h with
  | same | opened | defined | printed => exact .refl _
  | bound scope names types values =>
      rw [bindParameters_heap]
      exact .refl _
  | extended fs =>
      rw [(Program.addFunctions_unchanged fs s).1]
      exact .refl _
  | allocated vs => exact s.heap.keeps_alloc vs.toArray
  | written address i v => exact s.heap.keeps_write address i v

end Store

namespace Changes

variable {rounds depth scope : Nat} {s : Store} {α β : Type}

theorem read {m : Run α} {P : α → Prop} {Q : Stop → Prop} {f : α → Plan β} (h : m.Gives s P Q)
    (hf : ∀ a, (f a).Moves (run rounds) Store.Change s) :
    (atomic m >>= f).Moves (run rounds) Store.Change s :=
  .read h (fun _ => .same) fun a _ => hf a

theorem last {m : Run α} {P : α → Prop} {Q : Stop → Prop} (h : m.Gives s P Q) :
    (atomic m).Moves (run rounds) Store.Change s := by
  refine .atomic ?_
  obtain ⟨a, heq, _⟩ | ⟨why, heq, _⟩ := h <;> rw [heq] <;> exact .same

theorem decided {e : Expr} {f : Bool → Plan α}
    (hf : ∀ b t, (f b).Moves (run rounds) Store.Change t) :
    (do
      let v ← eval depth scope e
      let b ← atomic (Run.truth e.offset v)
      f b).Moves (run rounds) Store.Change s :=
  .asked fun v t _ => read (Run.truth_gives _ v) fun b => hf b t

theorem block (s : Store) (depth parent : Nat) (xs : List Stmt) :
    (blockPlan depth parent xs).Moves (run rounds) Store.Change s :=
  .acted rfl (.opened parent) (.await _)

theorem exprPlan_moves (s : Store) (depth scope : Nat) (e : Expr) :
    (exprPlan depth scope e).Moves (run rounds) Store.Change s := by
  cases e with
  | literal info value => exact .done _
  | group info inner => exact .await _
  | binary info op left right =>
      cases op with
      | and =>
          refine decided fun b t => ?_
          cases b with
          | false => exact .done _
          | true => exact decided fun _ _ => .done _
      | or =>
          refine decided fun b t => ?_
          cases b with
          | false => exact decided fun _ _ => .done _
          | true => exact .done _
      | _ => exact .asked fun v t _ => .asked fun w u _ => last (Run.operate_gives depth _ _ v w)
  | access info name slot => exact read (Run.lookup_gives scope name _) fun _ => .done _
  | element info name index slot =>
      refine read (Run.lookup_gives scope name _) fun found => ?_
      refine read (Run.addressOf_gives name _ found.2.value) fun address => ?_
      refine read (Run.lengthOf_gives address) fun length => .asked fun v t _ => ?_
      refine read (Run.position_gives _ _ v) fun i => ?_
      exact read (Run.elements_gives address) fun _ => .done _
  | call info name arguments slot =>
      exact read (Run.lookupRoutine_gives scope name _ _) fun r => .asked fun vs t _ => .await _
  | list info elements => exact .asked fun vs t _ => .atomic (.allocated vs)
  | unknown start node => exact .stop _

theorem assignment_moves (s : Store) (rounds depth scope offset : Nat) (receiver value : Expr) :
    (stmtPlan rounds depth scope (.assignment offset receiver value)).Moves (run rounds)
      Store.Change s := by
  cases receiver with
  | access info name slot =>
      refine read (Run.lookup_gives scope name _) fun found => ?_
      refine read (Run.requireMutable_gives found.2 name offset) fun _ => ?_
      exact .asked fun v t _ => .acted rfl (.defined _ _ _) (.done _)
  | element info name index slot =>
      refine read (Run.lookup_gives scope name _) fun found => ?_
      refine read (Run.requireMutable_gives found.2 name offset) fun _ => ?_
      refine read (Run.addressOf_gives name _ found.2.value) fun address => ?_
      refine read (Run.lengthOf_gives address) fun length => ?_
      refine .asked fun v t _ => read (Run.position_gives _ _ v) fun i => ?_
      exact .asked fun w u _ => .acted rfl (.written address i w) (.done _)
  | _ => exact .stop _

theorem stmtPlan_moves (s : Store) (rounds depth scope : Nat) (x : Stmt) :
    (stmtPlan rounds depth scope x).Moves (run rounds) Store.Change s := by
  cases x with
  | expression offset value => exact .asked fun _ _ _ => .done _
  | declaration offset name typeName value slot =>
      cases slot with
      | none => exact .stop _
      | some slot =>
          cases value with
          | none => exact .acted rfl (.defined _ _ _) (.done _)
          | some value => exact .asked fun v t _ => .acted rfl (.defined _ _ _) (.done _)
  | assignment offset receiver value =>
      exact assignment_moves s rounds depth scope offset receiver value
  | ifElse offset condition thenBody elseBody =>
      refine decided fun b t => ?_
      cases b with
      | false => exact block t depth scope elseBody
      | true => exact block t depth scope thenBody
  | switch offset condition cases =>
      exact .asked fun v t _ => .asked fun body u _ => block u depth scope body
  | whileDo offset condition body => exact .await _
  | ret offset value =>
      cases value with
      | none => exact .done _
      | some value => exact .asked fun _ _ _ => .done _
  | unknown start node => exact .stop _

theorem callPlan_moves (s : Store) (depth : Nat) (r : Routine) (values : List Value) :
    (callPlan depth r values).Moves (run rounds) Store.Change s := by
  obtain ⟨signature, body⟩ := r
  cases body with
  | print => exact read (Run.text_gives depth _) fun line => .acted rfl (.printed line) (.done _)
  | block parameters statements home =>
      refine .acted rfl (.opened home) ?_
      refine .acted (Run.bindParameters_eq s.size _ _ _ _) (.bound _ _ _ _) ?_
      exact .asked fun _ _ _ => .done _

theorem globals_moves (s : Store) (depth : Nat) (gs : List Global) :
    ((globals depth gs).plan rounds).Moves (run rounds) Store.Change s := by
  cases gs with
  | nil => exact .done _
  | cons g rest =>
      obtain ⟨offset, name, typeName, mutable, value, slot⟩ := g
      cases slot with
      | none => exact .stop _
      | some slot =>
          cases value with
          | none => exact .acted rfl (.defined _ _ _) (.await _)
          | some e => exact .asked fun v t _ => .acted rfl (.defined _ _ _) (.await _)

theorem plan_moves (rounds : Nat) (pt : Point) (s : Store) :
    (pt.plan rounds).Moves (run rounds) Store.Change s := by
  cases pt with
  | expr depth scope e =>
      cases depth with
      | zero => exact .stop _
      | succ depth => exact exprPlan_moves s depth scope e
  | exprs depth scope es =>
      cases es with
      | nil => exact .done _
      | cons e es => exact .asked fun _ _ _ => .asked fun _ _ _ => .done _
  | stmt depth scope x =>
      cases depth with
      | zero => exact .stop _
      | succ depth => exact stmtPlan_moves s rounds depth scope x
  | stmts depth scope xs =>
      cases xs with
      | nil => exact .done _
      | cons x xs =>
          refine .asked fun r t _ => ?_
          cases r with
          | some v => exact .done _
          | none => exact .await _
  | loop n depth scope condition body =>
      cases n with
      | zero => exact .stop _
      | succ n =>
          refine decided fun b t => ?_
          cases b with
          | false => exact .done _
          | true =>
              refine .bind (block t depth scope body) fun r u _ => ?_
              cases r with
              | some v => exact .done _
              | none => exact .await _
  | select depth scope v cases =>
      cases cases with
      | nil => exact .done _
      | cons c rest =>
          obtain ⟨offset, value, body⟩ := c
          cases value with
          | none => exact .done _
          | some e =>
              refine .asked fun w t _ => read (Run.equal_gives depth w v) fun b => ?_
              cases b with
              | true => exact .done _
              | false => exact .await _
  | call depth r values => exact callPlan_moves s depth r values
  | globals depth gs => exact globals_moves s depth gs
  | program depth p =>
      refine .asked fun _ t _ => .bind (.atomic (.extended p.functions)) fun _ u _ => ?_
      exact read Run.lookupMain_gives fun r => .await _

end Changes

namespace Point

variable {rounds : Nat} {start : Point} {s t : Store}

theorem Visits.keeps_lists (h : Visits rounds start s t) : s.heap.Keeps t.heap := by
  have hleads := h.leads
  clear h
  induction hleads with
  | refl => exact .refl _
  | tail _ hstep ih =>
      obtain ⟨pt, v, _, hstep⟩ := hstep
      exact ih.trans (Changes.plan_moves rounds pt v _ _ hstep).keeps

theorem run_keeps_lists (rounds : Nat) (start : Point) (s : Store) :
    s.heap.Keeps (start.run rounds s).2.heap :=
  (visits_end rounds start s).keeps_lists

end Point

namespace Store

/-- The name leads to a mutable variable that holds the list at the address. -/
def Fetches (s : Store) (scope : Nat) (name : String) (address : Nat) : Prop :=
  ∃ home cell, s.scopes.findVariable? scope name = some (home, cell) ∧ cell.mutable = true ∧
    cell.value = .list address

/-- The later store has the value at the position in the list at the address, which is a position of
that list, and is otherwise the same. -/
structure Puts (s : Store) (address i : Nat) (v : Value) (t : Store) : Prop where
  within : i < (s.heap.elements address).size
  scopes : t.scopes = s.scopes
  output : t.output = s.output
  size : t.heap.lists.size = s.heap.lists.size
  slot : ∀ b j, (t.heap.elements b)[j]? =
    if b = address ∧ j = i then some v else (s.heap.elements b)[j]?

theorem puts_write {s : Store} {address i : Nat} (h : i < (s.heap.elements address).size)
    (v : Value) : s.Puts address i v (s.write address i v) where
  within := h
  scopes := rfl
  output := rfl
  size := Array.size_modify
  slot b j := by
    have hlt : address < s.heap.lists.size :=
      Heap.lt_size_of_mem_elements (Array.getElem_mem h)
    simp only [write, Heap.write, Heap.elements, Heap.get?, Array.getElem?_modify] at h ⊢
    by_cases hb : b = address
    · subst hb
      simp only [Array.getElem?_eq_getElem hlt, Option.getD_some] at h
      simp [Array.getElem?_eq_getElem hlt, Array.getElem?_setIfInBounds, h, eq_comm]
    · rw [if_neg (Ne.symm hb), if_neg (fun hboth => hb hboth.1)]

end Store

/-- The index of an element is a position of the list that was found before the evaluation of the
index, from the store `s` to the store `t`. -/
structure Indexed (rounds depth scope : Nat) (name : String) (index : Expr) (s : Store)
    (address i : Nat) (t : Store) : Prop where
  fetched : s.Fetches scope name address
  evaluated : index.eval rounds depth scope s = (.ok (.integer i), t)
  within : i < (t.heap.elements address).size
  /-- The list had this length already when it was found. -/
  within_fetched : i < (s.heap.elements address).size

/-- How an assignment to an element ends, and in which store, if it begins in the store `s`. -/
inductive ElementAssigned (rounds depth scope : Nat) (name : String) (index value : Expr)
    (s : Store) : Except Stop (Option Value) × Store → Prop
  /-- The name leads to no list that may be changed. -/
  | refused (why : Stop) : (∀ address, ¬ s.Fetches scope name address) →
    ElementAssigned rounds depth scope name index value s (.error why, s)
  | indexStopped {address : Nat} {why : Stop} {t : Store} : s.Fetches scope name address →
    index.eval rounds depth scope s = (.error why, t) →
    ElementAssigned rounds depth scope name index value s (.error why, t)
  /-- The index is no position of the list. -/
  | indexRefused {address : Nat} {v : Value} {t : Store} (why : Stop) :
    s.Fetches scope name address → index.eval rounds depth scope s = (.ok v, t) →
    (∀ i : Nat, v = .integer i → (s.heap.elements address).size ≤ i) →
    ElementAssigned rounds depth scope name index value s (.error why, t)
  | valueStopped {address i : Nat} {why : Stop} {t u : Store} :
    Indexed rounds depth scope name index s address i t →
    value.eval rounds depth scope t = (.error why, u) →
    ElementAssigned rounds depth scope name index value s (.error why, u)
  | written {address i : Nat} {v : Value} {t u u' : Store} :
    Indexed rounds depth scope name index s address i t →
    value.eval rounds depth scope t = (.ok v, u) → u.Puts address i v u' →
    ElementAssigned rounds depth scope name index value s (.ok none, u')

theorem Run.position_spec (length offset : Nat) (v : Value) (t : Store) :
    (∃ i : Nat, v = .integer i ∧ i < length ∧ position length offset v t = (.ok i, t)) ∨
      ∃ why, position length offset v t = (.error why, t) ∧
        ∀ i : Nat, v = .integer i → length ≤ i := by
  cases v with
  | integer n =>
      rw [position]
      split
      · next h => exact .inl ⟨n.toNat, by rw [Int.toNat_of_nonneg h.1], by omega, rfl⟩
      · next h =>
          refine .inr ⟨_, rfl, fun i hi => ?_⟩
          cases hi
          omega
  | _ =>
      refine .inr ⟨_, rfl, ?_⟩
      rintro i ⟨⟩

namespace Run

variable {s : Store}

def fetch (scope : Nat) (name : String) (place offset : Nat) : Run Nat := do
  let found ← lookup scope name place
  requireMutable found.2 name offset
  addressOf name place found.2.value

theorem fetch_gives (scope : Nat) (name : String) (place offset : Nat) :
    Gives (fetch scope name place offset) s (s.Fetches scope name) fun _ =>
      ∀ address, ¬ s.Fetches scope name address := by
  refine ((lookup_gives scope name place).mono (fun _ => id) ?_).bind fun ⟨home, cell⟩ hfound => ?_
  · rintro why hnone address ⟨home, cell, hcell, _⟩
    rw [hnone] at hcell
    cases hcell
  -- The variable is the only one that the name leads to.
  have hsame {address : Nat} (h : s.Fetches scope name address) :
      cell.mutable = true ∧ cell.value = .list address := by
    obtain ⟨home', cell', hfound', hm, hvalue⟩ := h
    cases hfound.symm.trans hfound'
    exact ⟨hm, hvalue⟩
  refine ((requireMutable_gives cell name offset).mono (fun _ => id) ?_).bind fun _ hm => ?_
  · intro why hm address hfetch
    rw [(hsame hfetch).1] at hm
    cases hm
  · cases hvalue : cell.value with
    | list address => exact .pure ⟨home, cell, hfound, hm, hvalue⟩
    | _ =>
        refine .fault fun address hfetch => ?_
        rw [(hsame hfetch).2] at hvalue
        cases hvalue

end Run

section

variable (rounds depth scope offset : Nat) (info : Info) (name : String) (index : Expr)
  (slot : Option Variable) (value : Expr)

theorem Stmt.exec_element : Stmt.exec rounds (depth + 1) scope
    (.assignment offset (.element info name index slot) value) = (do
      let address ← Run.fetch scope name info.offset offset
      let length ← Run.lengthOf address
      let v ← index.eval rounds depth scope
      let i ← Run.position length index.offset v
      let w ← value.eval rounds depth scope
      Run.write address i w
      return none) := by
  rw [← stmtPlan_follow]
  simp only [stmtPlan, follow_bind, follow_atomic, follow_eval, follow_pure, Run.fetch, bind_assoc]

theorem Stmt.element_assigned (s : Store) :
    ElementAssigned rounds depth scope name index value s (Stmt.exec rounds (depth + 1) scope
      (.assignment offset (.element info name index slot) value) s) := by
  have hkeeps {e : Expr} {r : Except Stop Value} {s t : Store}
      (h : e.eval rounds depth scope s = (r, t)) : s.heap.Keeps t.heap := by
    simpa only [run, h] using run_keeps_lists rounds (expr depth scope e) s
  rw [exec_element]
  obtain ⟨address, hfetch, hfetched⟩ | ⟨why, hfetch, hnone⟩ :=
    Run.fetch_gives scope name info.offset offset (s := s)
  swap
  · rw [Run.bind_error hfetch]
    exact .refused why hnone
  have hlength : Run.lengthOf address s = (.ok (s.heap.elements address).size, s) := rfl
  rw [Run.bind_ok hfetch, Run.bind_ok hlength]
  cases hindex : index.eval rounds depth scope s with
  | mk result t =>
      cases result with
      | error why =>
          rw [Run.bind_error hindex]
          exact .indexStopped hfetched hindex
      | ok v =>
          rw [Run.bind_ok hindex]
          obtain ⟨i, rfl, hi, hposition⟩ | ⟨why, hposition, hout⟩ :=
            Run.position_spec (s.heap.elements address).size index.offset v t
          swap
          · rw [Run.bind_error hposition]
            exact .indexRefused why hfetched hindex hout
          rw [Run.bind_ok hposition]
          -- The evaluations of the index and of the value have left the list its length.
          have ha := Heap.lt_size_of_mem_elements (Array.getElem_mem hi)
          have hi' : i < (t.heap.elements address).size :=
            (hkeeps hindex).length address ha ▸ hi
          have hindexed : Indexed rounds depth scope name index s address i t :=
            ⟨hfetched, hindex, hi', hi⟩
          cases hvalue : value.eval rounds depth scope t with
          | mk result u =>
              cases result with
              | error why =>
                  rw [Run.bind_error hvalue]
                  exact .valueStopped hindexed hvalue
              | ok w =>
                  rw [Run.bind_ok hvalue]
                  have ha' := Heap.lt_size_of_mem_elements (Array.getElem_mem hi')
                  have hi'' : i < (u.heap.elements address).size :=
                    (hkeeps hvalue).length address ha' ▸ hi'
                  exact .written hindexed hvalue (Store.puts_write hi'' w)

end

/-- Statements that are run in any store leave each list its length, at every moment and however
they end, and each assignment to an element puts a value at the position that was checked, in the
list that was found first, or leaves what the evaluation of its index and value has left. -/
theorem Stmt.lists_keep_lengths (rounds depth scope : Nat) (xs : List Stmt) (s : Store) :
    (∀ t, Visits rounds (stmts depth scope xs) s t → s.heap.Keeps t.heap) ∧
      s.heap.Keeps (Run.inOrder (Stmt.exec rounds depth scope) xs s).2.heap ∧
      ∀ (depth scope offset : Nat) (info : Info) (name : String) (index : Expr)
        (slot : Option Variable) (value : Expr) (t : Store),
        ElementAssigned rounds depth scope name index value t (Stmt.exec rounds (depth + 1) scope
          (.assignment offset (.element info name index slot) value) t) :=
  ⟨fun _ h => h.keeps_lists, run_keeps_lists rounds (stmts depth scope xs) s,
    fun depth scope offset info name index slot value t =>
      element_assigned rounds depth scope offset info name index slot value t⟩

end PlcLang
