import PlcLang.Proofs.CheckerContext
import PlcLang.Proofs.DecimalValue
import PlcLang.Proofs.ListLengths

namespace PlcLang

open Plan Point

def truncDiv? (a b : Int) : Option Int := if b = 0 then none else some (truncDiv a b)

def Decimal.div? (a b : Decimal) : Option Decimal := if b.value = 0 then none else some (a.div b)

def intPower? (a b : Int) : Option Int := if b < 0 then none else some (intPower a b.toNat)

def Value.ordered : Value → Bool
  | integer _ | decimal _ | character _ | string _ => true
  | nil | boolean _ | list _ => false

/-- In both directions the order is there for values of one ordered type. -/
theorem Value.less?_isSome (v w : Value) :
    ((v.less? w).isSome ↔ v.typeName = w.typeName ∧ v.ordered = true) ∧
      ((w.less? v).isSome ↔ v.typeName = w.typeName ∧ v.ordered = true) := by
  cases v <;> cases w <;> simp [less?, typeName, ordered]

namespace Run

variable {α : Type}

section

variable (failure : Stop)

def given : Option α → Run α
  | some a => pure a
  | none => throw failure

def firstOf (values : List Value) : Run Value := given failure values.head?

def elementAt (address i : Nat) : Run Value := do given failure (← elements address)[i]?

def replaceAt (address i : Nat) (value : Value) : Run Unit := do
  if i < (← elements address).size then write address i value else throw failure

def partialLess (offset : Nat) (v w : Value) (less : Option Bool) : Run Value :=
  if v.typeName = w.typeName ∧ v.ordered = true then .boolean <$> given failure less
  else fault (.incomparable v.typeName w.typeName) offset

/-- A strict operator that leaves order and arithmetic to partial operations. -/
def partialOperate (depth offset : Nat) : BinOp → Value → Value → Run Value
  | .lt, v, w => partialLess failure offset v w (v.less? w)
  | .gt, v, w => partialLess failure offset v w (w.less? v)
  | .div, .integer a, .integer b =>
    if b = 0 then fault .divisionByZero offset else .integer <$> given failure (truncDiv? a b)
  | .div, .decimal a, .decimal b =>
    if b.isZero then fault .divisionByZero offset else .decimal <$> given failure (a.div? b)
  | .pow, .integer a, .integer b =>
    if b < 0 then fault (.negativeExponent b) offset
    else .integer <$> given failure (intPower? a b)
  | op, v, w => operate depth offset op v w

end

variable {failure : Stop} {s : Store} {address i : Nat}

theorem given_map_some {β : Type} (f : α → β) (a : α) :
    f <$> given failure (some a) = pure (f a) := by
  funext s
  rfl

theorem partialLess_eq (op : BinOp) {v w : Value} {less : Option Bool}
    (hless : (if op = .gt then w.less? v else v.less? w) = less)
    (hsome : less.isSome ↔ v.typeName = w.typeName ∧ v.ordered = true) (offset : Nat) :
    partialLess failure offset v w less = lift offset (op.compare v w) := by
  rw [partialLess, BinOp.compare, hless]
  cases less with
  | none => exact if_neg fun h => absurd (hsome.mpr h) Bool.false_ne_true
  | some b => exact (if_pos (hsome.mp rfl)).trans (given_map_some _ b)

theorem partialOperate_eq (depth offset : Nat) (op : BinOp) (v w : Value) :
    partialOperate failure depth offset op v w = operate depth offset op v w := by
  unfold partialOperate
  split
  · exact partialLess_eq .lt (if_neg nofun) (Value.less?_isSome v w).1 offset
  · exact partialLess_eq .gt (if_pos rfl) (Value.less?_isSome v w).2 offset
  · next a b =>
      simp only [operate, BinOp.combine, BinOp.integers]
      by_cases hb : b = 0
      · rw [if_pos hb, if_pos hb]
        rfl
      · rw [if_neg hb, if_neg hb, truncDiv?, if_neg hb, given_map_some]
        rfl
  · next a b =>
      simp only [operate, BinOp.combine, BinOp.decimals]
      by_cases hb : b.isZero = true
      · rw [if_pos hb, if_pos hb]
        rfl
      · have hvalue : b.value ≠ 0 := fun h => hb (b.value_eq_zero_iff.mp h)
        rw [if_neg hb, if_neg hb, Decimal.div?, if_neg hvalue, given_map_some]
        rfl
  · next a b =>
      simp only [operate, BinOp.power]
      by_cases hb : b < 0
      · rw [if_pos hb, if_pos hb]
        rfl
      · rw [if_neg hb, if_neg hb, intPower?, if_neg hb, given_map_some]
        rfl
  · rfl

theorem elementAt_eq (hi : i < (s.heap.elements address).size) :
    elementAt failure address i s = (.ok ((s.heap.elements address).getD i .nil), s) := by
  change given failure (s.heap.elements address)[i]? s = _
  rw [Array.getD_eq_getD_getElem?, Array.getElem?_eq_getElem hi]
  rfl

theorem replaceAt_eq (hi : i < (s.heap.elements address).size) (value : Value) :
    replaceAt failure address i value s = write address i value s := by
  change (if i < (s.heap.elements address).size then write address i value
    else throw failure : Run Unit) s = _
  rw [if_pos hi]

end Run

namespace Plan

variable {α β : Type} {answer : (pt : Point) → Run pt.Result} {s : Store}

/-- What comes after a part may be put in the place of something that does the same after it. -/
theorem follow_bind_congr {x : Plan α} {f g : α → Plan β}
    (h : ∀ a t, x.follow answer s = (.ok a, t) → (f a).follow answer t = (g a).follow answer t) :
    (x >>= f).follow answer s = (x >>= g).follow answer s := by
  rw [follow_bind, follow_bind, Run.bind_apply, Run.bind_apply]
  cases hx : x.follow answer s with
  | mk r t =>
      cases r with
      | ok a => exact h a t hx
      | error why => rfl

theorem follow_read_congr {m : Run α} {P : α → Prop} {Q : Stop → Prop} {f g : α → Plan β}
    (hm : m.Gives s P Q) (h : ∀ a, P a → (f a).follow answer s = (g a).follow answer s) :
    (atomic m >>= f).follow answer s = (atomic m >>= g).follow answer s := by
  refine follow_bind_congr fun a t hrun => ?_
  rw [follow_atomic] at hrun
  obtain ⟨_, heq, ha⟩ | ⟨_, heq, _⟩ := hm
  · cases hrun.symm.trans heq
    exact h a ha
  · cases hrun.symm.trans heq

theorem follow_atomic_congr {m m' : Run α} (h : m s = m' s) (f : α → Plan β) :
    (atomic m >>= f).follow answer s = (atomic m' >>= f).follow answer s := by
  rw [follow_bind, follow_bind, follow_atomic, follow_atomic, Run.bind_apply, Run.bind_apply, h]

end Plan

namespace Point

section

variable (failure : Stop) (rounds depth scope : Nat)

def partialExprPlan : Expr → Plan Value
  | .binary info .and left right => exprPlan depth scope (.binary info .and left right)
  | .binary info .or left right => exprPlan depth scope (.binary info .or left right)
  | .binary info op left right => do
    let v ← eval depth scope left
    let w ← eval depth scope right
    atomic (Run.partialOperate failure depth info.offset op v w)
  | .element info name index _ => do
    let found ← atomic (Run.lookup scope name info.offset)
    let address ← atomic (Run.addressOf name info.offset found.2.value)
    let length ← atomic (Run.lengthOf address)
    let v ← eval depth scope index
    let i ← atomic (Run.position length index.offset v)
    atomic (Run.elementAt failure address i)
  | e => exprPlan depth scope e

def partialStmtPlan : Stmt → Plan (Option Value)
  | .assignment offset (.element info name index _) value => do
    let found ← atomic (Run.lookup scope name info.offset)
    atomic (Run.requireMutable found.2 name offset)
    let address ← atomic (Run.addressOf name info.offset found.2.value)
    let length ← atomic (Run.lengthOf address)
    let v ← eval depth scope index
    let i ← atomic (Run.position length index.offset v)
    let w ← eval depth scope value
    atomic (Run.replaceAt failure address i w)
    return none
  | x => stmtPlan rounds depth scope x

def partialCallPlan (r : Routine) (values : List Value) : Plan Value :=
  match r.body with
  | .print => do
    let v ← atomic (Run.firstOf failure values)
    let text ← atomic (Run.text depth v)
    atomic (Run.printLine text)
    return .nil
  | .block .. => callPlan depth r values

/-- What is done at a point, with operations that fail outside of their domain. -/
def partialPlan : (pt : Point) → Plan pt.Result
  | expr (depth + 1) scope e => partialExprPlan failure depth scope e
  | stmt (depth + 1) scope x => partialStmtPlan failure rounds depth scope x
  | call depth r values => partialCallPlan failure depth r values
  | pt => pt.plan rounds

end

variable {failure : Stop} {allowed : Ty → Prop} {rounds depth scope address length : Nat}
  {s t : Store} {α : Type}

theorem follow_lengthOf (f : Nat → Plan α) :
    (atomic (Run.lengthOf address) >>= f).follow (run rounds) s =
      (f (s.heap.elements address).size).follow (run rounds) s := rfl

theorem follow_eval_congr {e : Expr} {f g : Value → Plan α} (hordered : s.Ordered)
    (hscope : scope < s.size) (hs : s.Closed)
    (h : ∀ v t, t.Ordered → scope < t.size → t.Closed → s.heap.Keeps t.heap →
      (f v).follow (run rounds) t = (g v).follow (run rounds) t) :
    (eval depth scope e >>= f).follow (run rounds) s =
      (eval depth scope e >>= g).follow (run rounds) s := by
  refine follow_bind_congr fun v t hrun => ?_
  have hready : (expr depth scope e).Ready s := ⟨hordered, hscope⟩
  rw [follow_eval] at hrun
  obtain ⟨ht, hk⟩ := hready.framed hrun
  obtain ⟨hclosed, hlengths, _⟩ := hready.keeps_lists hs trivial hrun
  exact h v t ht (Nat.lt_of_lt_of_le hscope hk.size_le) hclosed hlengths

theorem partialExprPlan_follow (hordered : s.Ordered) (hscope : scope < s.size) (hs : s.Closed)
    (e : Expr) : (partialExprPlan failure depth scope e).follow (run rounds) s =
      (exprPlan depth scope e).follow (run rounds) s := by
  cases e with
  | binary info op left right =>
      cases op with
      | and | or => rfl
      | _ =>
          refine follow_bind_congr fun v t _ => follow_bind_congr fun w u _ => ?_
          rw [Run.partialOperate_eq]
  | element info name index slot =>
      refine follow_read_congr (Run.lookup_gives scope name _) fun found hfound => ?_
      refine follow_read_congr (Run.addressOf_gives name _ found.2.value) fun address haddress => ?_
      have hallocated := Storage.found_allocated hs hordered hfound
      rw [haddress] at hallocated
      rw [follow_lengthOf, follow_lengthOf]
      refine follow_eval_congr hordered hscope hs fun v t _ _ _ hk => ?_
      have hlength := hk.length address hallocated
      refine follow_read_congr (Run.position_gives _ _ v) fun i hi => ?_
      rw [follow_atomic, Run.elementAt_eq (hlength ▸ hi)]
      rfl
  | _ => rfl

theorem partialStmtPlan_follow (hordered : s.Ordered) (hscope : scope < s.size) (hs : s.Closed)
    (x : Stmt) : (partialStmtPlan failure rounds depth scope x).follow (run rounds) s =
      (stmtPlan rounds depth scope x).follow (run rounds) s := by
  cases x with
  | assignment offset receiver value =>
      cases receiver with
      | element info name index slot =>
          refine follow_read_congr (Run.lookup_gives scope name _) fun found hfound => ?_
          refine follow_read_congr (Run.requireMutable_gives found.2 name offset) fun _ _ => ?_
          refine follow_read_congr (Run.addressOf_gives name _ found.2.value)
            fun address haddress => ?_
          have hallocated := Storage.found_allocated hs hordered hfound
          rw [haddress] at hallocated
          rw [follow_lengthOf, follow_lengthOf]
          refine follow_eval_congr hordered hscope hs fun v t ht hscope' ht' hk => ?_
          have hlength := hk.length address hallocated
          refine follow_read_congr (Run.position_gives _ _ v) fun i hi => ?_
          -- The new value is evaluated after the bounds have been checked.
          refine follow_eval_congr ht hscope' ht' fun w u _ _ _ hk' => ?_
          have hallocated' := Nat.lt_of_lt_of_le hallocated hk.size_le
          have hlength' := (hk'.length address hallocated').trans hlength
          exact follow_atomic_congr (Run.replaceAt_eq (hlength' ▸ hi) w) _
      | _ => rfl
  | _ => rfl

theorem partialCallPlan_follow {r : Routine} {values : List Value} (hr : s.Fits allowed r)
    (hlen : values.length = r.signature.arity) :
    (partialCallPlan failure depth r values).follow (run rounds) s =
      (callPlan depth r values).follow (run rounds) s := by
  obtain rfl | ⟨parameters, statements, _, hbody, _⟩ := hr
  · cases values with
    | nil => cases hlen
    | cons v vs => rfl
  · rw [partialCallPlan, hbody]

/-- At a point of a checked program, partial operations do what the total ones do. -/
theorem Known.partialPlan_follow {pt : Point} (h : pt.Known allowed s) (hs : s.Closed) :
    (pt.partialPlan failure rounds).follow (run rounds) s = pt.run rounds s := by
  rw [congrFun (run_eq_follow rounds pt) s]
  obtain ⟨⟨hordered, hplaced⟩, _, hpt⟩ := h
  cases pt with
  | expr depth scope e =>
      cases depth with
      | zero => rfl
      | succ depth => exact partialExprPlan_follow hordered hplaced hs e
  | stmt depth scope x =>
      cases depth with
      | zero => rfl
      | succ depth => exact partialStmtPlan_follow hordered hplaced.2 hs x
  | call depth r values => exact partialCallPlan_follow hpt.1 hpt.2
  | _ => rfl

end Point

namespace Stmt

section

variable (failure : Violation) (ctx : Context) (depth offset : Nat)

/-- A LET statement, which has a type or a value once both being absent has been ruled out. -/
def partialDeclaration (name : String) (typeName : Option String) (value : Option Expr) :
    Check (Stmt × Context) := do
  if typeName.isNone ∧ value.isNone then throw ⟨.bareDeclaration name, some offset⟩
  let written ← typeName.mapM (namedType · offset)
  let value ← checkOptional ctx depth value
  if let (some written, some (type, e)) := (written, value) then
    fits written type e.offset
  let type ← match written, value.map Prod.fst with
    | some type, _ | none, some type => pure type
    | none, none => throw failure
  let (v, ctx) ← ctx.declare name type true offset
  return (.declaration offset name typeName (value.map Prod.snd) (some v), ctx)

/-- An assignment, which takes the slot of its receiver to be filled once that has been checked. -/
def partialAssignment (receiver value : Expr) : Check Stmt := do
  let (target, receiver) ←
    match receiver with
    | .access .. | .element .. => receiver.check ctx depth
    | _ => throw ⟨.notReceiver, some offset⟩
  match receiver with
  | .access _ name (some v) | .element _ name _ (some v) =>
    if !v.mutable then throw ⟨.immutable name, some offset⟩
  | _ => throw failure
  let (type, value) ← value.check ctx depth
  fits target type value.offset
  return .assignment offset receiver value

end

variable {failure : Violation} {ctx : Context} {depth offset : Nat}

theorem partialDeclaration_eq (name : String) (typeName : Option String) (value : Option Expr) :
    partialDeclaration failure ctx depth offset name typeName value =
      checkDeclaration ctx depth offset name typeName value := by
  unfold partialDeclaration checkDeclaration
  cases typeName with
  | none =>
      cases value with
      | none => rfl
      | some e =>
          simp only [checkOptional]
          cases e.check ctx depth <;> rfl
  | some typeName =>
      simp only [Option.mapM_some]
      cases namedType typeName offset with
      | error v => rfl
      | ok type =>
          cases value with
          | none => rfl
          | some e =>
              simp only [checkOptional]
              cases e.check ctx depth <;> rfl

theorem partialAssignment_eq (receiver value : Expr) :
    partialAssignment failure ctx depth offset receiver value =
      checkAssignment ctx depth offset receiver value := by
  unfold partialAssignment checkAssignment
  cases receiver with
  | access info name slot =>
      cases h : (Expr.access info name slot).check ctx depth with
      | error v => rfl
      | ok r =>
          obtain ⟨target, receiver⟩ := r
          obtain ⟨v, _, _, rfl⟩ := Expr.check_access_shape h
          rfl
  | element info name index slot =>
      cases h : (Expr.element info name index slot).check ctx depth with
      | error v => rfl
      | ok r =>
          obtain ⟨target, receiver⟩ := r
          obtain ⟨v, _, _, _, rfl⟩ := Expr.check_element_shape h
          rfl
  | _ => rfl

end Stmt

end PlcLang
