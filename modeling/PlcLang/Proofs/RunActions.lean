import PlcLang.Proofs.Contracts
import PlcLang.Proofs.ScopeChain

namespace PlcLang

/-- The faults of a name or a node that has no meaning where it stands. -/
def FaultCause.Unresolved : FaultCause → Prop
  | unknownVariable _ | unknownFunction _ _ | immutable _ | notReceiver | unknownStatement _
  | unknownExpression _ | unknownOperator _ | noMain => True
  | _ => False

def Stop.Ordinary : Stop → Prop
  | fault f => ¬ f.cause.Unresolved
  | tooDeep | endless => True
  | missingSlot => False

/-- The stops of an action that is taken at a place: a fault that speaks of the place, or going too
deep. -/
inductive Stop.Local (offset : Nat) : Stop → Prop
  | fault (cause : FaultCause) : Local offset (.fault ⟨cause, some offset⟩)
  | tooDeep : Local offset .tooDeep

def BinOp.Strict (op : BinOp) : Prop := op ∈ [lt, gt, eq, ne, add, sub, mul, div, pow]

instance (op : BinOp) : Decidable op.Strict :=
  inferInstanceAs (Decidable (op ∈ [BinOp.lt, .gt, .eq, .ne, .add, .sub, .mul, .div, .pow]))

/-- What a strict operator may make of two values. -/
inductive BinOp.Yields : BinOp → Value → Value → Value → Prop
  | truth {op : BinOp} {v w : Value} (b : Bool) : op ∈ [lt, gt, eq, ne] → Yields op v w (.boolean b)
  | textLeft (w : Value) (s t : String) : Yields add (.string s) w (.string t)
  | textRight (v : Value) (s t : String) : Yields add v (.string s) (.string t)
  | integers {op : BinOp} (a b c : Int) : op ∈ [add, sub, mul, div, pow] →
      Yields op (.integer a) (.integer b) (.integer c)
  | decimals {op : BinOp} (a b c : Decimal) : op ∈ [add, sub, mul, div] →
      Yields op (.decimal a) (.decimal b) (.decimal c)

namespace Run

variable {α : Type}

theorem bind_apply {β : Type} (m : Run β) (f : β → Run α) (s : Store) :
    (m >>= f) s = ExceptT.bindCont f (m s).1 (m s).2 := rfl

theorem bind_ok {β : Type} {m : Run β} {f : β → Run α} {s t : Store} {b : β}
    (h : m s = (.ok b, t)) : (m >>= f) s = f b t := by
  rw [bind_apply, h]
  rfl

theorem bind_error {β : Type} {m : Run β} {f : β → Run α} {s t : Store} {why : Stop}
    (h : m s = (.error why, t)) : (m >>= f) s = (.error why, t) := by
  rw [bind_apply, h]
  rfl

/-- The action leaves the store as it is and gives a result as described, or stops as described. -/
def Gives (m : Run α) (s : Store) (P : α → Prop) (Q : Stop → Prop) : Prop :=
  (∃ a, m s = (.ok a, s) ∧ P a) ∨ ∃ why, m s = (.error why, s) ∧ Q why

theorem Gives.self {m : Run α} {s : Store} {P : α → Prop} {Q : Stop → Prop} (h : Gives m s P Q) :
    Gives m s (fun a => m s = (.ok a, s)) Q :=
  h.imp_left fun ⟨a, heq, _⟩ => ⟨a, heq, heq⟩

theorem Gives.ends {ι : Type} {C : Contract ι} {Φ : α → Store → Prop} {m : Run α} {s : Store}
    {P : α → Prop} {Q : Stop → Prop} (h : Gives m s P Q) (hs : C.inv s)
    (hP : ∀ a, P a → Φ a s) (hQ : ∀ why, Q why → C.stops why) : C.Ends Φ (m s) := by
  obtain ⟨a, heq, ha⟩ | ⟨why, heq, hwhy⟩ := h
  · rw [heq]
    exact ⟨hs, hP a ha⟩
  · rw [heq]
    exact ⟨hs, hQ why hwhy⟩

theorem Gives.mono {m : Run α} {s : Store} {P P' : α → Prop} {Q Q' : Stop → Prop}
    (h : Gives m s P Q) (hP : ∀ a, P a → P' a) (hQ : ∀ why, Q why → Q' why) : Gives m s P' Q' :=
  h.imp (fun ⟨a, heq, ha⟩ => ⟨a, heq, hP a ha⟩) fun ⟨why, heq, hwhy⟩ => ⟨why, heq, hQ why hwhy⟩

variable {P : α → Prop} {Q : Stop → Prop} {s : Store}

theorem Gives.pure {a : α} (ha : P a) : Gives (Pure.pure a) s P Q := .inl ⟨a, rfl, ha⟩

theorem Gives.fault {cause : FaultCause} {offset : Nat} (h : Q (.fault ⟨cause, some offset⟩)) :
    Gives (Run.fault cause offset : Run α) s P Q := .inr ⟨_, rfl, h⟩

theorem Gives.bind {β : Type} {m : Run β} {f : β → Run α} {R : β → Prop} (h : Gives m s R Q)
    (hf : ∀ b, R b → Gives (f b) s P Q) : Gives (m >>= f) s P Q := by
  unfold Gives
  rw [bind_apply]
  obtain ⟨b, heq, hb⟩ | ⟨why, heq, hwhy⟩ := h
  · rw [heq]
    exact hf b hb
  · rw [heq]
    exact .inr ⟨why, rfl, hwhy⟩

theorem truth_gives (offset : Nat) (v : Value) :
    Gives (truth offset v) s (fun b => v = .boolean b) Stop.Ordinary := by
  cases v with
  | boolean b => exact .pure rfl
  | _ => exact .fault id

theorem addressOf_gives (name : String) (offset : Nat) (v : Value) :
    Gives (addressOf name offset v) s (fun a => v = .list a) Stop.Ordinary := by
  cases v with
  | list a => exact .pure rfl
  | _ => exact .fault id

theorem elements_gives (address : Nat) :
    Gives (elements address) s (fun vs => vs = s.heap.elements address) fun _ => False :=
  .inl ⟨_, rfl, rfl⟩

theorem lengthOf_gives (address : Nat) :
    Gives (lengthOf address) s (fun n => n = (s.heap.elements address).size) fun _ => False :=
  .inl ⟨_, rfl, rfl⟩

theorem position_gives (length offset : Nat) (v : Value) :
    Gives (position length offset v) s (fun i => i < length) Stop.Ordinary := by
  cases v with
  | integer i =>
      rw [position]
      split
      · next h => exact .pure (by omega)
      · exact .fault id
  | _ => exact .fault id

theorem lookup_gives (scope : Nat) (name : String) (offset : Nat) :
    Gives (lookup scope name offset) s (fun found => s.scopes.findVariable? scope name = some found)
      fun _ => s.scopes.findVariable? scope name = none := by
  unfold Gives lookup
  cases s.scopes.findVariable? scope name with
  | some found => exact .inl ⟨found, rfl, rfl⟩
  | none => exact .inr ⟨_, rfl, rfl⟩

theorem lookupRoutine_gives (scope : Nat) (name : String) (arity offset : Nat) :
    Gives (lookupRoutine scope name arity offset) s
      (fun r => s.scopes.findFunction? scope name arity = some r)
      fun _ => s.scopes.findFunction? scope name arity = none := by
  unfold Gives lookupRoutine
  cases s.scopes.findFunction? scope name arity with
  | some r => exact .inl ⟨r, rfl, rfl⟩
  | none => exact .inr ⟨_, rfl, rfl⟩

theorem lookupMain_gives :
    Gives lookupMain s (fun r => s.scopes.findFunction? Store.root "main" 0 = some r)
      fun _ => s.scopes.findFunction? Store.root "main" 0 = none := by
  unfold Gives lookupMain
  cases s.scopes.findFunction? Store.root "main" 0 with
  | some r => exact .inl ⟨r, rfl, rfl⟩
  | none => exact .inr ⟨_, rfl, rfl⟩

theorem requireMutable_gives (cell : Cell) (name : String) (offset : Nat) :
    Gives (requireMutable cell name offset) s (fun _ => cell.mutable = true)
      fun _ => cell.mutable = false := by
  unfold requireMutable
  cases hm : cell.mutable with
  | true => exact .pure rfl
  | false => exact .fault rfl

theorem text_gives (depth : Nat) (v : Value) :
    Gives (text depth v) s (fun _ => True) Stop.Ordinary := by
  unfold Gives text
  cases s.heap.text? depth v with
  | some t => exact .inl ⟨t, rfl, trivial⟩
  | none => exact .inr ⟨_, rfl, trivial⟩

theorem equal_gives (depth : Nat) (v w : Value) :
    Gives (equal depth v w) s (fun _ => True) Stop.Ordinary := by
  unfold Gives equal
  cases s.heap.equal? depth v w with
  | some b => exact .inl ⟨b, rfl, trivial⟩
  | none => exact .inr ⟨_, rfl, trivial⟩

theorem concatenate_gives (depth : Nat) (v w : Value) :
    Gives (do return .string ((← text depth v) ++ (← text depth w))) s
      (fun r => ∃ t, r = Value.string t) Stop.Ordinary :=
  (text_gives depth v).bind fun _ _ => (text_gives depth w).bind fun _ _ => .pure ⟨_, rfl⟩

theorem compare_gives {offset : Nat} {op : BinOp} (hop : op ∈ [.lt, .gt]) (v w : Value) :
    Gives (lift offset (op.compare v w)) s (op.Yields v w) Stop.Ordinary := by
  unfold BinOp.compare
  split
  · refine .pure (.truth _ ?_)
    exact List.mem_append_left [BinOp.eq, BinOp.ne] hop
  · exact .fault id

theorem power_gives {offset : Nat} (v w : Value) :
    Gives (lift offset (BinOp.power v w)) s (BinOp.pow.Yields v w) Stop.Ordinary := by
  unfold BinOp.power
  split
  · next a b =>
      split
      · exact .fault id
      · exact .pure (.integers a b _ (by decide))
  · exact .fault id

theorem combine_gives {offset : Nat} (op : BinOp) (v w : Value) :
    Gives (lift offset (op.combine v w)) s (op.Yields v w) fun why =>
      op ∈ [.add, .sub, .mul, .div] → why.Ordinary := by
  unfold BinOp.combine
  split
  · next a b =>
      cases op with
      | add | sub | mul => exact .pure (.integers a b _ (by decide))
      | div =>
          simp only [BinOp.integers]
          split
          · exact .fault fun _ => id
          · exact .pure (.integers a b _ (by decide))
      | _ => exact .fault fun hop => absurd hop (by simp)
  · next a b =>
      cases op with
      | add | sub | mul => exact .pure (.decimals a b _ (by decide))
      | div =>
          simp only [BinOp.decimals]
          split
          · exact .fault fun _ => id
          · exact .pure (.decimals a b _ (by decide))
      | _ => exact .fault fun hop => absurd hop (by simp)
  · exact .fault fun _ => id

theorem concatenate_yields (depth : Nat) {v w : Value} (h : ∀ t, BinOp.add.Yields v w (.string t)) :
    Gives (do return .string ((← text depth v) ++ (← text depth w))) s (BinOp.add.Yields v w)
      fun why => BinOp.add.Strict → why.Ordinary := by
  refine (concatenate_gives depth v w).mono ?_ fun _ hwhy _ => hwhy
  rintro _ ⟨t, rfl⟩
  exact h t

theorem operate_gives (depth offset : Nat) (op : BinOp) (v w : Value) :
    Gives (operate depth offset op v w) s (op.Yields v w) fun why => op.Strict → why.Ordinary := by
  cases op with
  | eq | ne =>
      refine ((equal_gives depth v w).mono (fun _ => id) fun _ h _ => h).bind fun b _ => ?_
      exact .pure (.truth _ (by decide))
  | lt | gt => exact (compare_gives (by decide) v w).mono (fun _ => id) fun _ h _ => h
  | pow => exact (power_gives v w).mono (fun _ => id) fun _ h _ => h
  | add =>
      have hcombine : Gives (lift offset (BinOp.add.combine v w)) s (BinOp.add.Yields v w)
          fun why => BinOp.add.Strict → why.Ordinary :=
        (combine_gives .add v w).mono (fun _ => id) fun _ h _ => h (by decide)
      cases v with
      | string t => exact concatenate_yields depth fun u => .textLeft w t u
      | _ =>
          cases w with
          | string t => exact concatenate_yields depth fun u => .textRight _ t u
          | _ => exact hcombine
  | sub | mul | div => exact (combine_gives _ v w).mono (fun _ => id) fun _ h _ => h (by decide)
  | and | or | other => exact (combine_gives _ v w).mono (fun _ => id) fun _ _ h => absurd h (by simp [BinOp.Strict])

def StopsAt (offset : Nat) (m : Run α) : Prop := ∀ s why, (m s).1 = .error why → why.Local offset

section StopsAt

variable {offset : Nat}

theorem StopsAt.pure (a : α) : StopsAt offset (Pure.pure a) := nofun

theorem StopsAt.fault (cause : FaultCause) : StopsAt offset (Run.fault cause offset : Run α) := by
  rintro s _ ⟨⟩
  exact .fault cause

theorem StopsAt.bind {β : Type} {m : Run β} {f : β → Run α} (hm : StopsAt offset m)
    (hf : ∀ b, StopsAt offset (f b)) : StopsAt offset (m >>= f) := by
  intro s why
  rw [bind_apply]
  have hm := hm s
  cases hresult : (m s).1 with
  | ok b => exact hf b (m s).2 why
  | error why' =>
      rintro ⟨⟩
      exact hm _ hresult

theorem truth_stopsAt {v : Value} : StopsAt offset (truth offset v) := by
  cases v with
  | boolean b => exact .pure b
  | _ => exact .fault _

theorem addressOf_stopsAt {name : String} {v : Value} :
    StopsAt offset (addressOf name offset v) := by
  cases v with
  | list address => exact .pure address
  | _ => exact .fault _

theorem elements_stopsAt (offset : Nat) {address : Nat} : StopsAt offset (elements address) := nofun

theorem lengthOf_stopsAt (offset : Nat) {address : Nat} : StopsAt offset (lengthOf address) := nofun

theorem position_stopsAt {length : Nat} {v : Value} :
    StopsAt offset (position length offset v) := by
  cases v with
  | integer i =>
      rw [position]
      split
      · exact .pure _
      · exact .fault _
  | _ => exact .fault _

theorem lookup_stopsAt {scope : Nat} {name : String} : StopsAt offset (lookup scope name offset) := by
  intro s why h
  unfold lookup at h
  cases hfound : s.scopes.findVariable? scope name with
  | none =>
      rw [hfound] at h
      cases h
      exact .fault _
  | some found => rw [hfound] at h; cases h

theorem lookupRoutine_stopsAt {scope : Nat} {name : String} {arity : Nat} :
    StopsAt offset (lookupRoutine scope name arity offset) := by
  intro s why h
  unfold lookupRoutine at h
  cases hfound : s.scopes.findFunction? scope name arity with
  | none =>
      rw [hfound] at h
      cases h
      exact .fault _
  | some r => rw [hfound] at h; cases h

theorem requireMutable_stopsAt {cell : Cell} {name : String} :
    StopsAt offset (requireMutable cell name offset) := by
  unfold requireMutable
  split
  · exact .fault _
  · exact .pure _

theorem text_stopsAt (offset : Nat) {depth : Nat} {v : Value} : StopsAt offset (text depth v) := by
  intro s why h
  unfold text at h
  cases htext : s.heap.text? depth v with
  | none =>
      rw [htext] at h
      cases h
      exact .tooDeep
  | some t => rw [htext] at h; cases h

theorem equal_stopsAt (offset : Nat) {depth : Nat} {v w : Value} :
    StopsAt offset (equal depth v w) := by
  intro s why h
  unfold equal at h
  cases hequal : s.heap.equal? depth v w with
  | none =>
      rw [hequal] at h
      cases h
      exact .tooDeep
  | some b => rw [hequal] at h; cases h

theorem lift_stopsAt {x : Except FaultCause Value} : StopsAt offset (lift offset x) := by
  cases x with
  | ok v => exact .pure v
  | error cause => exact .fault cause

theorem operate_stopsAt {depth : Nat} {op : BinOp} {v w : Value} :
    StopsAt offset (operate depth offset op v w) := by
  unfold operate
  split
  · exact (equal_stopsAt offset).bind fun _ => .pure _
  · exact (equal_stopsAt offset).bind fun _ => .pure _
  · exact lift_stopsAt
  · exact lift_stopsAt
  · exact lift_stopsAt
  · exact (text_stopsAt offset).bind fun _ => (text_stopsAt offset).bind fun _ => .pure _
  · exact (text_stopsAt offset).bind fun _ => (text_stopsAt offset).bind fun _ => .pure _
  · exact lift_stopsAt

end StopsAt

theorem Gives.local {m : Run α} {offset : Nat} (h : Gives m s P Q) (hm : StopsAt offset m) :
    Gives m s P (Stop.Local offset) :=
  h.imp id fun ⟨why, heq, _⟩ => ⟨why, heq, hm s why (congrArg Prod.fst heq)⟩

end Run

end PlcLang
