import PlcLang.Proofs.ProgramReads
import PlcLang.Tree.TapeParser

namespace PlcLang

/-- A token list taken apart at its first end token. -/
structure Ended where
  body : List Token
  stop : Token
  behind : List Token
  body_kind : ∀ t ∈ body, t.kind ≠ .eof
  stop_kind : stop.kind = .eof

namespace Ended

def tape (l : Ended) (i : Nat) : Tape := ⟨l.body ++ l.stop :: l.behind, i⟩

/-- The tokens from a place on, where errors at the end of the input have the given offset. -/
def input (l : Ended) (finish i : Nat) : Input := ⟨l.body.drop i, finish, l.body.length⟩

def tokenAt (l : Ended) (i : Nat) : Token := l.body[i]?.getD l.stop

section Places

variable {l : Ended} {finish i j : Nat}

theorem sized_input (l : Ended) (finish i : Nat) : (l.input finish i).Sized := by
  rw [Input.Sized, input, List.length_drop]
  exact Nat.sub_le _ _

theorem head?_input (l : Ended) (finish i : Nat) :
    (l.input finish i).tokens.head? = l.body[i]? :=
  List.head?_drop

theorem next_input (l : Ended) (finish i : Nat) :
    (l.input finish i).next = l.input finish (i + 1) := by
  rw [Input.next, input, List.tail_drop, input]

theorem here_input (l : Ended) (finish i : Nat) :
    (l.input finish i).here = (l.body[i]?.map Token.offset).getD finish := by
  rw [← head?_input l finish]
  unfold Input.here
  cases (l.input finish i).tokens <;> rfl

theorem sees_input (l : Ended) (finish i : Nat) (w : String) :
    (l.input finish i).sees w = l.body[i]?.any (·.text == w) := by
  rw [← head?_input l finish]
  unfold Input.sees
  cases (l.input finish i).tokens <;> rfl

theorem seesAny_input (l : Ended) (finish i : Nat) (words : List String) :
    (l.input finish i).seesAny words = l.body[i]?.any (words.contains ·.text) := by
  rw [Input.seesAny, List.any_congr rfl fun w => sees_input l finish i w]
  cases l.body[i]? with
  | none => exact List.any_eq_false.mpr fun _ _ => Bool.false_ne_true
  | some t => exact List.contains_eq_any_beq.symm

theorem tokens_input {t : Token} (ht : l.body[i]? = some t) :
    (l.input finish i).tokens = t :: l.body.drop (i + 1) := by
  obtain ⟨hi, rfl⟩ := List.getElem?_eq_some_iff.mp ht
  exact List.drop_eq_getElem_cons hi

theorem tokens_input_eq_nil (ht : l.body[i]? = none) : (l.input finish i).tokens = [] :=
  List.head?_eq_none_iff.mp ((head?_input l finish i).trans ht)

theorem tokenAt_of_some {t : Token} (ht : l.body[i]? = some t) : l.tokenAt i = t := by
  rw [tokenAt, ht, Option.getD_some]

theorem kind_of_some {t : Token} (ht : l.body[i]? = some t) : (t.kind == .eof) = false :=
  beq_eq_false_iff_ne.mpr (l.body_kind t (List.mem_of_getElem? ht))

theorem kind_tokenAt (l : Ended) (i : Nat) :
    ((l.tokenAt i).kind == .eof) = l.body[i]?.isNone := by
  cases ht : l.body[i]? with
  | none => simp [tokenAt, ht, l.stop_kind]
  | some t => rw [tokenAt_of_some ht, kind_of_some ht]; rfl

theorem isName_tokenAt (ht : l.body[i]? = none) : (l.tokenAt i).isName = false := by
  simp [Token.isName, tokenAt, ht, l.stop_kind]

theorem tape_getElem? (hi : i ≤ l.body.length) :
    (l.tape i).tokens[(l.tape i).place]? = some (l.tokenAt i) := by
  show (l.body ++ l.stop :: l.behind)[i]? = some (l.tokenAt i)
  obtain hi | rfl := Nat.lt_or_eq_of_le hi
  · rw [List.getElem?_append_left hi, tokenAt, List.getElem?_eq_getElem hi, Option.getD_some]
  · rw [List.getElem?_append_right (Nat.le_refl _), Nat.sub_self, tokenAt,
      List.getElem?_eq_none (Nat.le_refl _)]
    rfl

end Places

end Ended

namespace TapeParser

variable {α β : Type} {tape tape' : Tape} {l : Ended} {i : Nat}

theorem bind_tape (q : TapeParser α) (g : α → TapeParser β) (tape : Tape) :
    (q >>= g) tape = (q tape).bind fun
      | (.ok a, tape') => g a tape'
      | (.error e, tape') => .some (.error e, tape') := by
  have hbind : (q >>= g) tape = (q tape).bind fun x => ExceptT.bindCont g x.1 x.2 := rfl
  rw [hbind]
  refine congrArg (q tape).bind (funext fun x => ?_)
  obtain ⟨e | a, tape'⟩ := x <;> rfl

theorem bind_ok {q : TapeParser α} {g : α → TapeParser β} {a : α}
    (h : q tape = .some (.ok a, tape')) : (q >>= g) tape = g a tape' := by
  rw [bind_tape, h, Part.bind_some]

theorem bind_error {q : TapeParser α} {g : α → TapeParser β} {e : TapeError}
    (h : q tape = .some (.error e, tape')) : (q >>= g) tape = .some (.error e, tape') := by
  rw [bind_tape, h, Part.bind_some]

section Loops

variable {σ : Type}

theorem fix_eq_bind (f : σ →. α ⊕ σ) (s : σ) :
    f.fix s = (f s).bind fun
      | .inl a => .some a
      | .inr s => f.fix s := by
  ext a
  rw [PFun.mem_fix_iff, Part.mem_bind_iff]
  simp only [Sum.exists, Part.mem_some_iff, exists_eq_right']

theorem loop_eq (round : σ → TapeParser (α ⊕ σ)) (s : σ) :
    loop round s = round s >>= fun
      | .inl a => pure a
      | .inr s => loop round s := by
  funext tape
  rw [loop, fix_eq_bind, turn, Part.bind_map, bind_tape]
  refine congrArg (round s tape).bind (funext fun x => ?_)
  obtain ⟨e | a | s, tape'⟩ := x <;> rfl

theorem loopWhile_eq (test : TapeParser Bool) (round : σ → TapeParser σ) (s : σ) :
    loopWhile test round s = do
      if ← test then
        let s ← round s
        loopWhile test round s
      else return s := by
  rw [loopWhile, loop_eq, bind_assoc]
  refine congrArg (test >>= ·) (funext fun b => ?_)
  cases b with
  | true => simp only [if_true, bind_assoc, pure_bind]
  | false => exact pure_bind _ _

end Loops

theorem get_tape (tape : Tape) : (get : TapeParser Tape) tape = .some (.ok tape, tape) := by
  have hget : (get : TapeParser Tape) tape =
      (Part.some (tape, tape)).bind fun x => .some (Except.ok x.1, x.2) := rfl
  rw [hget, Part.bind_some]

theorem modify_tape (f : Tape → Tape) (tape : Tape) :
    (modify f : TapeParser PUnit) tape = .some (.ok ⟨⟩, f tape) := by
  have hmodify : (modify f : TapeParser PUnit) tape =
      (Part.some (PUnit.unit, f tape)).bind fun x => .some (Except.ok x.1, x.2) := rfl
  rw [hmodify, Part.bind_some]

theorem current_tape (hi : i ≤ l.body.length) :
    current (l.tape i) = .some (.ok (l.tokenAt i), l.tape i) := by
  rw [current, bind_ok (get_tape _), l.tape_getElem? hi]
  rfl

theorem advance_tape {t : Token} (ht : l.body[i]? = some t) :
    advance (l.tape i) = .some (.ok t, l.tape (i + 1)) := by
  have hi := (List.getElem?_eq_some_iff.mp ht).1
  rw [advance, bind_ok (current_tape (Nat.le_of_lt hi)), Ended.tokenAt_of_some ht, bne,
    Ended.kind_of_some ht]
  exact bind_ok (modify_tape _ _)

theorem sees_tape (hi : i ≤ l.body.length) (w : String) :
    sees w (l.tape i) = .some (.ok (l.body[i]?.any (·.text == w)), l.tape i) := by
  rw [sees, bind_ok (current_tape hi), bne, l.kind_tokenAt]
  cases ht : l.body[i]? with
  | none => rfl
  | some t => rw [Ended.tokenAt_of_some ht]; rfl

theorem seesAny_tape (hi : i ≤ l.body.length) (words : List String) :
    seesAny words (l.tape i) = .some (.ok (l.body[i]?.any (words.contains ·.text)), l.tape i) := by
  rw [seesAny, bind_ok (current_tape hi), bne, l.kind_tokenAt]
  cases ht : l.body[i]? with
  | none => rfl
  | some t => rw [Ended.tokenAt_of_some ht]; rfl

theorem atEnd_tape (hi : i ≤ l.body.length) :
    atEnd (l.tape i) = .some (.ok l.body[i]?.isNone, l.tape i) := by
  rw [atEnd, bind_ok (current_tape hi), l.kind_tokenAt]
  rfl

end TapeParser

/-- Whether a cause may be found at a place of a token list. -/
inductive ParseCause.At (ts : List Token) (i : Nat) : ParseCause → Prop
  | expected (what : Wanted) : At ts i (.expected what (ts[i]?.map Token.text))
  | lateGlobal (h : i < ts.length) : At ts i .lateGlobal
  | tooDeep : At ts i .tooDeep

/-- Whether a cause is found at no place: no text has the token. -/
inductive ParseCause.Placeless : ParseCause → Prop
  | badEscape : Placeless .badEscape
  | badNumber : Placeless .badNumber

open TapeParser

namespace Ended

variable {α β : Type}

/-- From the place `i` on, a parser on the tape and a parser on the tokens come to one result. -/
inductive Outcome (l : Ended) (finish i : Nat) :
    Part (Except TapeError α × Tape) → Except ParseError (α × Input) → Prop
  | ok {j : Nat} {a : α} (hij : i ≤ j) (hj : j ≤ l.body.length) :
    Outcome l finish i (.some (.ok a, l.tape j)) (.ok (a, l.input finish j))
  | refused {j : Nat} {cause : ParseCause} (hij : i ≤ j) (hj : j ≤ l.body.length)
    (h : cause.At l.body j) :
    Outcome l finish i (.some (.error (.refused ⟨cause, some (l.tokenAt j).offset⟩), l.tape j))
      (.error ⟨cause, some (l.input finish j).here⟩)
  | nowhere {j : Nat} {cause : ParseCause} (hij : i ≤ j) (hj : j ≤ l.body.length)
    (h : cause.Placeless) :
    Outcome l finish i (.some (.error (.refused ⟨cause, none⟩), l.tape j)) (.error ⟨cause, none⟩)

def AgreesAt (l : Ended) (finish i : Nat) (q : TapeParser α) (p : Parser α) : Prop :=
  Outcome l finish i (q (l.tape i)) (p (l.input finish i))

def Agrees (l : Ended) (finish : Nat) (q : TapeParser α) (p : Parser α) : Prop :=
  ∀ i ≤ l.body.length, AgreesAt l finish i q p

variable {l : Ended} {finish i j : Nat}

theorem Outcome.mono {x : Part (Except TapeError α × Tape)} {y : Except ParseError (α × Input)}
    (h : Outcome l finish j x y) (hij : i ≤ j) : Outcome l finish i x y := by
  cases h with
  | ok hj hk => exact .ok (hij.trans hj) hk
  | refused hj hk hcause => exact .refused (hij.trans hj) hk hcause
  | nowhere hj hk hcause => exact .nowhere (hij.trans hj) hk hcause

section Combinators

variable {q q' : TapeParser α} {p p' : Parser α}

theorem AgreesAt.pure (hi : i ≤ l.body.length) (a : α) : AgreesAt l finish i (pure a) (pure a) :=
  .ok (Nat.le_refl i) hi

theorem Agrees.pure (a : α) : Agrees l finish (pure a) (pure a) := fun _ hi => .pure hi a

theorem AgreesAt.bind {g : α → TapeParser β} {f : α → Parser β} (h : AgreesAt l finish i q p)
    (hgf : ∀ a j, i ≤ j → j ≤ l.body.length →
      p (l.input finish i) = .ok (a, l.input finish j) → AgreesAt l finish j (g a) (f a)) :
    AgreesAt l finish i (q >>= g) (p >>= f) := by
  unfold AgreesAt at h ⊢
  generalize hx : q (l.tape i) = x, hy : p (l.input finish i) = y at h
  cases h with
  | ok hij hj =>
      rw [TapeParser.bind_ok hx, Parser.bind_ok hy]
      exact (hgf _ _ hij hj hy).mono hij
  | refused hij hj hcause =>
      rw [TapeParser.bind_error hx, Parser.bind_error hy]
      exact .refused hij hj hcause
  | nowhere hij hj hcause =>
      rw [TapeParser.bind_error hx, Parser.bind_error hy]
      exact .nowhere hij hj hcause

theorem Agrees.bind {g : α → TapeParser β} {f : α → Parser β} (h : Agrees l finish q p)
    (hgf : ∀ a, Agrees l finish (g a) (f a)) : Agrees l finish (q >>= g) (p >>= f) :=
  fun i hi => (h i hi).bind fun a j _ hj _ => hgf a j hj

theorem AgreesAt.congr (h : AgreesAt l finish i q' p') (hq : q (l.tape i) = q' (l.tape i))
    (hp : p (l.input finish i) = p' (l.input finish i)) : AgreesAt l finish i q p := by
  unfold AgreesAt
  rw [hq, hp]
  exact h

theorem Agrees.expected (what : Wanted) :
    Agrees (α := α) l finish (expected what) (Parser.expected what) := by
  intro i hi
  have htape : TapeParser.expected (α := α) what (l.tape i) =
      .some (.error (.refused ⟨.expected what (l.body[i]?.map Token.text),
        some (l.tokenAt i).offset⟩), l.tape i) := by
    rw [TapeParser.expected, TapeParser.bind_ok (current_tape hi), refuse,
      TapeParser.bind_ok (current_tape hi), l.kind_tokenAt]
    cases ht : l.body[i]? with
    | none => rfl
    | some t => rw [tokenAt_of_some ht]; rfl
  rw [AgreesAt, htape, Parser.expected, head?_input]
  exact .refused (Nat.le_refl i) hi (.expected what)

theorem Agrees.tooDeep : Agrees (α := α) l finish (refuse .tooDeep) Parser.tooDeep := by
  intro i hi
  rw [AgreesAt, refuse, TapeParser.bind_ok (current_tape hi)]
  exact .refused (Nat.le_refl i) hi .tooDeep

theorem AgreesAt.current (hi : i ≤ l.body.length) {k : Token → TapeParser α}
    (h : AgreesAt l finish i (k (l.tokenAt i)) p) :
    AgreesAt l finish i (TapeParser.current >>= k) p :=
  h.congr (TapeParser.bind_ok (current_tape hi)) rfl

theorem AgreesAt.advance {t : Token} (ht : l.body[i]? = some t) {g : Token → TapeParser β}
    {p r : Parser β} (hp : p (l.input finish i) = r (l.input finish (i + 1)))
    (h : i + 1 ≤ l.body.length → AgreesAt l finish (i + 1) (g t) r) :
    AgreesAt l finish i (advance >>= g) p := by
  unfold AgreesAt
  rw [TapeParser.bind_ok (advance_tape ht), hp]
  exact (h (List.getElem?_eq_some_iff.mp ht).1).mono (Nat.le_succ i)

theorem bind_sees (w : String) (k : Bool → Parser β) (s : Input) :
    (Parser.sees w >>= k) s = k (s.sees w) s :=
  rfl

theorem exists_of_sees {w : String} (h : (l.input finish i).sees w = true) :
    ∃ t, l.body[i]? = some t ∧ t.text = w := by
  rw [sees_input, Option.any_eq_true] at h
  obtain ⟨t, ht, hw⟩ := h
  exact ⟨t, ht, eq_of_beq hw⟩

theorem expect_input {t : Token} {w : String} (ht : l.body[i]? = some t) (hw : t.text = w)
    {f : Nat → Parser β} :
    (Parser.expect w >>= f) (l.input finish i) = f t.offset (l.input finish (i + 1)) := by
  subst hw
  have hsees : (l.input finish i).sees t.text = true := by
    rw [sees_input, ht]
    exact beq_self_eq_true _
  rw [Parser.bind_ok (Parser.expect_of_sees hsees), next_input, here_input, ht]
  rfl

theorem AgreesAt.of_seen {w : String} (h : (l.input finish i).sees w = true)
    {g : Token → TapeParser β} {f : Nat → Parser β}
    (hgf : ∀ t, t.text = w → Agrees l finish (g t) (f t.offset)) :
    AgreesAt l finish i (TapeParser.advance >>= g) (Parser.expect w >>= f) := by
  obtain ⟨t, ht, hw⟩ := exists_of_sees h
  exact .advance ht (expect_input ht hw) (hgf t hw (i + 1))

theorem AgreesAt.ite_sees (hi : i ≤ l.body.length) {w : String} {k : Bool → TapeParser α}
    (h : (l.input finish i).sees w = true → AgreesAt l finish i (k true) p)
    (h' : (l.input finish i).sees w = false → AgreesAt l finish i (k false) p) :
    AgreesAt l finish i (TapeParser.sees w >>= k) p := by
  unfold AgreesAt
  rw [TapeParser.bind_ok (sees_tape hi w), ← sees_input l finish i w]
  cases hsees : (l.input finish i).sees w with
  | true => exact h hsees
  | false => exact h' hsees

theorem AgreesAt.both_see {w : String} {k : Bool → TapeParser α} {f : Bool → Parser α}
    (hi : i ≤ l.body.length)
    (h : (l.input finish i).sees w = true → AgreesAt l finish i (k true) (f true))
    (h' : (l.input finish i).sees w = false → AgreesAt l finish i (k false) (f false)) :
    AgreesAt l finish i (TapeParser.sees w >>= k) (Parser.sees w >>= f) := by
  refine .ite_sees hi (fun hsees => ?_) fun hsees => ?_
  · exact (h hsees).congr rfl (by rw [bind_sees, hsees])
  · exact (h' hsees).congr rfl (by rw [bind_sees, hsees])

theorem advance_of_sees {w : String} {f : Unit → Parser β} {s : Input} (h : s.sees w = true) :
    (Parser.advance >>= f) s = (Parser.expect w >>= fun _ => f ()) s := by
  rw [Parser.bind_ok (Parser.expect_of_sees h)]
  rfl

theorem Agrees.expect (w : String) : Agrees l finish (expect w) (Parser.expect w) := by
  intro i hi
  refine .ite_sees hi (fun h => ?_) fun h => ?_
  · obtain ⟨t, ht, rfl⟩ := exists_of_sees h
    have htaken : Parser.expect t.text (l.input finish i) =
        (Pure.pure t.offset : Parser Nat) (l.input finish (i + 1)) := by
      rw [Parser.expect_of_sees h, next_input, here_input, ht]
      rfl
    exact .advance ht htaken fun hi => .pure hi _
  · refine (Agrees.expected (.word w) i hi).congr rfl ?_
    rw [Parser.expect, h]
    rfl

theorem Agrees.word (what : Wanted) : Agrees l finish (word what) (Parser.word what) := by
  intro i hi
  have hfail : AgreesAt l finish i (TapeParser.expected what)
      (Parser.expected what : Parser String) := Agrees.expected what i hi
  refine .current hi ?_
  cases ht : l.body[i]? with
  | none =>
      rw [isName_tokenAt ht]
      refine hfail.congr rfl ?_
      rw [Parser.word, tokens_input_eq_nil ht]
  | some t =>
      rw [tokenAt_of_some ht]
      have hword : Parser.word what (l.input finish i) =
          if t.isName then .ok (t.text, l.input finish (i + 1))
          else Parser.expected what (l.input finish i) := by
        rw [Parser.word, tokens_input ht, next_input]
      cases hname : t.isName with
      | false => exact hfail.congr rfl (by rw [hword, hname]; rfl)
      | true =>
          have htaken : Parser.word what (l.input finish i) =
              (Pure.pure t.text : Parser String) (l.input finish (i + 1)) := by
            rw [hword, hname]
            rfl
          exact .advance ht htaken fun hi => .pure hi _

section Loops

variable {test : TapeParser Bool} {itest : Input → Bool}

/-- A test answers alike on the tape, and stays where it is. -/
def Tests (l : Ended) (finish : Nat) (test : TapeParser Bool) (itest : Input → Bool) : Prop :=
  ∀ i ≤ l.body.length, test (l.tape i) = .some (.ok (itest (l.input finish i)), l.tape i)

theorem tests_sees (w : String) : Tests l finish (sees w) (·.sees w) :=
  fun i hi => by rw [sees_tape hi, ← sees_input l finish]

theorem tests_seesAny (words : List String) : Tests l finish (seesAny words) (·.seesAny words) :=
  fun i hi => by rw [seesAny_tape hi, ← seesAny_input l finish]

theorem Tests.not (h : Tests l finish test itest) :
    Tests l finish (do return !(← test)) (fun s => !itest s) := by
  intro i hi
  rw [TapeParser.bind_ok (h i hi)]
  rfl

theorem lt_of_shrinks (hshrinks : Parser.Shrinks itest p)
    (h : itest (l.input finish i) = true) (hj : j ≤ l.body.length) {a : α}
    (hok : p (l.input finish i) = .ok (a, l.input finish j)) : i < j := by
  obtain ⟨ts, rest, hne, hts, hrest⟩ := hshrinks _ _ _ (sized_input l finish i) h hok
  have hlength := Parser.length_lt_of_append hne hts
  have hmoved : l.body.drop j = rest := congrArg Input.tokens hrest
  rw [← hmoved, input, List.length_drop, List.length_drop] at hlength
  omega

/-- At a place, both parsers may be taken to do the same at all later places: there are fewer tokens
in front of the end token. -/
theorem agrees_of_later {σ : Type} {q : σ → TapeParser α} {p : σ → Parser α}
    (h : ∀ s i, i ≤ l.body.length →
      (∀ s' j, i < j → j ≤ l.body.length → AgreesAt l finish j (q s') (p s')) →
      AgreesAt l finish i (q s) (p s)) (s : σ) : Agrees l finish (q s) (p s) := by
  intro i hi
  induction hn : l.body.length - i using Nat.strongRecOn generalizing i s with
  | ind n ih => exact h s i hi fun s' j hij hj => ih (l.body.length - j) (by omega) s' j hj rfl

theorem bind_congr_at {p p' : Parser α} {f : α → Parser β} {s : Input} (h : p s = p' s) :
    (p >>= f) s = (p' >>= f) s := by
  show p s >>= _ = p' s >>= _
  rw [h]

theorem Agrees.repeatedFrom (ht : Tests l finish test itest) (hshrinks : Parser.Shrinks itest p)
    (h : ∀ i ≤ l.body.length, itest (l.input finish i) = true → AgreesAt l finish i q p) :
    ∀ items, Agrees l finish (repeatedFrom test q items)
      (Parser.many itest p >>= fun as => Pure.pure (items ++ as)) := by
  refine agrees_of_later fun items i hi hlater => ?_
  rw [AgreesAt, TapeParser.repeatedFrom, loopWhile_eq, TapeParser.bind_ok (ht i hi)]
  cases htest : itest (l.input finish i) with
  | false =>
      rw [Parser.bind_ok (Parser.many_of_fail htest), List.append_nil]
      exact AgreesAt.pure hi items
  | true =>
      have hpass := Parser.many_of_pass hshrinks (sized_input l finish i) htest
      rw [if_pos rfl, bind_assoc, bind_congr_at hpass, bind_assoc]
      refine (h i hi htest).bind fun a j _ hj hok => ?_
      have hlater := hlater (items ++ [a]) j (lt_of_shrinks hshrinks htest hj hok) hj
      simp only [List.append_assoc, List.singleton_append] at hlater
      simp only [bind_assoc, pure_bind]
      exact hlater

theorem Agrees.repeated (ht : Tests l finish test itest) (hshrinks : Parser.Shrinks itest p)
    (h : ∀ i ≤ l.body.length, itest (l.input finish i) = true → AgreesAt l finish i q p) :
    Agrees l finish (repeated test q) (Parser.many itest p) := by
  rw [← bind_pure (Parser.many itest p)]
  exact Agrees.repeatedFrom ht hshrinks h []

end Loops

theorem Agrees.optional (w : String) (h : Agrees l finish q p) :
    Agrees l finish (optional w q) (Parser.optional w p) := by
  intro i hi
  refine .ite_sees hi (fun hsees => ?_) fun hsees => ?_
  · refine AgreesAt.congr ?_ rfl (Parser.optional_of_sees hsees)
    exact .of_seen hsees fun _ _ => h.bind fun _ => .pure _
  · refine AgreesAt.congr (.pure hi none) rfl ?_
    rw [Parser.optional, hsees]
    rfl

section Lists

variable {G : Rule α}

theorem advance_input (l : Ended) (finish i : Nat) {f : Unit → Parser β} :
    (Parser.advance >>= f) (l.input finish i) = f () (l.input finish (i + 1)) := by
  rw [← next_input]
  rfl

theorem Agrees.commaList (hG : p.Follows G) (h : Agrees l finish q p) :
    Agrees l finish (commaList q) (Parser.commaList p) := by
  refine h.bind fun first => Agrees.bind ?_ fun _ => .pure _
  refine .repeated (tests_sees ",") ?_ fun i hi hsees => ?_
  · exact Parser.shrinks_of_reads (fun _ hs h => Parser.afterComma_reads hG hs h)
      fun _ _ => Parser.afterComma_ne_nil
  · obtain ⟨t, ht, _⟩ := exists_of_sees hsees
    exact .advance ht (advance_input l finish i) (h (i + 1))

theorem Agrees.listUpTo (close : String) (hG : p.Follows G) (h : Agrees l finish q p) :
    Agrees l finish (listUpTo close q) (Parser.listUpTo close p) := by
  intro i hi
  refine .both_see hi (fun hsees => ?_) fun _ => ?_
  · refine AgreesAt.congr ?_ (congrFun (pure_bind _ _) _) (advance_of_sees hsees)
    exact ((Agrees.expect close).bind fun _ => .pure []) i hi
  · exact ((h.commaList hG).bind fun items => (Agrees.expect close).bind fun _ => .pure items) i hi

end Lists

theorem Agrees.typeAnnotation : Agrees l finish typeAnnotation Parser.typeAnnotation :=
  (Agrees.expect ":").bind fun _ => .word .typeName

end Combinators

section Expressions

variable {q : TapeParser Expr} {p : Parser Expr} {G : Rule Expr}

theorem symbols_contains {ops : List BinOp} (hops : ∀ op ∈ ops, BinOp.ofSymbol op.symbol = op)
    (text : String) :
    (ops.map BinOp.symbol).contains text = ops.contains (.ofSymbol text) := by
  rw [Bool.eq_iff_iff, List.contains_iff_mem, List.contains_iff_mem, List.mem_map]
  constructor
  · rintro ⟨op, hop, rfl⟩
    rwa [hops op hop]
  · exact fun h => ⟨_, h, BinOp.symbol_ofSymbol text⟩

theorem Agrees.chainFrom {ops : List BinOp} (hops : ∀ op ∈ ops, BinOp.ofSymbol op.symbol = op)
    (hG : p.Follows G) (h : Agrees l finish q p) :
    ∀ left, Agrees l finish (chainFrom ops q left) (Expr.chainRest ops p left) := by
  refine agrees_of_later fun left i hi hlater => ?_
  have hstop (hop : ∀ t ∈ l.body[i]?, ops.contains (.ofSymbol t.text) = false) :
      Expr.chainRest ops p left (l.input finish i) = .ok (left, l.input finish i) :=
    Expr.chainRest_of_stop (by rwa [head?_input])
  rw [AgreesAt, TapeParser.chainFrom, loopWhile_eq, TapeParser.bind_ok (seesAny_tape hi _)]
  cases ht : l.body[i]? with
  | none =>
      rw [hstop (by simp [ht])]
      exact AgreesAt.pure hi left
  | some t =>
      rw [Option.any_some, symbols_contains hops]
      cases hop : ops.contains (.ofSymbol t.text) with
      | false =>
          rw [hstop (by simpa [ht] using hop)]
          exact AgreesAt.pure hi left
      | true =>
          rw [Expr.chainRest_of_op hG (sized_input l finish i) (tokens_input ht) hop,
            if_pos rfl, bind_assoc]
          refine AgreesAt.advance ht (expect_input ht rfl) fun hi' => ?_
          rw [bind_assoc]
          refine (h (i + 1) hi').bind fun right j hij hj _ => ?_
          rw [pure_bind]
          exact hlater _ j hij hj

theorem Agrees.chain (ops : List BinOp) (hops : ∀ op ∈ ops, BinOp.ofSymbol op.symbol = op)
    (hG : p.Follows G) (h : Agrees l finish q p) :
    Agrees l finish (chain ops q) (Expr.chain ops p) := by
  rw [Expr.chain_eq]
  exact h.bind fun left => h.chainFrom hops hG left

theorem Agrees.named (info : Info) (name : String) (hG : p.Follows G) (h : Agrees l finish q p) :
    Agrees l finish (named q info name) (Expr.named p info name) := by
  intro i hi
  have hnamed := @Expr.named_eq p info name (l.input finish i)
  refine .ite_sees hi (fun hopen => ?_) fun hopen => ?_
  · rw [if_pos hopen] at hnamed
    refine AgreesAt.congr ?_ rfl hnamed
    exact .of_seen hopen fun _ _ => (h.listUpTo ")" hG).bind fun _ => .pure _
  rw [if_neg (Bool.eq_false_iff.mp hopen)] at hnamed
  refine .ite_sees hi (fun hbracket => ?_) fun hbracket => ?_
  · rw [if_pos hbracket] at hnamed
    refine AgreesAt.congr ?_ rfl hnamed
    refine .of_seen hbracket fun _ _ => h.bind fun _ => ?_
    exact (Agrees.expect "]").bind fun _ => .pure _
  · rw [if_neg (Bool.eq_false_iff.mp hbracket)] at hnamed
    exact AgreesAt.congr (.pure hi _) rfl hnamed

theorem AgreesAt.primary_end (hi : i ≤ l.body.length) (ht : l.body[i]? = none) :
    AgreesAt l finish i (primary q) (Expr.primary p) := by
  have hunseen (w : String) : (l.input finish i).sees w = true → False := by
    rw [sees_input, ht]
    exact Bool.false_ne_true
  refine .current hi ?_
  rw [kind_tokenAt, ht]
  refine .ite_sees hi (fun hopen => (hunseen _ hopen).elim) fun _ => ?_
  refine .ite_sees hi (fun hbracket => (hunseen _ hbracket).elim) fun _ => ?_
  rw [isName_tokenAt ht]
  refine (Agrees.expected .expression i hi).congr rfl ?_
  rw [Expr.primary, tokens_input_eq_nil ht]

theorem AgreesAt.literal {t : Token} (ht : l.body[i]? = some t) {value : Except ParseError Literal}
    (hvalue : Expr.literal? t = some value) :
    AgreesAt l finish i (literal value) (Expr.primary p) := by
  have hprimary := @Expr.primary_eq p t _ (l.input finish i) (tokens_input ht)
  rw [hvalue] at hprimary
  cases value with
  | ok value =>
      have htaken : Expr.primary p (l.input finish i) =
          (Parser.expect t.text >>= fun o => Pure.pure (.literal ⟨o, none⟩ value))
            (l.input finish i) := hprimary
      refine AgreesAt.congr ?_ rfl htaken
      exact .advance ht (expect_input ht rfl) fun hi => .pure hi _
  | error e =>
      obtain ⟨cause, hcause, rfl⟩ := Expr.literal?_nowhere hvalue
      refine .advance ht (r := fun _ => .error ⟨cause, none⟩) hprimary fun hi => ?_
      refine .nowhere (Nat.le_refl _) hi ?_
      obtain rfl | rfl := hcause
      · exact .badNumber
      · exact .badEscape

theorem Agrees.primary (hG : p.Follows G) (h : Agrees l finish q p) :
    Agrees l finish (primary q) (Expr.primary p) := by
  intro i hi
  cases ht : l.body[i]? with
  | none => exact .primary_end hi ht
  | some t =>
      refine .current hi ?_
      rw [tokenAt_of_some ht, kind_of_some ht]
      cases hliteral : Expr.literal? t with
      | some value => exact .literal ht hliteral
      | none =>
          have hprimary := @Expr.primary_eq p t _ (l.input finish i) (tokens_input ht)
          rw [hliteral] at hprimary
          have hsees {w : String} {b : Bool} (h : (l.input finish i).sees w = b) :
              (t.text == w) = b := by
            rwa [sees_input, ht, Option.any_some] at h
          refine .ite_sees hi (fun hopen => ?_) fun hopen => ?_
          · have hw := eq_of_beq (hsees hopen)
            refine AgreesAt.congr ?_ rfl (hprimary.trans (if_pos hw))
            refine .advance ht (expect_input ht hw) fun hi => (h.bind fun e => ?_) _ hi
            exact (Agrees.expect ")").bind fun _ => .pure _
          replace hprimary := hprimary.trans (if_neg (beq_eq_false_iff_ne.mp (hsees hopen)))
          refine .ite_sees hi (fun hbracket => ?_) fun hbracket => ?_
          · have hw := eq_of_beq (hsees hbracket)
            refine AgreesAt.congr ?_ rfl (hprimary.trans (if_pos hw))
            refine .advance ht (expect_input ht hw) fun hi => ?_
            exact ((h.listUpTo "]" hG).bind fun elements => .pure _) _ hi
          replace hprimary := hprimary.trans (if_neg (beq_eq_false_iff_ne.mp (hsees hbracket)))
          cases hname : t.isName with
          | false =>
              rw [hname] at hprimary
              exact (Agrees.expected .expression i hi).congr rfl hprimary
          | true =>
              have htaken : Parser.word .identifier (l.input finish i) =
                  .ok (t.text, l.input finish (i + 1)) := by
                rw [Parser.word, tokens_input ht, next_input]
                exact if_pos hname
              rw [if_pos hname, Parser.bind_ok htaken] at hprimary
              exact .advance ht hprimary (h.named ⟨t.offset, none⟩ t.text hG (i + 1))

theorem Agrees.expr : ∀ depth, Agrees l finish (expr depth) (Expr.parser depth)
  | 0 | 1 => .tooDeep
  | depth + 2 => by
      have hprimary := (Agrees.expr depth).primary (Expr.parser_follows depth)
      have hfollows := Expr.primary_follows (Expr.parser_follows depth)
      have hproduct := hprimary.chain Expr.multiplicativeOps (by decide) hfollows
      replace hfollows := Expr.chain_follows Expr.multiplicativeOps_contains hfollows
      have hsum := hproduct.chain Expr.additiveOps (by decide) hfollows
      replace hfollows := Expr.chain_follows Expr.additiveOps_contains hfollows
      have hcompared := hsum.chain Expr.comparisonOps (by decide) hfollows
      replace hfollows := Expr.chain_follows Expr.comparisonOps_contains hfollows
      exact hcompared.chain Expr.logicalOps (by decide) hfollows

end Expressions

end Ended

end PlcLang
