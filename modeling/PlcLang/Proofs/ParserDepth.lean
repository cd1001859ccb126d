import PlcLang.Proofs.ProgramReads

namespace PlcLang

namespace Parser

variable {α β : Type}

def RanOut (outcome : Except ParseError α) : Prop :=
  ∃ offset, outcome = .error ⟨.tooDeep, some offset⟩

/-- What `q` does is what `p` does, unless `p` runs out of depth. -/
def Deepens (p q : Parser α) : Prop := ∀ s, RanOut (p s) ∨ q s = p s

namespace Deepens

variable {p q : Parser α}

theorem refl (p : Parser α) : Deepens p p := fun _ => .inr rfl

theorem of_tooDeep (q : Parser α) : Deepens tooDeep q := fun s => .inl ⟨s.here, rfl⟩

theorem bind {f g : α → Parser β} (h : Deepens p q) (hf : ∀ a, Deepens (f a) (g a)) :
    Deepens (p >>= f) (q >>= g) := by
  intro s
  rcases h s with ⟨offset, hp⟩ | heq
  · exact .inl ⟨offset, bind_error hp⟩
  · cases hp : p s with
    | error e =>
      right
      rw [bind_error hp, bind_error (heq.trans hp)]
    | ok r =>
      rw [bind_of_ok hp, bind_of_ok (heq.trans hp)]
      exact hf r.1 r.2

theorem rest {f g : α → Parser β} (hf : ∀ a, Deepens (f a) (g a)) : Deepens (p >>= f) (p >>= g) :=
  (refl p).bind hf

theorem ite {p' q' : Parser α} (b : Bool) (h : Deepens p q) (h' : Deepens p' q') :
    Deepens (if b then p else p') (if b then q else q') := by
  cases b with
  | true => exact h
  | false => exact h'

theorem rounds (test : Input → Bool) (h : Deepens p q) (n : Nat) (done : List α) :
    Deepens (rounds test p n done) (Parser.rounds test q n done) := by
  induction n generalizing done with
  | zero => exact refl _
  | succ n ih =>
    intro s
    unfold Parser.rounds
    split
    · rcases h s with ⟨offset, hp⟩ | heq
      · exact .inl ⟨offset, by simp [hp]⟩
      · rw [heq]
        cases p s with
        | error e => exact .inr rfl
        | ok r => exact ih (r.1 :: done) r.2
    · exact .inr rfl

theorem many (test : Input → Bool) (h : Deepens p q) : Deepens (many test p) (Parser.many test q) :=
  fun s => h.rounds test (s.total + 1) [] s

theorem optional (word : String) (h : Deepens p q) :
    Deepens (optional word p) (Parser.optional word q) := by
  intro s
  unfold Parser.optional
  split
  · rcases h s.next with ⟨offset, hp⟩ | heq
    · left
      refine ⟨offset, ?_⟩
      rw [hp]
      rfl
    · rw [heq]
      exact .inr rfl
  · exact .inr rfl

theorem commaList (h : Deepens p q) : Deepens (commaList p) (Parser.commaList q) := by
  apply h.bind
  intro first
  exact ((rest fun _ => h).many _).bind fun _ => refl _

theorem listUpTo (close : String) (h : Deepens p q) :
    Deepens (listUpTo close p) (Parser.listUpTo close q) := by
  apply rest
  intro b
  apply ite b (refl _)
  exact h.commaList.bind fun _ => refl _

end Deepens

end Parser

open PlcLang.Parser

namespace Expr

variable {p q : Parser Expr}

theorem chainFrom_deepens (ops : List BinOp) (h : Deepens p q) (n : Nat) (left : Expr) :
    Deepens (chainFrom ops p n left) (chainFrom ops q n left) := by
  induction n generalizing left with
  | zero => exact .refl _
  | succ n ih =>
    intro s
    unfold chainFrom
    split
    · split
      · rcases h s.next with ⟨offset, hp⟩ | heq
        · exact .inl ⟨offset, by simp [hp]⟩
        · rw [heq]
          cases p s.next with
          | error e => exact .inr rfl
          | ok r => exact ih _ r.2
      · exact .inr rfl
    · exact .inr rfl

theorem chain_deepens (ops : List BinOp) (h : Deepens p q) :
    Deepens (chain ops p) (chain ops q) := by
  rw [chain_eq, chain_eq]
  apply h.bind
  intro left s
  exact chainFrom_deepens ops h s.total left s

theorem named_deepens (info : Info) (name : String) (h : Deepens p q) :
    Deepens (named p info name) (named q info name) := by
  intro s
  rw [named_eq, named_eq]
  split
  · exact (Deepens.rest fun _ => (h.listUpTo ")").bind fun _ => .refl _) s
  split
  · exact (Deepens.rest fun _ => h.bind fun _ => .refl _) s
  · exact .inr rfl

theorem primary_deepens (h : Deepens p q) : Deepens (primary p) (primary q) := by
  intro s
  cases hts : s.tokens with
  | nil =>
    right
    simp [primary, hts]
  | cons t rest =>
    rw [primary_eq hts, primary_eq hts]
    cases literal? t with
    | some r => cases r <;> exact .inr rfl
    | none =>
      simp only []
      split
      · exact (Deepens.rest fun _ => h.bind fun _ => .refl _) s
      split
      · exact (Deepens.rest fun _ => (h.listUpTo "]").bind fun _ => .refl _) s
      split
      · exact (Deepens.rest fun _ => named_deepens _ _ h) s
      · exact .inr rfl

theorem parser_deepens : ∀ {depth depth' : Nat}, depth ≤ depth' →
    Deepens (parser depth) (parser depth')
  | 0, _, _ => .of_tooDeep _
  | 1, _, _ => .of_tooDeep _
  | depth + 2, depth', hle => by
    obtain ⟨depth', rfl⟩ : ∃ n, depth' = n + 2 := ⟨depth' - 2, by omega⟩
    apply chain_deepens
    apply chain_deepens
    apply chain_deepens
    apply chain_deepens
    exact primary_deepens (parser_deepens (by omega))

end Expr

namespace Stmt

variable {expr expr' : Parser Expr} {stmt stmt' : Parser Stmt}

theorem block_deepens (words : List String) (h : Deepens stmt stmt') :
    Deepens (block stmt words) (block stmt' words) := h.many _

section

variable (hE : Deepens expr expr') (hS : Deepens stmt stmt')
include hE hS

theorem case_deepens : Deepens (caseParser expr stmt) (caseParser expr' stmt') := by
  exact .rest fun _ => hE.bind fun _ => .rest fun _ => (block_deepens _ hS).bind fun _ => .refl _

omit hE in
theorem default_deepens : Deepens (defaultParser stmt) (defaultParser stmt') := by
  refine .rest fun b => .ite b ?_ (.refl _)
  exact .rest fun _ => (block_deepens _ hS).bind fun _ => .refl _

theorem switch_deepens : Deepens (switchParser expr stmt) (switchParser expr' stmt') := by
  refine .rest fun _ => hE.bind fun _ => ?_
  exact ((case_deepens hE hS).many _).bind fun _ => (default_deepens hS).bind fun _ => .refl _

theorem if_deepens : Deepens (ifParser expr stmt) (ifParser expr' stmt') := by
  refine .rest fun _ => hE.bind fun _ => .rest fun _ => ?_
  apply (block_deepens _ hS).bind
  intro _
  exact ((block_deepens _ hS).optional "ELSE").bind fun _ => .refl _

theorem while_deepens : Deepens (whileParser expr stmt) (whileParser expr' stmt') :=
  .rest fun _ => hE.bind fun _ => .rest fun _ => (block_deepens _ hS).bind fun _ => .refl _

omit hS

theorem declaration_deepens : Deepens (declarationParser expr) (declarationParser expr') :=
  .rest fun _ => .rest fun _ => .rest fun _ => (hE.optional "=").bind fun _ => .refl _

theorem return_deepens : Deepens (returnParser expr) (returnParser expr') :=
  .rest fun _ => .rest fun b => .ite b (.refl _) (hE.bind fun _ => .refl _)

theorem simple_deepens : Deepens (simpleParser expr) (simpleParser expr') :=
  .rest fun _ => hE.bind fun _ => (hE.optional "=").bind fun _ => .refl _

end

theorem parser_deepens {depth depth' : Nat} (hle : depth ≤ depth') :
    Deepens (parser depth) (parser depth') := by
  induction depth generalizing depth' with
  | zero => exact .of_tooDeep _
  | succ depth ih =>
    obtain ⟨depth', rfl⟩ : ∃ n, depth' = n + 1 := ⟨depth' - 1, by omega⟩
    have hle' : depth ≤ depth' := by omega
    have hE := Expr.parser_deepens hle'
    have hS := ih hle'
    intro s
    unfold parser
    split
    · exact declaration_deepens hE s
    split
    · exact switch_deepens hE hS s
    split
    · exact if_deepens hE hS s
    split
    · exact while_deepens hE hS s
    split
    · exact return_deepens hE s
    · exact simple_deepens hE s

end Stmt

theorem Global.parser_deepens {depth depth' : Nat} (hle : depth ≤ depth') :
    Deepens (parser depth) (parser depth') := by
  have hE := Expr.parser_deepens hle
  have hlist : Deepens (listParser (Expr.parser depth)) (listParser (Expr.parser depth')) :=
    .rest fun _ => .rest fun _ => .rest fun _ => .rest fun _ => .rest fun _ =>
      hE.commaList.bind fun _ => .refl _
  have hmutable : Deepens (mutableParser (Expr.parser depth)) (mutableParser (Expr.parser depth')) :=
    .rest fun _ => .rest fun _ => .rest fun _ => (hE.optional "=").bind fun _ => .refl _
  have himmutable :
      Deepens (immutableParser (Expr.parser depth)) (immutableParser (Expr.parser depth')) :=
    .rest fun _ => .rest fun _ => .rest fun _ => .rest fun _ => hE.bind fun _ => .refl _
  apply Deepens.rest
  intro b
  apply Deepens.ite b (hlist.bind fun _ => .refl _)
  apply Deepens.rest
  intro b
  exact Deepens.ite b (hmutable.bind fun _ => .refl _) (himmutable.bind fun _ => .refl _)

theorem Function.parser_deepens {depth depth' : Nat} (hle : depth ≤ depth') :
    Deepens (parser depth) (parser depth') := by
  have hbody := Stmt.block_deepens ["END"] (Stmt.parser_deepens hle)
  exact .rest fun _ => .rest fun _ => .rest fun _ => .rest fun _ => .rest fun _ => .rest fun _ =>
    hbody.bind fun _ => .refl _

theorem Program.parser_deepens {depth depth' : Nat} (hle : depth ≤ depth') :
    Deepens (parser depth) (parser depth') := by
  apply ((Global.parser_deepens hle).many _).bind
  intro _
  exact ((Function.parser_deepens hle).many _).bind fun _ => .refl _

end PlcLang
