import PlcLang.Proofs.ExpressionReads
import PlcLang.Proofs.Relabeling

namespace PlcLang

section

variable (ρ : Relabeling)

def Token.relabel (t : Token) : Token := { t with offset := ρ.place t.offset }

def Input.relabel (s : Input) : Input := ⟨s.tokens.map (Token.relabel ρ), ρ.place s.finish, s.total⟩

def ParseError.relabel (e : ParseError) : ParseError := ⟨e.cause, e.offset.map ρ.place⟩

end

variable {ρ : Relabeling}

namespace Token

theorem isName_relabel (t : Token) : (t.relabel ρ).isName = t.isName := rfl

theorem relabel_unplaced_iff {t t' : Token} :
    t.relabel .unplaced = t'.relabel .unplaced ↔ (t.kind, t.text) = (t'.kind, t'.text) := by
  simp [relabel, Relabeling.unplaced]

end Token

namespace Input

theorem tokens_relabel (s : Input) : (s.relabel ρ).tokens = s.tokens.map (Token.relabel ρ) := rfl

theorem here_relabel (s : Input) : (s.relabel ρ).here = ρ.place s.here := by
  unfold here
  rw [tokens_relabel]
  cases s.tokens <;> rfl

theorem sees_relabel (s : Input) (text : String) : (s.relabel ρ).sees text = s.sees text := by
  unfold sees
  rw [tokens_relabel]
  cases s.tokens <;> rfl

theorem seesAny_relabel (s : Input) (texts : List String) :
    (s.relabel ρ).seesAny texts = s.seesAny texts := by
  unfold seesAny
  congr 1
  funext text
  exact sees_relabel s text

theorem isEmpty_relabel (s : Input) : (s.relabel ρ).tokens.isEmpty = s.tokens.isEmpty := by
  rw [tokens_relabel, List.isEmpty_map]

theorem next_relabel (s : Input) : (s.relabel ρ).next = s.next.relabel ρ := by
  simp only [next, relabel, List.map_tail]

/-- The parsers see no offset, so that only kinds and texts decide what they are given. -/
theorem ofTokens_relabel_unplaced {ts ts' : List Token}
    (h : ts.map (fun t => (t.kind, t.text)) = ts'.map fun t => (t.kind, t.text)) :
    (ofTokens ts).relabel .unplaced = (ofTokens ts').relabel .unplaced := by
  have hbody : ∀ us : List Token, (us.takeWhile (·.kind != .eof)).map (Token.relabel .unplaced) =
      (us.map (Token.relabel .unplaced)).takeWhile (·.kind != .eof) := by
    intro us
    rw [List.takeWhile_map]
    rfl
  have hts : ts.map (Token.relabel .unplaced) = ts'.map (Token.relabel .unplaced) := by
    have hall := List.forall₂_eq_eq_eq (α := TokenKind × String) ▸ h
    rw [List.forall₂_map_left_iff, List.forall₂_map_right_iff] at hall
    exact (map_eq_map_of_forall₂
      (hall.imp fun _ _ he => (Token.relabel_unplaced_iff.2 he).symm)).symm
  have hbodies : (ts.takeWhile (·.kind != .eof)).map (Token.relabel .unplaced) =
      (ts'.takeWhile (·.kind != .eof)).map (Token.relabel .unplaced) := by
    rw [hbody, hbody, hts]
  have htotal := congrArg List.length hbodies
  rw [List.length_map, List.length_map] at htotal
  simp only [ofTokens, relabel, hbodies, htotal]
  rfl

end Input

namespace Parser

variable {α β γ δ : Type}

/-- On an input at other places, `q` does what `p` does, with its results under `f`. -/
def Alike (ρ : Relabeling) (f : α → β) (p : Parser α) (q : Parser β) : Prop :=
  ∀ s, Matched (fun e e' => e' = ParseError.relabel ρ e)
    (fun a b => b = (f a.1, a.2.relabel ρ)) (p s) (q (s.relabel ρ))

namespace Alike

variable {f : α → β} {g : γ → δ} {p p' : Parser α} {q q' : Parser β}

theorem pure {a : α} {b : β} (h : b = f a) : Alike ρ f (pure a) (pure b) := by
  subst h
  exact fun _ => .ok rfl

theorem throw {e e' : ParseError} (h : e' = e.relabel ρ) : Alike ρ f (throw e) (throw e') :=
  fun _ => .error h

theorem bind {k : α → Parser γ} {k' : β → Parser δ} (h : Alike ρ f p q)
    (hk : ∀ a, Alike ρ g (k a) (k' (f a))) : Alike ρ g (p >>= k) (q >>= k') := by
  intro s
  apply (h s).bind
  rintro ⟨a, s⟩ _ rfl
  exact hk a s

theorem ite (b : Bool) (h : Alike ρ f p q) (h' : Alike ρ f p' q') :
    Alike ρ f (if b then p else p') (if b then q else q') := by
  cases b with
  | true => exact h
  | false => exact h'

theorem get {k : Input → Parser γ} {k' : Input → Parser δ}
    (hk : ∀ s, Alike ρ g (k s) (k' (s.relabel ρ))) : Alike ρ g (get >>= k) (get >>= k') :=
  fun s => hk s s

theorem expected (what : Wanted) : Alike ρ f (expected what) (Parser.expected what) := by
  intro s
  refine .error ?_
  have hfound : (s.relabel ρ).tokens.head?.map Token.text = s.tokens.head?.map Token.text := by
    rw [Input.tokens_relabel, List.head?_map, Option.map_map]
    rfl
  rw [Input.here_relabel, hfound]
  rfl

theorem tooDeep : Alike ρ f tooDeep Parser.tooDeep :=
  fun s => .error (by rw [Input.here_relabel]; rfl)

theorem advance : Alike ρ (fun a => a) advance Parser.advance := by
  intro s
  rw [Parser.advance, Parser.advance, Input.next_relabel]
  exact .ok rfl

theorem sees (text : String) : Alike ρ (fun a => a) (sees text) (Parser.sees text) := by
  intro s
  rw [Parser.sees, Parser.sees, Input.sees_relabel]
  exact .ok rfl

theorem expect (text : String) : Alike ρ ρ.place (expect text) (Parser.expect text) := by
  intro s
  unfold Parser.expect
  rw [Input.sees_relabel]
  split
  · rw [Input.here_relabel, Input.next_relabel]
    exact .ok rfl
  · exact expected _ s

theorem word (what : Wanted) : Alike ρ (fun a => a) (word what) (Parser.word what) := by
  intro s
  have hfail := expected (ρ := ρ) (f := fun a : String => a) what s
  unfold Parser.word
  rw [Input.next_relabel, Input.tokens_relabel]
  cases s.tokens with
  | nil => exact hfail
  | cons t rest =>
      simp only [List.map_cons]
      rw [Token.isName_relabel]
      split
      · exact .ok rfl
      · exact hfail

theorem rounds {test : Input → Bool} (ht : ∀ s : Input, test (s.relabel ρ) = test s)
    (h : Alike ρ f p q) (n : Nat) (done : List α) :
    Alike ρ (List.map f) (rounds test p n done) (Parser.rounds test q n (done.map f)) := by
  induction n generalizing done with
  | zero =>
      intro s
      exact .ok (by rw [List.map_reverse])
  | succ n ih =>
      intro s
      unfold Parser.rounds
      rw [ht]
      split
      · have hs := h s
        generalize p s = x, q (s.relabel ρ) = y at hs
        cases hs with
        | ok hr =>
            rw [hr]
            exact ih (_ :: done) _
        | error he => exact .error he
      · exact .ok (by rw [List.map_reverse])

theorem many {test : Input → Bool} (ht : ∀ s : Input, test (s.relabel ρ) = test s)
    (h : Alike ρ f p q) : Alike ρ (List.map f) (many test p) (Parser.many test q) :=
  fun s => h.rounds ht (s.total + 1) [] s

theorem optional (word : String) (h : Alike ρ f p q) :
    Alike ρ (Option.map f) (optional word p) (Parser.optional word q) := by
  intro s
  unfold Parser.optional
  rw [Input.sees_relabel, Input.next_relabel]
  split
  · apply (h s.next).map
    rintro ⟨a, s⟩ _ rfl
    rfl
  · exact .ok rfl

theorem commaList (h : Alike ρ f p q) :
    Alike ρ (List.map f) (commaList p) (Parser.commaList q) := by
  apply h.bind
  intro first
  apply (many (fun s => Input.sees_relabel s ",") (advance.bind fun _ => h)).bind
  intro rest
  exact .pure rfl

theorem listUpTo (close : String) (h : Alike ρ f p q) :
    Alike ρ (List.map f) (listUpTo close p) (Parser.listUpTo close q) := by
  apply (sees close).bind
  intro b
  apply ite b
  · exact advance.bind fun _ => .pure rfl
  · exact h.commaList.bind fun _ => (expect close).bind fun _ => .pure rfl

theorem typeAnnotation : Alike ρ (fun a => a) typeAnnotation Parser.typeAnnotation :=
  (expect ":").bind fun _ => word .typeName

end Alike

end Parser

open PlcLang.Parser

namespace Expr

variable {p q : Parser Expr}

theorem literal?_error {t : Token} {e : ParseError} (h : literal? t = some (.error e)) :
    e.relabel ρ = e := by
  obtain ⟨cause, _, rfl⟩ := literal?_nowhere h
  rfl

theorem chainFrom_alike (ops : List BinOp) (h : Alike ρ (relabel ρ) p q) (n : Nat) (left : Expr) :
    Alike ρ (relabel ρ) (chainFrom ops p n left) (chainFrom ops q n (left.relabel ρ)) := by
  induction n generalizing left with
  | zero => exact fun _ => .ok rfl
  | succ n ih =>
      intro s
      unfold chainFrom
      rw [Input.next_relabel, Input.tokens_relabel]
      cases s.tokens with
      | nil => exact .ok rfl
      | cons t rest =>
          simp only [List.map_cons]
          rw [show (t.relabel ρ).text = t.text from rfl, offset_relabel]
          split
          · have hs := h s.next
            generalize p s.next = x, q (s.next.relabel ρ) = y at hs
            cases hs with
            | ok hr =>
                rw [hr]
                exact ih _ _
            | error he => exact .error he
          · exact .ok rfl

theorem chain_alike (ops : List BinOp) (h : Alike ρ (relabel ρ) p q) :
    Alike ρ (relabel ρ) (chain ops p) (chain ops q) := by
  rw [chain_eq, chain_eq]
  apply h.bind
  intro left s
  exact chainFrom_alike ops h s.total left s

theorem named_alike (info : Info) (name : String) (h : Alike ρ (relabel ρ) p q) :
    Alike ρ (relabel ρ) (named p info name) (named q (info.relabel ρ) name) := by
  intro s
  rw [named_eq, named_eq, Input.sees_relabel, Input.sees_relabel]
  split
  · refine (?_ : Alike ρ (relabel ρ) _ _) s
    refine (Alike.expect "(").bind fun _ => (h.listUpTo ")").bind fun arguments => .pure ?_
    rw [relabel, relabelEach_eq_map]
  split
  · refine (?_ : Alike ρ (relabel ρ) _ _) s
    exact (Alike.expect "[").bind fun _ => h.bind fun _ => (Alike.expect "]").bind fun _ => .pure rfl
  · exact .ok rfl

theorem primary_alike (h : Alike ρ (relabel ρ) p q) :
    Alike ρ (relabel ρ) (primary p) (primary q) := by
  intro s
  cases hts : s.tokens with
  | nil =>
      have hts' : (s.relabel ρ).tokens = [] := by rw [Input.tokens_relabel, hts, List.map_nil]
      simpa only [primary, hts, hts'] using Alike.expected (f := relabel ρ) .expression s
  | cons t rest =>
      have hts' : (s.relabel ρ).tokens = t.relabel ρ :: rest.map (Token.relabel ρ) := by
        rw [Input.tokens_relabel, hts, List.map_cons]
      rw [primary_eq hts, primary_eq hts', show (t.relabel ρ).text = t.text from rfl,
        show literal? (t.relabel ρ) = literal? t from rfl, Token.isName_relabel]
      split
      · refine (?_ : Alike ρ (relabel ρ) _ _) s
        exact (Alike.expect t.text).bind fun _ => .pure rfl
      · rename_i herr
        exact .error (literal?_error herr).symm
      · split
        · refine (?_ : Alike ρ (relabel ρ) _ _) s
          refine (Alike.expect "(").bind fun _ => h.bind fun _ => ?_
          exact (Alike.expect ")").bind fun _ => .pure rfl
        split
        · refine (?_ : Alike ρ (relabel ρ) _ _) s
          refine (Alike.expect "[").bind fun _ => (h.listUpTo "]").bind fun elements => .pure ?_
          rw [relabel, relabelEach_eq_map]
          rfl
        split
        · exact ((Alike.word .identifier).bind fun _ => named_alike ⟨t.offset, none⟩ t.text h) s
        · exact Alike.expected .expression s

theorem parser_alike : ∀ depth, Alike ρ (relabel ρ) (parser depth) (parser depth)
  | 0 => .tooDeep
  | 1 => .tooDeep
  | depth + 2 => by
      apply chain_alike
      apply chain_alike
      apply chain_alike
      apply chain_alike
      exact primary_alike (parser_alike depth)

end Expr

namespace Stmt

variable {expr expr' : Parser Expr} {stmt stmt' : Parser Stmt}

theorem block_alike (words : List String) (h : Alike ρ (relabel ρ) stmt stmt') :
    Alike ρ (List.map (relabel ρ)) (block stmt words) (block stmt' words) :=
  h.many fun s => by rw [Input.seesAny_relabel]

section

variable (hE : Alike ρ (Expr.relabel ρ) expr expr') (hS : Alike ρ (relabel ρ) stmt stmt')
include hE hS

theorem case_alike : Alike ρ (Case.relabel ρ) (caseParser expr stmt) (caseParser expr' stmt') := by
  refine (Alike.expect "CASE").bind fun _ => hE.bind fun value => (Alike.expect ":").bind fun _ => ?_
  apply (block_alike _ hS).bind
  intro body
  exact .pure (by rw [Case.relabel, relabelEach_eq_map]; rfl)

omit hE in
theorem default_alike :
    Alike ρ (List.map (Case.relabel ρ)) (defaultParser stmt) (defaultParser stmt') := by
  refine (Alike.sees "DEFAULT").bind fun b => .ite b ?_ (.pure rfl)
  apply (Alike.expect "DEFAULT").bind
  intro offset
  apply (block_alike _ hS).bind
  intro body
  exact .pure (by rw [List.map_cons, Case.relabel, relabelEach_eq_map]; rfl)

theorem switch_alike : Alike ρ (relabel ρ) (switchParser expr stmt) (switchParser expr' stmt') := by
  refine (Alike.expect "SWITCH").bind fun offset => hE.bind fun condition => ?_
  apply ((case_alike hE hS).many fun s => Input.sees_relabel s "CASE").bind
  intro cases
  apply (default_alike hS).bind
  intro default
  refine (Alike.expect "END").bind fun _ => .pure ?_
  rw [relabel, Case.relabelEach_eq_map, List.map_append]

theorem if_alike : Alike ρ (relabel ρ) (ifParser expr stmt) (ifParser expr' stmt') := by
  refine (Alike.expect "IF").bind fun offset => hE.bind fun condition => ?_
  refine (Alike.expect "DO").bind fun _ => (block_alike _ hS).bind fun thenBody => ?_
  apply ((block_alike _ hS).optional "ELSE").bind
  intro elseBody
  refine (Alike.expect "END").bind fun _ => .pure ?_
  cases elseBody <;> rw [relabel, relabelEach_eq_map, relabelEach_eq_map] <;> rfl

theorem while_alike : Alike ρ (relabel ρ) (whileParser expr stmt) (whileParser expr' stmt') := by
  refine (Alike.expect "WHILE").bind fun offset => hE.bind fun condition => ?_
  refine (Alike.expect "DO").bind fun _ => (block_alike _ hS).bind fun body => ?_
  refine (Alike.expect "END").bind fun _ => .pure ?_
  rw [relabel, relabelEach_eq_map]

omit hS

theorem declaration_alike :
    Alike ρ (relabel ρ) (declarationParser expr) (declarationParser expr') := by
  refine (Alike.expect "LET").bind fun offset => (Alike.word .identifier).bind fun name => ?_
  refine ((Alike.word .typeName).optional ":").bind fun typeName => ?_
  refine (hE.optional "=").bind fun value => (Alike.expect ";").bind fun _ => .pure ?_
  rw [Option.map_id']
  rfl

theorem return_alike : Alike ρ (relabel ρ) (returnParser expr) (returnParser expr') := by
  refine (Alike.expect "RETURN").bind fun offset => (Alike.sees ";").bind fun b => .ite b ?_ ?_
  · exact Alike.advance.bind fun _ => .pure rfl
  · exact hE.bind fun value => (Alike.expect ";").bind fun _ => .pure rfl

theorem simple_alike : Alike ρ (relabel ρ) (simpleParser expr) (simpleParser expr') := by
  refine .get fun s => hE.bind fun receiver => (hE.optional "=").bind fun value => ?_
  refine (Alike.expect ";").bind fun _ => ?_
  rw [Input.here_relabel]
  cases value <;> exact .pure rfl

end

theorem parser_alike (depth : Nat) : Alike ρ (relabel ρ) (parser depth) (parser depth) := by
  induction depth with
  | zero => exact .tooDeep
  | succ depth ih =>
      have hE := Expr.parser_alike (ρ := ρ) depth
      intro s
      unfold parser
      simp only [Input.sees_relabel]
      split
      · exact declaration_alike hE s
      split
      · exact switch_alike hE ih s
      split
      · exact if_alike hE ih s
      split
      · exact while_alike hE ih s
      split
      · exact return_alike hE s
      · exact simple_alike hE s

end Stmt

theorem Global.parser_alike (depth : Nat) :
    Alike ρ (relabel ρ) (parser depth) (parser depth) := by
  have hE := Expr.parser_alike (ρ := ρ) depth
  have hlist : Alike ρ (relabel ρ) (listParser (Expr.parser depth))
      (listParser (Expr.parser depth)) := by
    refine (Alike.expect "LIST").bind fun offset => (Alike.word .identifier).bind fun name => ?_
    refine Alike.typeAnnotation.bind fun typeName => (Alike.expect "=").bind fun _ => ?_
    refine (Alike.expect "[").bind fun bracket => hE.commaList.bind fun elements => ?_
    refine (Alike.expect "]").bind fun _ => .pure ?_
    rw [relabel, Option.map_some, Expr.relabel, Expr.relabelEach_eq_map]
    rfl
  have hmutable : Alike ρ (relabel ρ) (mutableParser (Expr.parser depth))
      (mutableParser (Expr.parser depth)) := by
    refine (Alike.expect "VAR").bind fun offset => (Alike.word .identifier).bind fun name => ?_
    refine Alike.typeAnnotation.bind fun typeName => (hE.optional "=").bind fun value => ?_
    exact .pure rfl
  have himmutable : Alike ρ (relabel ρ) (immutableParser (Expr.parser depth))
      (immutableParser (Expr.parser depth)) := by
    refine (Alike.expect "VAL").bind fun offset => (Alike.word .identifier).bind fun name => ?_
    refine Alike.typeAnnotation.bind fun typeName => (Alike.expect "=").bind fun _ => ?_
    exact hE.bind fun value => .pure rfl
  have hend : ∀ g : Global, Alike ρ (relabel ρ) (expect ";" >>= fun _ => pure g)
      (expect ";" >>= fun _ => pure (g.relabel ρ)) :=
    fun _ => (Alike.expect ";").bind fun _ => .pure rfl
  refine (Alike.sees "LIST").bind fun b => .ite b (hlist.bind hend) ?_
  exact (Alike.sees "VAR").bind fun b => .ite b (hmutable.bind hend) (himmutable.bind hend)

theorem Function.parser_alike (depth : Nat) :
    Alike ρ (relabel ρ) (parser depth) (parser depth) := by
  have hbody := Stmt.block_alike ["END"] (Stmt.parser_alike (ρ := ρ) depth)
  have hparameter : Alike ρ (fun a => a) parameterParser parameterParser :=
    (Alike.word .identifier).bind fun _ => Alike.typeAnnotation.bind fun _ => .pure rfl
  refine (Alike.expect "FUN").bind fun offset => (Alike.word .identifier).bind fun name => ?_
  refine (Alike.expect "(").bind fun _ => (hparameter.listUpTo ")").bind fun parameters => ?_
  refine ((Alike.word .typeName).optional ":").bind fun returns => ?_
  refine (Alike.expect "DO").bind fun _ => hbody.bind fun body => ?_
  refine (Alike.expect "END").bind fun _ => .pure ?_
  rw [Option.map_id', List.map_id']
  rfl

theorem Program.parser_alike (depth : Nat) :
    Alike ρ (relabel ρ) (parser depth) (parser depth) := by
  apply ((Global.parser_alike depth).many fun s => Input.seesAny_relabel s globalWords).bind
  intro globals
  apply ((Function.parser_alike depth).many fun s => Input.sees_relabel s "FUN").bind
  intro functions
  refine .get fun s => ?_
  rw [Input.seesAny_relabel, Input.isEmpty_relabel, Input.here_relabel]
  exact .ite _ (.throw rfl) (.ite _ (.expected .definition) (.pure rfl))

theorem Program.ofTokens_matched {ts ts' : List Token}
    (h : ts.map (fun t => (t.kind, t.text)) = ts'.map fun t => (t.kind, t.text)) :
    Matched (fun e e' => e'.relabel .unplaced = e.relabel .unplaced)
      (fun p p' => p'.relabel .unplaced = p.relabel .unplaced) (Program.ofTokens ts)
      (Program.ofTokens ts') := by
  have hleft := Program.parser_alike (ρ := .unplaced) parseDepth (.ofTokens ts)
  have hright := Program.parser_alike (ρ := .unplaced) parseDepth (.ofTokens ts')
  rw [← Input.ofTokens_relabel_unplaced h] at hright
  refine ((hleft.join hright).imp ?_ fun _ _ => id).map ?_
  · rintro e e' ⟨_, rfl, he⟩
    exact he.symm
  · rintro ⟨p, s⟩ ⟨p', s'⟩ ⟨_, rfl, hp⟩
    exact (congrArg Prod.fst hp).symm

end PlcLang
