import PlcLang.Proofs.ParserExact
import PlcLang.Proofs.Relabeling
import PlcLang.Proofs.TapeReads

namespace PlcLang

open TapeParser

namespace Ended

variable {l : Ended} {finish i : Nat}

section Statements

variable {qE : TapeParser Expr} {pE : Parser Expr} {qS : TapeParser Stmt} {pS : Parser Stmt}
variable {E : Rule Expr} {S : Rule Stmt}

theorem Agrees.declaration (hE : Agrees l finish qE pE) :
    Agrees l finish (declaration qE) (Stmt.declarationParser pE) := by
  refine (Agrees.expect "LET").bind fun offset => (Agrees.word .identifier).bind fun name => ?_
  refine ((Agrees.word .typeName).optional ":").bind fun typeName => ?_
  exact (hE.optional "=").bind fun value => (Agrees.expect ";").bind fun _ => .pure _

theorem Agrees.ret (hE : Agrees l finish qE pE) :
    Agrees l finish (ret qE) (Stmt.returnParser pE) := by
  refine (Agrees.expect "RETURN").bind fun offset i hi => .both_see hi (fun hsees => ?_) fun _ => ?_
  · refine AgreesAt.congr ?_ (congrFun (pure_bind _ _) _) (advance_of_sees hsees)
    exact ((Agrees.expect ";").bind fun _ => .pure _) i hi
  · refine AgreesAt.congr ?_ (congrFun (bind_map_left _ qE _) _) rfl
    exact (hE.bind fun value => (Agrees.expect ";").bind fun _ => .pure _) i hi

theorem Agrees.simple (hE : Agrees l finish qE pE) (hG : pE.Follows E)
    (hstarts : ∀ ts e, E ts e → e.Starts ts) :
    Agrees l finish (simple qE) (Stmt.simpleParser pE) := by
  intro i hi
  have hsized := l.sized_input finish i
  refine .current hi (AgreesAt.congr ?_ rfl (Stmt.simpleParser_eq hG hstarts hsized))
  refine (hE i hi).bind fun receiver j _ hj hok => ?_
  have hoffset : (l.tokenAt i).offset = receiver.offset := by
    obtain ⟨ts, rest, hts, hreceiver, _⟩ := (hG _ hsized).of_ok hsized hok
    obtain ⟨t, us, rfl, ho⟩ := hstarts ts receiver hreceiver
    have ht : l.body[i]? = some t := by
      rw [← head?_input l finish, hts]
      rfl
    rw [tokenAt_of_some ht, ho]
  rw [hoffset]
  refine ((hE.optional "=").bind fun value => (Agrees.expect ";").bind fun _ => ?_) j hj
  cases value <;> exact .pure _

section Blocks

variable (hE : Agrees l finish qE pE) (hS : Agrees l finish qS pS)
variable (hGE : pE.Follows E) (hGS : pS.Follows S) (hne : ∀ ts a, S ts a → ts ≠ [])
include hS hGS hne

theorem Agrees.block (words : List String) :
    Agrees l finish (block qS words) (Stmt.block pS words) := by
  refine .repeated (tests_seesAny words).not ?_ fun i hi _ => hS i hi
  exact Parser.shrinks_of_reads (fun s hs _ => hGS s hs) hne

theorem Agrees.defaultBranch :
    Agrees l finish (defaultBranch qS) (Stmt.defaultParser pS) := by
  intro i hi
  refine .both_see hi (fun hsees => ?_) fun _ => .pure hi []
  exact .of_seen hsees fun t _ => (hS.block hGS hne ["END"]).bind fun body => .pure _

include hE

theorem Agrees.ifElse : Agrees l finish (ifElse qE qS) (Stmt.ifParser pE pS) := by
  refine (Agrees.expect "IF").bind fun offset => hE.bind fun condition => ?_
  refine (Agrees.expect "DO").bind fun _ => (hS.block hGS hne _).bind fun thenBody => ?_
  refine ((hS.block hGS hne _).optional "ELSE").bind fun elseBody => ?_
  exact (Agrees.expect "END").bind fun _ => .pure _

theorem Agrees.whileDo : Agrees l finish (whileDo qE qS) (Stmt.whileParser pE pS) := by
  refine (Agrees.expect "WHILE").bind fun offset => hE.bind fun condition => ?_
  refine (Agrees.expect "DO").bind fun _ => (hS.block hGS hne _).bind fun body => ?_
  exact (Agrees.expect "END").bind fun _ => .pure _

include hGE

theorem Agrees.switch : Agrees l finish (switch qE qS) (Stmt.switchParser pE pS) := by
  have hshrinks : Parser.Shrinks (·.sees "CASE") (Stmt.caseParser pE pS) := by
    refine Parser.shrinks_of_reads (fun s hs h => Stmt.case_reads hGE hGS hne hs h) ?_
    rintro ts a ⟨hw, _, _, _⟩
    simp [hw.ne_nil]
  have hcases : Agrees l finish (TapeParser.repeated (sees "CASE") (branch qE qS))
      (Parser.many (·.sees "CASE") (Stmt.caseParser pE pS)) := by
    refine .repeated (tests_sees "CASE") hshrinks fun i hi hsees => ?_
    refine .of_seen hsees fun t _ => hE.bind fun value => ?_
    exact (Agrees.expect ":").bind fun _ => (hS.block hGS hne _).bind fun body => .pure _
  refine (Agrees.expect "SWITCH").bind fun offset => hE.bind fun condition => ?_
  refine hcases.bind fun cases => (hS.defaultBranch hGS hne).bind fun default => ?_
  exact (Agrees.expect "END").bind fun _ => .pure _

end Blocks

theorem Agrees.stmt (depth : Nat) : Agrees l finish (stmt depth) (Stmt.parser depth) := by
  induction depth with
  | zero => exact .tooDeep
  | succ depth ih =>
      intro i hi
      have hE : Agrees l finish (TapeParser.expr depth) (Expr.parser depth) := .expr depth
      have hGE := Expr.parser_follows depth
      have hGS := Stmt.parser_follows depth
      have hne : ∀ ts a, Stmt.Within depth ts a → ts ≠ [] := fun _ _ => Stmt.Within.ne_nil
      refine .ite_sees hi (fun hlet => ?_) fun hlet => ?_
      · exact (hE.declaration i hi).congr rfl (by simp [Stmt.parser, hlet])
      refine .ite_sees hi (fun hswitch => ?_) fun hswitch => ?_
      · exact (hE.switch ih hGE hGS hne i hi).congr rfl (by simp [Stmt.parser, hlet, hswitch])
      refine .ite_sees hi (fun hif => ?_) fun hif => ?_
      · exact (hE.ifElse ih hGS hne i hi).congr rfl (by simp [Stmt.parser, hlet, hswitch, hif])
      refine .ite_sees hi (fun hwhile => ?_) fun hwhile => ?_
      · refine (hE.whileDo ih hGS hne i hi).congr rfl ?_
        simp [Stmt.parser, hlet, hswitch, hif, hwhile]
      refine .ite_sees hi (fun hreturn => ?_) fun hreturn => ?_
      · refine (hE.ret i hi).congr rfl ?_
        simp [Stmt.parser, hlet, hswitch, hif, hwhile, hreturn]
      · refine (hE.simple hGE (fun _ _ => Expr.Within.starts) i hi).congr rfl ?_
        simp [Stmt.parser, hlet, hswitch, hif, hwhile, hreturn]

end Statements

section Programs

theorem Agrees.global (depth : Nat) : Agrees l finish (global depth) (Global.parser depth) := by
  have hE : Agrees l finish (TapeParser.expr depth) (Expr.parser depth) := .expr depth
  have hGE := Expr.parser_follows depth
  have hlist : Agrees l finish (listGlobal (TapeParser.expr depth))
      (Global.listParser (Expr.parser depth)) := by
    refine (Agrees.expect "LIST").bind fun offset => (Agrees.word .identifier).bind fun name => ?_
    refine Agrees.typeAnnotation.bind fun typeName => (Agrees.expect "=").bind fun _ => ?_
    refine (Agrees.expect "[").bind fun bracket => (hE.commaList hGE).bind fun elements => ?_
    exact (Agrees.expect "]").bind fun _ => .pure _
  have hmutable : Agrees l finish (mutableGlobal (TapeParser.expr depth))
      (Global.mutableParser (Expr.parser depth)) := by
    refine (Agrees.expect "VAR").bind fun offset => (Agrees.word .identifier).bind fun name => ?_
    refine Agrees.typeAnnotation.bind fun typeName => (hE.optional "=").bind fun value => ?_
    exact .pure _
  have himmutable : Agrees l finish (immutableGlobal (TapeParser.expr depth))
      (Global.immutableParser (Expr.parser depth)) := by
    refine (Agrees.expect "VAL").bind fun offset => (Agrees.word .identifier).bind fun name => ?_
    refine Agrees.typeAnnotation.bind fun typeName => (Agrees.expect "=").bind fun _ => ?_
    exact hE.bind fun value => .pure _
  have hend (g : Global) : Agrees l finish (TapeParser.expect ";" >>= fun _ => Pure.pure g)
      (Parser.expect ";" >>= fun _ => Pure.pure g) := (Agrees.expect ";").bind fun _ => .pure g
  intro i hi
  refine .both_see hi (fun _ => (hlist.bind hend) i hi) fun _ => ?_
  exact .both_see hi (fun _ => (hmutable.bind hend) i hi) fun _ => (himmutable.bind hend) i hi

theorem Agrees.function (depth : Nat) :
    Agrees l finish (function depth) (Function.parser depth) := by
  have hparameter : Agrees l finish parameter Function.parameterParser :=
    (Agrees.word .identifier).bind fun _ => Agrees.typeAnnotation.bind fun _ => .pure _
  have hstmt : Agrees l finish (TapeParser.stmt depth) (Stmt.parser depth) := .stmt depth
  have hbody := hstmt.block (Stmt.parser_follows depth) (fun _ _ => Stmt.Within.ne_nil) ["END"]
  refine (Agrees.expect "FUN").bind fun offset => (Agrees.word .identifier).bind fun name => ?_
  refine (Agrees.expect "(").bind fun _ => ?_
  refine (hparameter.listUpTo ")" Function.parameterParser_follows).bind fun parameters => ?_
  refine ((Agrees.word .typeName).optional ":").bind fun returns => ?_
  refine (Agrees.expect "DO").bind fun _ => hbody.bind fun body => ?_
  exact (Agrees.expect "END").bind fun _ => .pure _

theorem Agrees.ending (p : Program) :
    Agrees l finish
      (do
        if ← seesAny Program.globalWords then refuse .lateGlobal
        else if !(← atEnd) then TapeParser.expected .definition
        else return p)
      (Program.finish p) := by
  intro i hi
  have hseen := seesAny_input l finish i Program.globalWords
  rw [AgreesAt, TapeParser.bind_ok (seesAny_tape hi _), ← hseen]
  cases hlate : (l.input finish i).seesAny Program.globalWords with
  | true =>
      rw [hlate, eq_comm, Option.any_eq_true] at hseen
      obtain ⟨t, ht, _⟩ := hseen
      have hlt := (List.getElem?_eq_some_iff.mp ht).1
      rw [Program.finish_of_late hlate]
      exact AgreesAt.current (p := fun s => .error ⟨.lateGlobal, some s.here⟩) hi
        (.refused (Nat.le_refl i) hi (.lateGlobal hlt))
  | false =>
      rw [if_neg Bool.false_ne_true, TapeParser.bind_ok (atEnd_tape hi)]
      cases ht : l.body[i]? with
      | none =>
          rw [Program.finish_of_nil (tokens_input_eq_nil ht)]
          exact AgreesAt.pure hi p
      | some t =>
          have hne : (l.input finish i).tokens ≠ [] := by simp [tokens_input ht]
          rw [Program.finish_of_more hlate hne]
          exact Agrees.expected .definition i hi

theorem Agrees.program (depth : Nat) :
    Agrees l finish (program (depth + 2)) (Program.parser (depth + 2)) := by
  have hglobals : Parser.Shrinks (·.seesAny Program.globalWords) (Global.parser (depth + 2)) := by
    refine Parser.shrinks_of_reads (fun s hs h => Global.parser_reads hs h) ?_
    rintro ts g ⟨_, hc⟩
    simp [hc.ne_nil]
  have hfunctions : Parser.Shrinks (·.sees "FUN") (Function.parser (depth + 2)) := by
    refine Parser.shrinks_of_reads (fun s hs h => Function.parser_reads hs h) ?_
    rintro ts f ⟨hw, _, _, _, _, _, _, _⟩
    simp [hw.ne_nil]
  refine Agrees.bind (.repeated (tests_seesAny _) hglobals fun i hi _ => Agrees.global _ i hi)
    fun globals => ?_
  refine Agrees.bind (.repeated (tests_sees "FUN") hfunctions fun i hi _ => Agrees.function _ i hi)
    fun functions => ?_
  exact .ending ⟨globals, functions⟩

theorem program_outcome (l : Ended) (finish : Nat) :
    Outcome l finish 0 (program parseDepth (l.tape 0))
      (Program.parser parseDepth (l.input finish 0)) := by
  obtain ⟨depth, hdepth⟩ : ∃ depth, parseDepth = depth + 2 := ⟨33398, rfl⟩
  rw [hdepth]
  exact Agrees.program depth 0 (Nat.zero_le _)

end Programs

theorem input_of_tokens (l : Ended) :
    Input.ofTokens (l.body ++ l.stop :: l.behind) = l.input l.stop.offset 0 := by
  have hbody : (l.body ++ l.stop :: l.behind).takeWhile (·.kind != .eof) = l.body := by
    rw [List.takeWhile_append_of_pos (by simpa using l.body_kind),
      List.takeWhile_cons_of_neg (by simp [l.stop_kind]), List.append_nil]
  have hfind : (l.body ++ l.stop :: l.behind).find? (·.kind == .eof) = some l.stop := by
    rw [List.find?_append, List.find?_eq_none.mpr (by simpa using l.body_kind), Option.none_or,
      List.find?_cons_of_pos (by simp [l.stop_kind])]
  rw [Input.ofTokens, hbody, hfind]
  rfl

theorem here_eq_offset (l : Ended) (i : Nat) :
    (l.input l.stop.offset i).here = (l.tokenAt i).offset := by
  rw [here_input, tokenAt]
  cases l.body[i]? <;> rfl

theorem Outcome.tape_eq {α : Type} {l : Ended} {i : Nat} {x : Part (Except TapeError α × Tape)}
    {y : Except ParseError (α × Input)} (h : Outcome l l.stop.offset i x y) :
    ∃ j ≤ l.body.length, x = .some ((y.map Prod.fst).mapError .refused, l.tape j) := by
  cases h with
  | ok _ hj => exact ⟨_, hj, rfl⟩
  | nowhere _ hj _ => exact ⟨_, hj, rfl⟩
  | refused _ hj _ =>
      refine ⟨_, hj, ?_⟩
      rw [here_eq_offset]
      rfl

theorem not_eof_of_place_le {l : Ended} {i j : Nat} (hj : j ≤ l.body.length) :
    j < (l.tape i).tokens.length ∧ ∀ t ∈ (l.tape i).tokens.take j, t.kind ≠ .eof := by
  constructor
  · rw [tape, List.length_append, List.length_cons]
    omega
  · intro t ht
    rw [tape, List.take_append_of_le_length hj] at ht
    exact l.body_kind t (List.mem_of_mem_take ht)

end Ended

namespace Tape

/-- The end token that a tape puts behind its tokens is where their end is already. -/
theorem input_ofTokens (tokens : List Token) :
    Input.ofTokens (ofTokens tokens).tokens = Input.ofTokens tokens := by
  obtain ⟨stop, hstop, hkind⟩ : ∃ stop : Token,
      stop = ⟨.eof, "", (tokens.getLast?.map Token.stop).getD 0⟩ ∧ stop.kind = .eof := ⟨_, rfl, rfl⟩
  have hbody : (tokens ++ [stop]).takeWhile (·.kind != .eof) =
      tokens.takeWhile (·.kind != .eof) := by
    rw [List.takeWhile_append, List.takeWhile_cons_of_neg (by simp [hkind]), List.append_nil]
    split
    · rename_i hlength
      exact ((List.takeWhile_prefix _).eq_of_length hlength).symm
    · rfl
  have hfind : (tokens ++ [stop]).find? (·.kind == .eof) =
      (tokens.find? (·.kind == .eof)).or (some stop) := by
    rw [List.find?_append, List.find?_cons_of_pos (by simp [hkind])]
  rw [ofTokens, ← hstop, Input.ofTokens, hbody, hfind, Input.ofTokens]
  cases tokens.find? (·.kind == .eof) with
  | none => rw [hstop]; rfl
  | some e => rfl

theorem exists_ended (tokens : List Token) : ∃ l : Ended, l.tape 0 = ofTokens tokens := by
  cases hfind : tokens.find? (·.kind == .eof) with
  | none =>
      have hkind : ∀ t ∈ tokens, t.kind ≠ .eof := by simpa using List.find?_eq_none.mp hfind
      exact ⟨⟨tokens, _, [], hkind, rfl⟩, rfl⟩
  | some e =>
      obtain ⟨hstop, body, behind, rfl, hbody⟩ := List.find?_eq_some_iff_append.mp hfind
      have hkind : ∀ t ∈ body, t.kind ≠ .eof := by simpa using hbody
      rw [ofTokens, List.append_assoc]
      exact ⟨⟨body, e, _, hkind, by simpa using hstop⟩, rfl⟩

/-- The grammar comes to the outcome, and no token that it went past is an end token. -/
def Ends (tape : Tape) (outcome : Except ParseError Program) : Prop :=
  ∃ i, (i < tape.tokens.length ∧ ∀ t ∈ tape.tokens.take i, t.kind ≠ .eof) ∧
    TapeParser.program parseDepth tape =
      .some (outcome.mapError .refused, { tape with place := i })

theorem ends (tokens : List Token) : (ofTokens tokens).Ends (Program.ofTokens tokens) := by
  obtain ⟨l, hl⟩ := exists_ended tokens
  have hinput : Input.ofTokens tokens = l.input l.stop.offset 0 := by
    rw [← input_ofTokens, ← hl]
    exact l.input_of_tokens
  obtain ⟨i, hi, hprogram⟩ := (l.program_outcome l.stop.offset).tape_eq
  rw [← hl, Program.ofTokens, Parser.parse, hinput]
  exact ⟨i, Ended.not_eof_of_place_le hi, hprogram⟩

end Tape

/-- Errors for one cause: at one token, or at the two ends of the input, or at no place. -/
inductive ParseError.SameAt (ts : List Token) (finish finish' : Nat) :
    ParseError → ParseError → Prop
  | token {i : Nat} {t : Token} {cause : ParseCause} (ht : ts[i]? = some t) (h : cause.At ts i) :
    SameAt ts finish finish' ⟨cause, some t.offset⟩ ⟨cause, some t.offset⟩
  | finish {cause : ParseCause} (h : cause.At ts ts.length) :
    SameAt ts finish finish' ⟨cause, some finish⟩ ⟨cause, some finish'⟩
  | nowhere {cause : ParseCause} (h : cause.Placeless) :
    SameAt ts finish finish' ⟨cause, none⟩ ⟨cause, none⟩

open ParseError

namespace Ended

theorem sameAt_of_input {l : Ended} {finish finish' j : Nat} {cause : ParseCause}
    (hj : j ≤ l.body.length) (h : cause.At l.body j) :
    SameAt l.body finish finish' ⟨cause, some (l.input finish j).here⟩
      ⟨cause, some (l.input finish' j).here⟩ := by
  rw [here_input, here_input]
  cases ht : l.body[j]? with
  | some t => exact .token ht h
  | none =>
      obtain rfl := Nat.le_antisymm hj (List.getElem?_eq_none_iff.mp ht)
      exact .finish h

theorem Outcome.matched {α : Type} {l : Ended} {finish finish' i : Nat}
    {x : Part (Except TapeError α × Tape)} {y z : Except ParseError (α × Input)}
    (h : Outcome l finish i x y) (h' : Outcome l finish' i x z) :
    Matched (SameAt l.body finish finish') Eq (y.map Prod.fst) (z.map Prod.fst) := by
  generalize hx : x = x' at h'
  cases h with
  | ok =>
      cases h' with
      | ok =>
          cases Part.some_inj.mp hx
          exact .ok rfl
      | refused | nowhere => cases Part.some_inj.mp hx
  | nowhere _ _ hcause =>
      cases h' with
      | nowhere =>
          cases Part.some_inj.mp hx
          exact .error (.nowhere hcause)
      | ok | refused => cases Part.some_inj.mp hx
  | refused _ hj hcause =>
      cases h' with
      | refused =>
          obtain ⟨hcauses, hplaces⟩ := Prod.mk.inj (Part.some_inj.mp hx)
          cases (Tape.mk.inj hplaces).2
          cases hcauses
          exact .error (sameAt_of_input hj hcause)
      | ok | nowhere => cases Part.some_inj.mp hx

end Ended

namespace Program

/-- An end token is read as the end of the input, whatever stands behind it: the program is the one
of the tokens in front of it, and an error is for the same cause at the same token, or at the end
token. On every token list the grammar comes to its end, at a place that no end token is in front
of. -/
theorem ofTokens_first_end {ts us : List Token} {e : Token} (hts : ∀ t ∈ ts, t.kind ≠ .eof)
    (he : e.kind = .eof) :
    Matched (SameAt ts ((ts.getLast?.map Token.stop).getD 0) e.offset) Eq
        (ofTokens ts) (ofTokens (ts ++ e :: us)) ∧
      ∀ tokens, (Tape.ofTokens tokens).Ends (ofTokens tokens) := by
  refine ⟨?_, Tape.ends⟩
  obtain ⟨l, rfl, hopen, hended⟩ : ∃ l : Ended, l.body = ts ∧
      Input.ofTokens ts = l.input ((ts.getLast?.map Token.stop).getD 0) 0 ∧
      Input.ofTokens (ts ++ e :: us) = l.input e.offset 0 := by
    refine ⟨⟨ts, ⟨.eof, "", (ts.getLast?.map Token.stop).getD 0⟩, [], hts, rfl⟩, rfl, ?_, ?_⟩
    · rw [← Tape.input_ofTokens]
      exact Ended.input_of_tokens ⟨ts, _, [], hts, rfl⟩
    · exact Ended.input_of_tokens ⟨ts, e, us, hts, he⟩
  rw [ofTokens, ofTokens, Parser.parse, Parser.parse, hopen, hended]
  exact (l.program_outcome _).matched (l.program_outcome _)

theorem end_token_in_declaration :
    let ts : List Token := [⟨.identifier, "VAR", 0⟩, ⟨.identifier, "x", 4⟩]
    let e : Token := ⟨.eof, ":", 9⟩
    let us : List Token := [⟨.operator, ":", 10⟩, ⟨.identifier, "Integer", 12⟩,
      ⟨.operator, ";", 19⟩]
    let cause : ParseCause := .expected (.word ":") none
    ((∀ t ∈ ts, t.kind ≠ .eof) ∧ e.kind = .eof) ∧
      (ofTokens ts = .error ⟨cause, some 5⟩ ∧
        ofTokens (ts ++ e :: us) = .error ⟨cause, some 9⟩) ∧
      Matched (SameAt ts ((ts.getLast?.map Token.stop).getD 0) e.offset) Eq
        (ofTokens ts) (ofTokens (ts ++ e :: us)) ∧
      ∀ tokens, (Tape.ofTokens tokens).Ends (ofTokens tokens) := by
  intro ts e us cause
  have hts : ∀ t ∈ ts, t.kind ≠ .eof := by decide
  exact ⟨⟨hts, rfl⟩, ⟨rfl, rfl⟩, ofTokens_first_end hts rfl⟩

end Program

end PlcLang
