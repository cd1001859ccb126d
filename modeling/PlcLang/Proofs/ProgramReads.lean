import PlcLang.Proofs.ExpressionReads

namespace PlcLang

open Rule PlcLang.Parser

def Expr.Starts (ts : List Token) (e : Expr) : Prop := ∃ t us, ts = t :: us ∧ e.offset = t.offset

theorem Expr.Starts.ne_nil {ts : List Token} {e : Expr} (h : e.Starts ts) : ts ≠ [] := by
  obtain ⟨t, us, rfl, _⟩ := h
  simp

namespace Expr

theorem Primary.starts {E : Rule Expr} {ts : List Token} {e : Expr} (h : Primary E ts e) :
    e.Starts ts := by
  cases h with
  | literal _ | access _ => exact ⟨_, _, rfl, rfl⟩
  | call _ _ _ | element _ _ _ _ => exact ⟨_, _, rfl, rfl⟩
  | group hw _ _ | list hw _ =>
    cases hw with
    | mk _ => exact ⟨_, _, rfl, rfl⟩

theorem Chain.starts {level : Nat} {G : Rule Expr} (hG : ∀ ts e, G ts e → e.Starts ts)
    {ts : List Token} {e : Expr} (h : Chain level G ts e) : e.Starts ts := by
  induction h with
  | operand he => exact hG _ _ he
  | binary _ _ _ _ ih =>
    obtain ⟨t, us, rfl, ho⟩ := ih
    exact ⟨t, _, rfl, ho⟩

theorem Within.starts {depth : Nat} {ts : List Token} {e : Expr} (h : Within depth ts e) :
    e.Starts ts := by
  match depth, h with
  | depth + 2, h =>
    exact Chain.starts (fun _ _ => Chain.starts fun _ _ => Chain.starts fun _ _ =>
      Chain.starts fun _ _ => Primary.starts) h

end Expr

theorem Rule.Word.ne_nil {w : String} {ts : List Token} {o : Nat} (h : Word w ts o) : ts ≠ [] := by
  cases h with
  | mk _ => simp

namespace Stmt

variable {expr : Parser Expr} {stmt : Parser Stmt} {E : Rule Expr} {S : Rule Stmt} {s : Input}

theorem Rules.ne_nil (hE : ∀ ts e, E ts e → e.Starts ts) {ts : List Token} {a : Stmt}
    (h : Rules E S ts a) : ts ≠ [] := by
  cases h with
  | declaration hw _ _ _ _ | switch hw _ _ _ _ | ifElse hw _ _ _ _ _ | whileDo hw _ _ _ _
  | returnNil hw _ | returnValue hw _ _ => simp [hw.ne_nil]
  | expression he _ | assignment he _ _ _ => simp [(hE _ _ he).ne_nil]

theorem Within.ne_nil {depth : Nat} {ts : List Token} {a : Stmt} (h : Within depth ts a) :
    ts ≠ [] := by
  cases depth with
  | zero => exact h.elim
  | succ depth => exact Rules.ne_nil (fun _ _ => Expr.Within.starts) h

theorem block_fits (words : List String) (hS : stmt.Follows S)
    (hne : ∀ ts a, S ts a → ts ≠ []) : (block stmt words).Fits (Many S) :=
  many_fits (Input.looksAhead_seesAny words).not (fun s hs _ => hS s hs) hne

theorem declaration_reads (hE : expr.Follows E) (hs : s.Sized) (h : s.sees "LET" = true) :
    Reads (declarationParser expr) (Rules E S) s := by
  apply Reads.of_seen hs h
  intro t ht
  apply Fits.follows
  apply (word_fits .identifier).bind
  intro n name hn
  apply (optional_fits (word_fits .typeName).follows).bind
  intro ts typeName hts
  apply (optional_fits hE).bind
  intro vs value hvs
  apply (expect_fits (punctuation_viable ";" (by simp))).bind
  intro c o hc
  apply fits_pure
  simpa [Rule.after] using Rules.declaration (.mk ht) hn hts hvs hc

section Blocks

variable (hE : expr.Follows E) (hS : stmt.Follows S) (hne : ∀ ts a, S ts a → ts ≠ [])
include hE hS hne

theorem case_reads (hs : s.Sized) (h : s.sees "CASE" = true) :
    Reads (caseParser expr stmt) (Case.Rules E S) s := by
  apply Reads.of_seen hs h
  intro t ht
  apply hE.bind
  intro ts value hts
  apply (expect_fits (punctuation_viable ":" (by simp))).bind
  intro c o hc
  apply (block_fits _ hS hne).bind
  intro us body hus
  apply fits_pure
  simpa [Rule.after] using Case.Rules.mk (.mk ht) hts hc hus

omit hE in
theorem default_fits : (defaultParser stmt).Fits (Case.Default S) := by
  refine ⟨?_, [], [], by simp, .none⟩
  intro s hs
  apply reads_ite_sees hs
  · intro h
    apply Reads.of_seen hs h
    intro t ht
    apply (block_fits _ hS hne).follows.bind
    intro us body hus
    apply fits_pure
    simpa [Rule.after] using Case.Default.some (.mk ht) hus
  · intro _
    exact reads_pure .none s

theorem switch_reads (hs : s.Sized) (h : s.sees "SWITCH" = true) :
    Reads (switchParser expr stmt) (Rules E S) s := by
  apply Reads.of_seen hs h
  intro t ht
  apply hE.bind
  intro ts condition hts
  have hcases : (many (·.sees "CASE") (caseParser expr stmt)).Fits (Many (Case.Rules E S)) := by
    apply many_fits (Input.looksAhead_sees "CASE")
    · intro s hs h
      exact case_reads hE hS hne hs h
    · intro ts c hc
      cases hc with
      | mk hw _ _ _ => simp [hw.ne_nil]
  apply hcases.bind
  intro cs cases hcs
  apply (default_fits hS hne).bind
  intro ds default hds
  apply (expect_fits end_viable).bind
  intro c o hc
  apply fits_pure
  simpa [Rule.after] using Rules.switch (.mk ht) hts hcs hds hc

theorem if_reads (hs : s.Sized) (h : s.sees "IF" = true) :
    Reads (ifParser expr stmt) (Rules E S) s := by
  apply Reads.of_seen hs h
  intro t ht
  apply hE.bind
  intro ts condition hts
  apply (expect_fits do_viable).bind
  intro d o hd
  apply (block_fits _ hS hne).bind
  intro bs thenBody hbs
  apply (optional_fits (block_fits _ hS hne).follows).bind
  intro es elseBody hes
  apply (expect_fits end_viable).bind
  intro c o' hc
  apply fits_pure
  simpa [Rule.after] using Rules.ifElse (.mk ht) hts hd hbs hes hc

theorem while_reads (hs : s.Sized) (h : s.sees "WHILE" = true) :
    Reads (whileParser expr stmt) (Rules E S) s := by
  apply Reads.of_seen hs h
  intro t ht
  apply hE.bind
  intro ts condition hts
  apply (expect_fits do_viable).bind
  intro d o hd
  apply (block_fits _ hS hne).bind
  intro bs body hbs
  apply (expect_fits end_viable).bind
  intro c o' hc
  apply fits_pure
  simpa [Rule.after] using Rules.whileDo (.mk ht) hts hd hbs hc

end Blocks

theorem return_reads (hE : expr.Follows E) (hs : s.Sized) (h : s.sees "RETURN" = true) :
    Reads (returnParser expr) (Rules E S) s := by
  apply Reads.of_seen hs h
  intro t ht s hs
  apply reads_ite_sees hs
  · intro h
    apply Reads.of_advance hs h
    intro c hc
    apply Fits.follows
    apply fits_pure
    simpa [Rule.after] using Rules.returnNil (E := E) (S := S) (.mk ht) (.mk hc)
  · intro _
    apply hE.bind _ s hs
    intro ts value hts
    apply (expect_fits (punctuation_viable ";" (by simp))).bind
    intro c o hc
    apply fits_pure
    simpa [Rule.after] using Rules.returnValue (S := S) (.mk ht) hts hc

def simple (offset : Nat) (receiver : Expr) : Option Expr → Stmt
  | some value => .assignment offset receiver value
  | none => .expression offset receiver

theorem simpleParser_eq (hE : expr.Follows E) (hstarts : ∀ ts e, E ts e → e.Starts ts)
    (hs : s.Sized) :
    simpleParser expr s =
      (expr >>= fun receiver => optional "=" expr >>= fun value => expect ";" >>= fun _ =>
        pure (simple receiver.offset receiver value)) s := by
  have hget : (get : Parser Input) s = .ok (s, s) := rfl
  unfold simpleParser
  rw [bind_ok hget]
  cases h : expr s with
  | error e => rw [bind_error h, bind_error h]
  | ok r =>
    obtain ⟨ts, rest, hts, he, _⟩ := (hE s hs).of_ok hs h
    obtain ⟨t, us, rfl, ho⟩ := hstarts ts r.1 he
    have hhere : s.here = r.1.offset := by rw [Input.here_eq_of_cons hts, ho]
    rw [bind_of_ok h, bind_of_ok h, hhere]
    have hbody : (fun value : Option Expr => expect ";" >>= fun _ =>
        match value with
        | some value => (pure (.assignment r.1.offset r.1 value) : Parser Stmt)
        | none => pure (.expression r.1.offset r.1)) =
        fun value => expect ";" >>= fun _ => pure (simple r.1.offset r.1 value) := by
      funext value
      cases value <;> rfl
    exact congrArg (fun f => (optional "=" expr >>= f) r.2) hbody

theorem simple_reads (hE : expr.Follows E) (hstarts : ∀ ts e, E ts e → e.Starts ts)
    (hs : s.Sized) : Reads (simpleParser expr) (Rules E S) s := by
  have hread : (expr >>= fun receiver => optional "=" expr >>= fun value => expect ";" >>= fun _ =>
      pure (simple receiver.offset receiver value)).Follows (Rules E S) := by
    apply hE.bind
    intro ts receiver hts
    apply (optional_fits hE).bind
    intro vs value hvs
    apply (expect_fits (punctuation_viable ";" (by simp))).bind
    intro c o hc
    apply fits_pure
    cases hvs with
    | none => simpa [Rule.after, simple] using Rules.expression (S := S) hts hc
    | some hw hvs => simpa [Rule.after, simple] using Rules.assignment (S := S) hts hw hvs hc
  apply Reads.congr hs _ (hread s hs)
  intro s' hs' _
  exact simpleParser_eq hE hstarts hs'

theorem parser_follows (depth : Nat) : (parser depth).Follows (Within depth) := by
  induction depth with
  | zero => exact follows_tooDeep _
  | succ depth ih =>
    intro s hs
    have hE := Expr.parser_follows depth
    have hne : ∀ ts a, Within depth ts a → ts ≠ [] := fun _ _ => Within.ne_nil
    -- Another input with the same next token goes the same way.
    have hsame : ∀ q : Parser Stmt,
        (∀ s' : Input, (∀ w, s'.sees w = s.sees w) → parser (depth + 1) s' = q s') →
        Reads q (Within (depth + 1)) s → Reads (parser (depth + 1)) (Within (depth + 1)) s := by
      intro q hq hread
      apply Reads.congr hs _ hread
      intro s' _ hhead
      exact hq s' fun w => Input.sees_congr w hhead
    cases hlet : s.sees "LET" with
    | true =>
      apply hsame _ _ (declaration_reads hE hs hlet)
      intro s' hw
      simp [parser, hw, hlet]
    | false =>
    cases hswitch : s.sees "SWITCH" with
    | true =>
      apply hsame _ _ (switch_reads hE ih hne hs hswitch)
      intro s' hw
      simp [parser, hw, hlet, hswitch]
    | false =>
    cases hif : s.sees "IF" with
    | true =>
      apply hsame _ _ (if_reads hE ih hne hs hif)
      intro s' hw
      simp [parser, hw, hlet, hswitch, hif]
    | false =>
    cases hwhile : s.sees "WHILE" with
    | true =>
      apply hsame _ _ (while_reads hE ih hne hs hwhile)
      intro s' hw
      simp [parser, hw, hlet, hswitch, hif, hwhile]
    | false =>
    cases hreturn : s.sees "RETURN" with
    | true =>
      apply hsame _ _ (return_reads hE hs hreturn)
      intro s' hw
      simp [parser, hw, hlet, hswitch, hif, hwhile, hreturn]
    | false =>
      apply hsame _ _ (simple_reads hE (fun _ _ => Expr.Within.starts) hs)
      intro s' hw
      simp [parser, hw, hlet, hswitch, hif, hwhile, hreturn]

end Stmt

namespace Global

variable {expr : Parser Expr} {E : Rule Expr} {s : Input}

theorem list_reads (hE : expr.Fits E) (hs : s.Sized) (h : s.sees "LIST" = true) :
    Reads (listParser expr) (Declared E) s := by
  apply Reads.of_seen hs h
  intro t ht
  apply Fits.follows
  apply (word_fits .identifier).bind
  intro n name hn
  apply (typeAnnotation_fits (punctuation_viable ":" (by simp))).bind
  intro ts typeName hts
  apply (expect_fits (punctuation_viable "=" (by simp))).bind
  intro e o he
  apply (expect_fits (punctuation_viable "[" (by simp))).bind
  intro b bracket hb
  apply (commaList_fits hE).bind
  intro vs elements hvs
  apply (expect_fits (punctuation_viable "]" (by simp))).bind
  intro c o' hc
  apply fits_pure
  simpa [Rule.after] using Declared.list (.mk ht) hn hts he hb hvs hc

theorem mutable_reads (hE : expr.Follows E) (hs : s.Sized) (h : s.sees "VAR" = true) :
    Reads (mutableParser expr) (Declared E) s := by
  apply Reads.of_seen hs h
  intro t ht
  apply Fits.follows
  apply (word_fits .identifier).bind
  intro n name hn
  apply (typeAnnotation_fits (punctuation_viable ":" (by simp))).bind
  intro ts typeName hts
  apply (optional_fits hE).bind
  intro vs value hvs
  apply fits_pure
  simpa [Rule.after] using Declared.mutable (.mk ht) hn hts hvs

theorem immutable_reads (hE : expr.Fits E) (hs : s.Sized) (h : s.sees "VAL" = true) :
    Reads (immutableParser expr) (Declared E) s := by
  apply Reads.of_seen hs h
  intro t ht
  apply Fits.follows
  apply (word_fits .identifier).bind
  intro n name hn
  apply (typeAnnotation_fits (punctuation_viable ":" (by simp))).bind
  intro ts typeName hts
  apply (expect_fits (punctuation_viable "=" (by simp))).bind
  intro e o he
  apply hE.bind
  intro vs value hvs
  apply fits_pure
  simpa [Rule.after] using Declared.immutable (.mk ht) hn hts he hvs

theorem closed_reads {p : Parser Global} (hs : s.Sized) (h : Reads p (Declared E) s) :
    Reads (p >>= fun decl => expect ";" >>= fun _ => pure decl) (Rules E) s := by
  apply Reads.bind hs h
  · intro ts rest decl hts hdecl
    refine ((expect_fits (punctuation_viable ";" (by simp))).follows.bind ?_) _ (hs.move hts)
    intro c o hc
    apply fits_pure
    simpa [Rule.after] using Rules.mk hdecl hc
  · intro ts decl hdecl
    obtain ⟨vs, o, hvs, hword⟩ := punctuation_viable ";" (by simp)
    exact ⟨vs, decl, hvs, .mk hdecl hword⟩

theorem parser_reads {depth : Nat} (hs : s.Sized) (h : s.seesAny Program.globalWords = true) :
    Reads (parser (depth + 2)) (Rules (Expr.Within (depth + 2))) s := by
  have hE : (Expr.parser (depth + 2)).Fits (Expr.Within (depth + 2)) :=
    ⟨Expr.parser_follows (depth + 2), Expr.within_viable depth⟩
  apply reads_ite_sees hs
  · intro hlist
    exact closed_reads hs (list_reads hE hs hlist)
  · intro hlist
    apply reads_ite_sees hs
    · intro hvar
      exact closed_reads hs (mutable_reads hE.follows hs hvar)
    · intro hvar
      apply closed_reads hs
      apply immutable_reads hE hs
      simpa [Input.seesAny, Program.globalWords, hlist, hvar] using h

end Global

namespace Function

theorem parameterParser_follows : parameterParser.Follows Parameter := by
  apply (word_fits .identifier).follows.bind
  intro n name hn
  apply (typeAnnotation_fits (punctuation_viable ":" (by simp))).bind
  intro ts typeName hts
  apply fits_pure
  simpa [Rule.after] using Parameter.mk hn hts

theorem parser_reads {depth : Nat} {s : Input} (hs : s.Sized) (h : s.sees "FUN" = true) :
    Reads (parser depth) (Rules (Stmt.Within depth)) s := by
  apply Reads.of_seen hs h
  intro t ht
  apply Fits.follows
  apply (word_fits .identifier).bind
  intro n name hn
  apply (expect_fits (punctuation_viable "(" (by simp))).bind
  intro b o hb
  apply (listUpTo_fits (punctuation_viable ")" (by simp)) parameterParser_follows).bind
  intro ps parameters hps
  apply (optional_fits (word_fits .typeName).follows).bind
  intro ts returnType hts
  apply (expect_fits do_viable).bind
  intro d o' hd
  apply (Stmt.block_fits _ (Stmt.parser_follows depth) fun _ _ => Stmt.Within.ne_nil).bind
  intro bs body hbs
  apply (expect_fits end_viable).bind
  intro c o'' hc
  apply fits_pure
  simpa [Rule.after] using Rules.mk (.mk ht) hn hb hps hts hd hbs hc

end Function

namespace Program

theorem globals_fits (depth : Nat) :
    (many (·.seesAny globalWords) (Global.parser (depth + 2))).Fits
      (Many (Global.Rules (Expr.Within (depth + 2)))) := by
  apply many_fits (Input.looksAhead_seesAny globalWords)
  · intro s hs h
    exact Global.parser_reads hs h
  · intro ts g hg
    cases hg with
    | mk hdecl hc => simp [hc.ne_nil]

theorem functions_fits (depth : Nat) :
    (many (·.sees "FUN") (Function.parser depth)).Fits
      (Many (Function.Rules (Stmt.Within depth))) := by
  apply many_fits (Input.looksAhead_sees "FUN")
  · intro s hs h
    exact Function.parser_reads hs h
  · intro ts f hf
    cases hf with
    | mk hw _ _ _ _ _ _ _ => simp [hw.ne_nil]

/-- Behind the last function there is nothing, and a declaration of a global there is an error of
its own. -/
def finish (p : Program) : Parser Program := do
  let s ← get
  if s.seesAny globalWords then throw ⟨.lateGlobal, some s.here⟩
  else if !s.tokens.isEmpty then expected .definition
  else return p

theorem finish_of_late {p : Program} {s : Input} (h : s.seesAny globalWords = true) :
    finish p s = .error ⟨.lateGlobal, some s.here⟩ := by
  have hget : (get : Parser Input) s = .ok (s, s) := rfl
  unfold finish
  rw [bind_ok hget, if_pos h]
  rfl

theorem finish_of_more {p : Program} {s : Input} (h : s.seesAny globalWords = false)
    (hne : s.tokens ≠ []) : finish p s = expected .definition s := by
  have hget : (get : Parser Input) s = .ok (s, s) := rfl
  unfold finish
  rw [bind_ok hget, h]
  simp [hne]

theorem finish_of_nil {p : Program} {s : Input} (h : s.tokens = []) : finish p s = .ok (p, s) := by
  have hget : (get : Parser Input) s = .ok (s, s) := rfl
  have hsees : s.seesAny globalWords = false := by
    simp [Input.seesAny, Input.sees, h]
  unfold finish
  rw [bind_ok hget, hsees]
  simp [h]
  rfl

theorem finish_fits {R : Rule Program} {p : Program} (h : R [] p) : (finish p).Fits R := by
  have hviable : R.Viable := ⟨[], p, by simp, h⟩
  refine ⟨?_, hviable⟩
  intro s hs
  cases hlate : s.seesAny globalWords with
  | true =>
    apply Reads.refuses (List.nil_append _).symm (finish_of_late hlate) .lateGlobal hviable
    intro x hx s' rest _ hs'
    have hhead : s'.tokens.head? = s.tokens.head? := by
      rw [hs', Option.mem_def.1 hx]
      rfl
    have hlate' := (Input.looksAhead_seesAny globalWords s' s hhead).trans hlate
    rw [finish_of_late hlate']
    cases hts : s.tokens with
    | nil => simp [hts] at hx
    | cons t ts =>
      obtain rfl : t = x := by simpa [hts] using hx
      simp [Input.here, hts, hs']
  | false =>
    by_cases hne : s.tokens = []
    · apply Reads.takes (List.nil_append _).symm h
      intro s' rest _ hs' hhead
      have hrest : rest = [] := by simpa [hne] using hhead
      subst hrest
      have hnil : s'.tokens = [] := hs'
      rw [finish_of_nil hnil, Input.move_eq hnil]
    · apply Reads.congr hs _ (reads_expected .definition hviable s)
      intro s' _ hhead
      apply finish_of_more ((Input.looksAhead_seesAny globalWords s' s hhead).trans hlate)
      intro hnil
      rw [hnil] at hhead
      exact hne (by simpa using hhead.symm)

theorem parser_fits (depth : Nat) : (parser (depth + 2)).Fits (Within (depth + 2)) := by
  apply (globals_fits depth).bind
  intro gs globals hgs
  apply (functions_fits (depth + 2)).bind
  intro fs functions hfs
  apply finish_fits
  simpa [Rule.after, Within] using Rules.mk hgs hfs

end Program

end PlcLang
