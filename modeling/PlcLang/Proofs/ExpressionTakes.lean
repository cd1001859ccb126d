import PlcLang.Proofs.ParserTakes

namespace PlcLang

open Rule PlcLang.Parser

namespace Expr

/-- A token that does not go on with a chain of operators up to the level. -/
def Ends (level : Nat) (next : Option Token) : Prop :=
  ∀ t ∈ next, t.text ≠ "(" ∧ t.text ≠ "[" ∧ level < (BinOp.ofSymbol t.text).level

theorem Ends.mono {level level' : Nat} {next : Option Token} (h : Ends level next)
    (hle : level' ≤ level) : Ends level' next := by
  intro t ht
  obtain ⟨hopen, hbracket, hlt⟩ := h t ht
  exact ⟨hopen, hbracket, by omega⟩

def followWords : List String := [")", "]", ",", ";", "=", ":", "DO", "CASE", "DEFAULT", "END"]

theorem ends_of_word {t : Token} (h : t.text ∈ followWords) : Ends 4 (some t) := by
  have hwords : ∀ w ∈ followWords, w ≠ "(" ∧ w ≠ "[" ∧ 4 < (BinOp.ofSymbol w).level := by decide
  intro t' ht'
  obtain rfl := Option.some.inj ht'
  exact hwords _ h

theorem ofSymbol_symbol {op : BinOp} (h : op.level < 5) : BinOp.ofSymbol op.symbol = op := by
  cases op with
  | other s => simp [BinOp.level] at h
  | _ => rfl

theorem ends_of_op {t : Token} {op : BinOp} {level : Nat} (ht : t.text = op.symbol)
    (hop : op.level < 5) (hlevel : level < op.level) : Ends level (some t) := by
  intro t' ht'
  obtain rfl := Option.some.inj ht'
  have hsymbol : op.symbol ≠ "(" ∧ op.symbol ≠ "[" := by
    cases op with
    | other s => simp [BinOp.level] at hop
    | _ => decide
  rw [ht, ofSymbol_symbol hop]
  exact ⟨hsymbol.1, hsymbol.2, hlevel⟩

theorem Primary.startsExpr {E : Rule Expr} {ts : List Token} {e : Expr} (h : Primary E ts e) :
    ∃ t us, ts = t :: us ∧ t.StartsExpr := by
  cases h with
  | literal hv => exact ⟨_, _, rfl, .inl ⟨_, hv⟩⟩
  | group hw _ _ =>
    cases hw with
    | mk ht => exact ⟨_, _, rfl, .inr (.inl ht)⟩
  | list hw _ =>
    cases hw with
    | mk ht => exact ⟨_, _, rfl, .inr (.inr (.inl ht))⟩
  | call ht _ _ | element ht _ _ _ | access ht => exact ⟨_, _, rfl, .inr (.inr (.inr ht))⟩

theorem Chain.startsExpr {level : Nat} {G : Rule Expr}
    (hG : ∀ ts e, G ts e → ∃ t us, ts = t :: us ∧ t.StartsExpr) {ts : List Token} {e : Expr}
    (h : Chain level G ts e) : ∃ t us, ts = t :: us ∧ t.StartsExpr := by
  induction h with
  | operand he => exact hG _ _ he
  | binary _ _ _ _ ih =>
    obtain ⟨t, us, rfl, ht⟩ := ih
    exact ⟨t, _, rfl, ht⟩

theorem Within.startsExpr {depth : Nat} {ts : List Token} {e : Expr} (h : Within depth ts e) :
    ∃ t us, ts = t :: us ∧ t.StartsExpr := by
  match depth, h with
  | depth + 2, h =>
    exact Chain.startsExpr (fun _ _ => Chain.startsExpr fun _ _ => Chain.startsExpr fun _ _ =>
      Chain.startsExpr fun _ _ => Primary.startsExpr) h

/-- The parser takes what the rule derives in front of a token that ends it. -/
def Complete (p : Parser Expr) (R : Rule Expr) (level : Nat) : Prop :=
  ∀ ts e next, Lexed ts → R ts e → Ends level next → p.Takes ts e next

section Chains

variable {ops : List BinOp} {operand : Parser Expr} {level : Nat} {G : Rule Expr}

/-- The parser of a chain gets to the end of what the rule derives, with the tree in hand, and goes
on from there. -/
theorem chain_arrives (hops : ∀ op, ops.contains op = true ↔ op.level = level + 1) (hlt : level < 4)
    (hfollows : operand.Follows G) (hG : Complete operand G level) {ts : List Token} {e : Expr}
    (h : Chain (level + 1) G ts e) (hts : Lexed ts) {s : Input} {rest : List Token} (hs : s.Sized)
    (hs' : s.tokens = ts ++ rest) (hnext : Ends level rest.head?) :
    chain ops operand s = chainRest ops operand e (s.move rest) := by
  induction h generalizing rest with
  | operand he => rw [chain_eq, bind_ok (hG _ _ _ hts he hnext s rest hs hs' rfl)]
  | @binary ts w us o op left right hleft hlevel hw hright ih =>
    cases hw with
    | @mk t ht =>
      have hs₁ : s.tokens = ts ++ (t :: us ++ rest) := by simpa using hs'
      simp only [Lexed.append_iff] at hts
      have hop : BinOp.ofSymbol t.text = op := by rw [ht, ofSymbol_symbol (by omega)]
      have hcontains : ops.contains (BinOp.ofSymbol t.text) = true := by rw [hop, hops, hlevel]
      rw [ih hts.1.1 hs₁ (ends_of_op ht (by omega) (by omega)),
        chainRest_of_op hfollows (hs.move hs₁) rfl hcontains,
        bind_ok (takes_expect (t := t) rfl _ _ (us ++ rest) (hs.move hs₁) rfl rfl)]
      have hs₂ : s.tokens = (ts ++ [t]) ++ (us ++ rest) := by simpa using hs'
      have hright' := hG us right _ hts.2 hright hnext _ rest (hs.move hs₂) rfl rfl
      simp only [Input.move_move] at hright' ⊢
      rw [bind_ok hright', hop]

theorem chain_complete (hops : ∀ op, ops.contains op = true ↔ op.level = level + 1)
    (hlt : level < 4) (hfollows : operand.Follows G) (hG : Complete operand G level) :
    Complete (chain ops operand) (Chain (level + 1) G) (level + 1) := by
  intro ts e next hts h hnext s rest hs hs' hhead
  subst hhead
  rw [chain_arrives hops hlt hfollows hG h hts hs hs' (hnext.mono (by omega))]
  apply chainRest_of_stop
  intro t ht
  obtain ⟨_, _, hlevel⟩ := hnext t ht
  cases hcontains : ops.contains (BinOp.ofSymbol t.text) with
  | false => rfl
  | true =>
    have heq := (hops _).1 hcontains
    omega

end Chains

section Primaries

variable {inner : Parser Expr} {E : Rule Expr} (hfollows : inner.Follows E)
  (hE : Complete inner E 4) (hstart : ∀ ts e, E ts e → ∃ t us, ts = t :: us ∧ t.StartsExpr)
include hfollows hE hstart

theorem takes_expressions {close : String} {ts : List Token} {es : List Expr}
    (next : Option Token) (hclose : close ∈ [")", "]"]) (hts : Lexed ts) (h : UpTo close E ts es) :
    (listUpTo close inner).Takes ts es next := by
  have hwords : ∀ w ∈ [")", "]"], w ∈ followWords ∧ w ≠ "," ∧ w ∈ stopWords := by decide
  obtain ⟨hfollow, hne, hstop⟩ := hwords close hclose
  apply takes_listUpTo hfollows hE _ _ hne _ hts h
  · intro t ht
    exact ends_of_word (by rw [ht]; decide)
  · intro t ht
    exact ends_of_word (ht ▸ hfollow)
  · intro ts e hts he
    obtain ⟨t, us, rfl, ht⟩ := hstart ts e he
    refine ⟨t, us, rfl, ?_⟩
    intro heq
    exact ht.not_stop (Lexed.cons_iff.1 hts).1 (heq ▸ hstop)

omit hfollows hstart in
theorem takes_closing {close : String} {ts w : List Token} {o : Nat} {e : Expr}
    (make : Expr → Expr) (next : Option Token) (hclose : close ∈ [")", "]"]) (hts : Lexed ts)
    (h : E ts e) (hw : Word close w o) :
    (inner >>= fun e => expect close >>= fun _ => pure (make e)).Takes (ts ++ w) (make e) next := by
  have hwords : ∀ w ∈ [")", "]"], w ∈ followWords := by decide
  cases hw with
  | @mk t ht =>
    have hinner := hE ts e (some t) hts h (ends_of_word (ht ▸ hwords close hclose))
    exact Takes.bind hinner ((takes_expect ht next).map fun _ => make e)

theorem takes_named_call {info : Info} {name : String} {w ts : List Token} {o : Nat}
    {arguments : List Expr} {next : Option Token} (hts : Lexed ts) (hw : Word "(" w o)
    (h : UpTo ")" E ts arguments) :
    (named inner info name).Takes (w ++ ts) (.call info name arguments none) next := by
  cases hw with
  | @mk t ht =>
    have hlist := takes_expressions hfollows hE hstart next (by simp) hts h
    have htakes : (expect "(" >>= fun _ => listUpTo ")" inner >>= fun arguments =>
        pure (Expr.call info name arguments none)).Takes ([t] ++ ts)
        (.call info name arguments none) next := (takes_expect ht _).bind (hlist.map _)
    apply htakes.congr
    intro s _ hhead
    have hhead' : s.tokens.head? = some t := hhead
    have hsees : s.sees "(" = true := by
      rw [Input.sees_of_head hhead', ht]
      rfl
    rw [named_eq, if_pos hsees]

omit hfollows hstart in
theorem takes_named_element {info : Info} {name : String} {w ts w' : List Token} {o o' : Nat}
    {index : Expr} {next : Option Token} (hts : Lexed ts) (hw : Word "[" w o) (h : E ts index)
    (hw' : Word "]" w' o') :
    (named inner info name).Takes (w ++ (ts ++ w')) (.element info name index none) next := by
  cases hw with
  | @mk t ht =>
    have hclosing := takes_closing hE (fun e => .element info name e none) next (by simp)
      hts h hw'
    have htakes : (expect "[" >>= fun _ => inner >>= fun index => expect "]" >>= fun _ =>
        pure (Expr.element info name index none)).Takes ([t] ++ (ts ++ w'))
        (.element info name index none) next := (takes_expect ht _).bind hclosing
    apply htakes.congr
    intro s _ hhead
    have hhead' : s.tokens.head? = some t := hhead
    have hopen : ¬ s.sees "(" = true := by
      rw [Input.sees_of_head hhead', ht]
      decide
    have hsees : s.sees "[" = true := by
      rw [Input.sees_of_head hhead', ht]
      rfl
    rw [named_eq, if_neg hopen, if_pos hsees]

omit hfollows hE hstart in
theorem takes_named_access {info : Info} {name : String} {next : Option Token}
    (hnext : Ends 0 next) : (named inner info name).Takes [] (.access info name none) next := by
  apply Takes.congr _ (takes_pure _ next)
  intro s _ hhead
  have hhead' : s.tokens.head? = next := hhead
  have hopen : ¬ s.sees "(" = true := by
    rw [Input.sees_eq_false fun t ht => (hnext t (hhead' ▸ ht)).1]
    decide
  have hbracket : ¬ s.sees "[" = true := by
    rw [Input.sees_eq_false fun t ht => (hnext t (hhead' ▸ ht)).2.1]
    decide
  rw [named_eq, if_neg hopen, if_neg hbracket]
  rfl

omit hfollows hE hstart in
theorem takes_primary {t : Token} {us : List Token} {e : Expr} {next : Option Token}
    {q : Parser Expr} (hq : ∀ s rest, s.tokens = t :: rest → primary inner s = q s)
    (h : q.Takes (t :: us) e next) : (primary inner).Takes (t :: us) e next := by
  apply h.congr
  intro s _ hhead
  cases hs : s.tokens with
  | nil => simp [hs] at hhead
  | cons t' rest =>
    obtain rfl : t' = t := by simpa [hs] using hhead
    exact hq s rest hs

omit hfollows hE hstart in
theorem takes_primary_name {t : Token} {us : List Token} {e : Expr} {next : Option Token}
    (hwf : t.WellFormed) (ht : t.isName = true)
    (h : (named inner ⟨t.offset, none⟩ t.text).Takes us e next) :
    (primary inner).Takes (t :: us) e next := by
  have hbrackets : t.text ≠ "(" ∧ t.text ≠ "[" := by
    have hopens : ¬ TokenKind.identifier.Opens '(' ∧ ¬ TokenKind.identifier.Opens '[' := by decide
    have hkind := (Token.isName_iff.1 ht).1
    constructor
    · intro heq
      exact hwf.kind_of_opens heq rfl hopens.1 hkind
    · intro heq
      exact hwf.kind_of_opens heq rfl hopens.2 hkind
  apply takes_primary (q := word .identifier >>= fun _ => named inner ⟨t.offset, none⟩ t.text)
  · intro s rest hs
    rw [primary_eq hs, literal?_of_isName ht]
    exact (if_neg hbrackets.1).trans ((if_neg hbrackets.2).trans (if_pos ht))
  · exact (takes_word .identifier ht _).bind h

theorem primary_complete : Complete (primary inner) (Primary E) 0 := by
  intro ts e next hts h hnext
  cases h with
  | @literal t value hv =>
    have hwf := (Lexed.cons_iff.1 hts).1
    apply takes_primary (q := expect t.text >>= fun o => pure (.literal ⟨o, none⟩ value))
    · intro s rest hs
      rw [primary_eq hs, literal?_of_spells hwf hv]
    · exact (takes_expect rfl next).map _
  | group hw he hw' =>
    simp only [Lexed.append_iff] at hts
    rw [List.append_assoc]
    cases hw with
    | @mk t ht =>
      have hwf := (Lexed.cons_iff.1 hts.1.1).1
      have hclosing := takes_closing hE (.group ⟨t.offset, none⟩) next (by simp)
        hts.1.2 he hw'
      apply takes_primary (q := expect "(" >>= fun o => inner >>= fun e => expect ")" >>= fun _ =>
        pure (Expr.group ⟨o, none⟩ e)) _ ((takes_expect ht _).bind hclosing)
      intro s rest hs
      rw [primary_eq hs, literal?_of_bracket hwf (.inl ht)]
      exact if_pos ht
  | list hw helements =>
    simp only [Lexed.append_iff] at hts
    cases hw with
    | @mk t ht =>
      have hwf := (Lexed.cons_iff.1 hts.1).1
      have hlist := takes_expressions hfollows hE hstart next (by simp) hts.2 helements
      apply takes_primary (q := expect "[" >>= fun o => listUpTo "]" inner >>= fun elements =>
        pure (Expr.list ⟨o, none⟩ elements)) _ ((takes_expect ht _).bind (hlist.map _))
      intro s rest hs
      have hopen : ¬ t.text = "(" := by
        rw [ht]
        decide
      rw [primary_eq hs, literal?_of_bracket hwf (.inr ht)]
      exact (if_neg hopen).trans (if_pos ht)
  | call ht hw harguments =>
    simp only [Lexed.append_iff, Lexed.cons_iff] at hts
    rw [List.append_assoc, List.singleton_append]
    exact takes_primary_name hts.1.1.1 ht (takes_named_call hfollows hE hstart hts.2 hw harguments)
  | element ht hw hindex hw' =>
    simp only [Lexed.append_iff, Lexed.cons_iff] at hts
    rw [List.append_assoc, List.append_assoc, List.singleton_append]
    exact takes_primary_name hts.1.1.1.1 ht (takes_named_element hE hts.1.2 hw hindex hw')
  | access ht => exact takes_primary_name (Lexed.cons_iff.1 hts).1 ht (takes_named_access hnext)

end Primaries

theorem parser_complete : ∀ depth, Complete (parser depth) (Within depth) 4
  | 0 => fun _ _ _ _ h _ => h.elim
  | 1 => fun _ _ _ _ h _ => h.elim
  | depth + 2 => by
    have hfollows := parser_follows depth
    have h₀ := primary_complete hfollows (parser_complete depth) fun _ _ => Within.startsExpr
    have f₀ := primary_follows hfollows
    have h₁ := chain_complete multiplicativeOps_contains (by omega) f₀ h₀
    have f₁ := chain_follows multiplicativeOps_contains f₀
    have h₂ := chain_complete additiveOps_contains (by omega) f₁ h₁
    have f₂ := chain_follows additiveOps_contains f₁
    have h₃ := chain_complete comparisonOps_contains (by omega) f₂ h₂
    have f₃ := chain_follows comparisonOps_contains f₂
    exact chain_complete logicalOps_contains (by omega) f₃ h₃

end Expr

end PlcLang
