import PlcLang.Proofs.LexerExact
import PlcLang.Proofs.ParserReads

namespace PlcLang

open Rule PlcLang.Parser

theorem Rule.word_viable (kind : TokenKind) {w : String} (h : Token.WellFormed ⟨kind, w, 0⟩) :
    (Word w).Viable :=
  ⟨[⟨kind, w, 0⟩], 0, by simpa using h, .mk rfl⟩

theorem Rule.punctuation_viable : ∀ w ∈ [":", ";", "=", "(", ")", "[", "]"], (Word w).Viable := by
  have hwf : ∀ w ∈ [":", ";", "=", "(", ")", "[", "]"], Token.WellFormed ⟨.operator, w, 0⟩ := by
    decide
  intro w hw
  exact word_viable .operator (hwf w hw)

theorem Rule.do_viable : (Word "DO").Viable := word_viable .identifier (by decide)

theorem Rule.end_viable : (Word "END").Viable := word_viable .identifier (by decide)

theorem BinOp.symbol_ofSymbol (s : String) : (BinOp.ofSymbol s).symbol = s := by
  unfold BinOp.ofSymbol
  split <;> rfl

namespace Expr

section Chains

variable {ops : List BinOp} {operand : Parser Expr} {level : Nat} {G : Rule Expr}

def chainRest (ops : List BinOp) (operand : Parser Expr) (left : Expr) : Parser Expr := fun s =>
  chainFrom ops operand s.total left s

theorem chain_eq (ops : List BinOp) (operand : Parser Expr) :
    chain ops operand = operand >>= chainRest ops operand := by
  funext s
  cases h : operand s with
  | ok r => simp [chain, h, bind_ok h, chainRest]
  | error e => simp [chain, h, bind_error h]

/-- More rounds than tokens make no difference. -/
theorem chainFrom_congr (hG : operand.Follows G) {n m : Nat} {left : Expr} {s : Input}
    (hs : s.Sized) (hn : s.tokens.length ≤ n) (hm : s.tokens.length ≤ m) :
    chainFrom ops operand n left s = chainFrom ops operand m left s := by
  induction n generalizing m left s with
  | zero =>
    have hnil : s.tokens = [] := List.length_eq_zero_iff.1 (by omega)
    cases m <;> simp [chainFrom, hnil]
  | succ n ih =>
    cases m with
    | zero =>
      have hnil : s.tokens = [] := List.length_eq_zero_iff.1 (by omega)
      simp [chainFrom, hnil]
    | succ m =>
      unfold chainFrom
      cases hts : s.tokens with
      | nil => rfl
      | cons t rest =>
        simp only [hts, List.length_cons] at hn hm
        simp only []
        split
        · have hs₁ : s.next.Sized := by
            rw [Input.next_eq_move hts]
            have hts' : s.tokens = [t] ++ rest := hts
            exact hs.move hts'
          cases hop : operand s.next with
          | error e => rfl
          | ok r =>
            obtain ⟨us, rest', hus, _, hr⟩ := (hG s.next hs₁).of_ok hs₁ hop
            have hlen : rest'.length ≤ rest.length := by
              have : rest = us ++ rest' := by simpa [Input.next, hts] using hus
              rw [this, List.length_append]
              omega
            simp only []
            rw [hr]
            apply ih (hs₁.move hus)
            · simp only [Input.move_tokens]
              omega
            · simp only [Input.move_tokens]
              omega
        · rfl

theorem chainRest_of_op (hG : operand.Follows G) {left : Expr} {s : Input} {t : Token}
    {rest : List Token} (hs : s.Sized) (hts : s.tokens = t :: rest)
    (hop : ops.contains (.ofSymbol t.text) = true) :
    chainRest ops operand left s =
      (expect t.text >>= fun _ => operand >>= fun right =>
        chainRest ops operand (.binary ⟨left.offset, none⟩ (.ofSymbol t.text) left right)) s := by
  have hts' : s.tokens = [t] ++ rest := hts
  have hs₁ := hs.move hts'
  rw [bind_ok (takes_expect rfl _ s rest hs hts' rfl)]
  have hpos : ∃ n, s.total = n + 1 := by
    have hle : s.tokens.length ≤ s.total := hs
    rw [hts, List.length_cons] at hle
    exact ⟨s.total - 1, by omega⟩
  obtain ⟨n, hn⟩ := hpos
  unfold chainRest
  rw [hn, chainFrom]
  simp only [hts, hop, if_true, Input.next_eq_move hts]
  cases h : operand (s.move rest) with
  | error e => rw [bind_error h]
  | ok r =>
    obtain ⟨us, rest', hus, _, hr⟩ := (hG _ hs₁).of_ok hs₁ h
    rw [bind_of_ok h]
    have hlen : rest'.length ≤ n := by
      have hle : s.tokens.length ≤ s.total := hs
      have hrest : rest = us ++ rest' := hus
      rw [hts, hrest, List.length_cons, List.length_append] at hle
      omega
    simp only [hr]
    apply chainFrom_congr hG (hs₁.move hus)
    · simpa using hlen
    · simp only [Input.move_tokens, Input.move_total]
      omega

theorem chainRest_of_stop {left : Expr} {s : Input}
    (h : ∀ t ∈ s.tokens.head?, ops.contains (.ofSymbol t.text) = false) :
    chainRest ops operand left s = .ok (left, s) := by
  unfold chainRest
  cases hn : s.total with
  | zero => rfl
  | succ n =>
    unfold chainFrom
    cases hts : s.tokens with
    | nil => rfl
    | cons t rest =>
      have hop := h t (by simp [hts])
      simp only [hop]
      rfl

theorem chainRest_reads (hops : ∀ op, ops.contains op = true ↔ op.level = level)
    (hG : operand.Follows G) {ts₀ : List Token} {left : Expr} (hleft : Chain level G ts₀ left)
    {s : Input} (hs : s.Sized) :
    Reads (chainRest ops operand left) ((Chain level G).after ts₀) s := by
  induction hn : s.tokens.length using Nat.strongRecOn generalizing ts₀ left s with
  | ind n ih =>
    by_cases h : ∃ t rest, s.tokens = t :: rest ∧ ops.contains (.ofSymbol t.text) = true
    · obtain ⟨t, rest, hts, hop⟩ := h
      have hts' : s.tokens = [t] ++ rest := hts
      have hbinary : ∀ us right, G us right → Chain level G (ts₀ ++ [t] ++ us)
          (.binary ⟨left.offset, none⟩ (.ofSymbol t.text) left right) := by
        intro us right hright
        have hword : Word (BinOp.ofSymbol t.text).symbol [t] t.offset :=
          .mk (BinOp.symbol_ofSymbol t.text).symm
        exact .binary hleft ((hops _).1 hop) hword hright
      have hread : Reads (expect t.text >>= fun _ => operand >>= fun right =>
          chainRest ops operand (.binary ⟨left.offset, none⟩ (.ofSymbol t.text) left right))
          ((Chain level G).after ts₀) s := by
        apply Reads.bind_of_takes hs hts' (takes_expect rfl _)
        have hs₁ := hs.move hts'
        apply Reads.bind hs₁ (hG _ hs₁)
        · intro us rest' right hus hright
          have hlt : rest'.length < n := by
            have hrest : rest = us ++ rest' := hus
            rw [← hn, hts, hrest, List.length_cons, List.length_append]
            omega
          simpa using ih _ hlt (hbinary us right hright) (hs₁.move hus) rfl
        · intro us right hright
          exact ⟨[], _, by simp, by simpa [Rule.after] using hbinary us right hright⟩
      apply Reads.congr hs _ hread
      intro s' hs' hhead
      cases hs'' : s'.tokens with
      | nil => simp [hts, hs''] at hhead
      | cons t' rest' =>
        obtain rfl : t' = t := by simpa [hts, hs''] using hhead
        exact chainRest_of_op hG hs' hs'' hop
    · have hstop : ∀ t ∈ s.tokens.head?, ops.contains (.ofSymbol t.text) = false := by
        intro t ht
        cases hts : s.tokens with
        | nil => simp [hts] at ht
        | cons t' rest =>
          obtain rfl : t' = t := by simpa [hts] using ht
          have hno := fun hop => h ⟨t', rest, hts, hop⟩
          simpa using hno
      have hread : Reads (pure left) ((Chain level G).after ts₀) s := by
        apply reads_pure
        simpa [Rule.after] using hleft
      apply Reads.congr hs _ hread
      intro s' _ hhead
      exact chainRest_of_stop (by rwa [hhead])

theorem chain_follows (hops : ∀ op, ops.contains op = true ↔ op.level = level)
    (hG : operand.Follows G) : (chain ops operand).Follows (Chain level G) := by
  rw [chain_eq]
  apply hG.bind
  intro ts e he
  refine ⟨fun s hs => chainRest_reads hops hG (.operand he) hs, [], e, by simp, ?_⟩
  simpa [Rule.after] using Chain.operand he

end Chains

theorem numeral_eq_ok {text : String} {make : Decimal → Literal} {value : Literal}
    (h : numeral text make = .ok value) : ∃ d, Decimal.ofText? text = some d ∧ make d = value := by
  unfold numeral at h
  split at h
  · rename_i d hd
    exact ⟨d, hd, Except.ok.inj h⟩
  · cases h

theorem unescaped_eq_ok {text : String} {make : String → Literal} {value : Literal}
    (h : unescaped text make = .ok value) :
    ∃ v, Escape.decode (literalBody text) = some v ∧ make v = value := by
  unfold unescaped at h
  split at h
  · rename_i v hv
    exact ⟨v, hv, Except.ok.inj h⟩
  · cases h

theorem spells_of_literal? {t : Token} {value : Literal} (h : literal? t = some (.ok value)) :
    value.Spells t := by
  unfold literal? at h
  split at h
  · rename_i htext
    simp only [Option.some.injEq, Except.ok.injEq] at h
    exact h ▸ .nil (by simpa using htext)
  split at h
  · rename_i htext
    simp only [Option.some.injEq, Except.ok.injEq] at h
    exact h ▸ .true (by simpa using htext)
  split at h
  · rename_i htext
    simp only [Option.some.injEq, Except.ok.injEq] at h
    exact h ▸ .false (by simpa using htext)
  split at h
  · rename_i hkind
    obtain ⟨d, hd, rfl⟩ := numeral_eq_ok (Option.some.inj h)
    exact .integer hkind hd
  · rename_i hkind
    obtain ⟨d, hd, rfl⟩ := numeral_eq_ok (Option.some.inj h)
    exact .decimal hkind hd
  · rename_i hkind
    obtain ⟨v, hv, rfl⟩ := unescaped_eq_ok (Option.some.inj h)
    exact .character hkind hv
  · rename_i hkind
    obtain ⟨v, hv, rfl⟩ := unescaped_eq_ok (Option.some.inj h)
    exact .string hkind hv
  · cases h

theorem literal?_nowhere {t : Token} {e : ParseError} (h : literal? t = some (.error e)) :
    ∃ cause, (cause = .badNumber ∨ cause = .badEscape) ∧ e = ⟨cause, none⟩ := by
  unfold literal? numeral unescaped at h
  grind

section Primaries

variable {inner : Parser Expr} {E : Rule Expr}

theorem closing_follows {R : Rule Expr} {close : String} {make : Expr → Expr}
    (hclose : (Word close).Viable) (hE : inner.Follows E)
    (hR : ∀ ts e us o, E ts e → Word close us o → R (ts ++ us) (make e)) :
    (inner >>= fun e => expect close >>= fun _ => pure (make e)).Follows R := by
  apply hE.bind
  intro ts e he
  apply (expect_fits hclose).bind
  intro us o ho
  apply fits_pure
  simpa [Rule.after] using hR ts e us o he ho

theorem map_eq_bind {α β : Type} (p : Parser α) (f : α → β) (s : Input) :
    (p >>= fun a => pure (f a)) s = (p s).map fun (a, s) => (f a, s) := by
  cases h : p s with
  | error e => simp [bind_error h, Except.map]
  | ok r =>
    rw [bind_of_ok h]
    rfl

theorem named_eq (info : Info) (name : String) (s : Input) :
    named inner info name s =
      if s.sees "(" then
        (expect "(" >>= fun _ => listUpTo ")" inner >>= fun arguments =>
          pure (Expr.call info name arguments none)) s
      else if s.sees "[" then
        (expect "[" >>= fun _ => inner >>= fun index => expect "]" >>= fun _ =>
          pure (Expr.element info name index none)) s
      else .ok (.access info name none, s) := by
  unfold named
  split
  · rename_i h
    rw [bind_ok (expect_of_sees h), map_eq_bind]
    cases listUpTo ")" inner s.next <;> rfl
  split
  · rename_i h
    rw [bind_ok (expect_of_sees h)]
    cases hi : inner s.next with
    | error e => rw [bind_error hi]
    | ok r =>
      rw [bind_of_ok hi, map_eq_bind]
  · rfl

theorem named_fits (hE : inner.Follows E) {t : Token} (ht : t.isName) :
    (named inner ⟨t.offset, none⟩ t.text).Fits ((Primary E).after [t]) := by
  refine ⟨?_, [], _, by simp, .access ht⟩
  intro s hs
  by_cases h : s.sees "(" = true
  · have hread : Reads (expect "(" >>= fun _ => listUpTo ")" inner >>= fun arguments =>
        pure (Expr.call ⟨t.offset, none⟩ t.text arguments none)) ((Primary E).after [t]) s := by
      apply Reads.of_seen hs h
      intro w hw
      apply (listUpTo_fits (punctuation_viable ")" (by simp)) hE).follows.bind
      intro ts arguments hts
      apply fits_pure
      simpa [Rule.after] using Primary.call ht (.mk hw) hts
    apply Reads.congr hs _ hread
    intro s' _ hhead
    have hs' : s'.sees "(" = true := (Input.sees_congr "(" hhead).trans h
    rw [named_eq, if_pos hs']
  by_cases h' : s.sees "[" = true
  · have hread : Reads (expect "[" >>= fun _ => inner >>= fun index => expect "]" >>= fun _ =>
        pure (Expr.element ⟨t.offset, none⟩ t.text index none)) ((Primary E).after [t]) s := by
      apply Reads.of_seen hs h'
      intro w hw
      apply closing_follows (punctuation_viable "]" (by simp)) hE
      intro ts index us o hts hus
      simpa [Rule.after] using Primary.element ht (.mk hw) hts hus
    apply Reads.congr hs _ hread
    intro s' _ hhead
    have hs' : s'.sees "(" = s.sees "(" := Input.sees_congr "(" hhead
    have hs'' : s'.sees "[" = true := (Input.sees_congr "[" hhead).trans h'
    rw [named_eq, hs', if_neg h, if_pos hs'']
  · have hread : Reads (pure (.access ⟨t.offset, none⟩ t.text none)) ((Primary E).after [t]) s :=
      reads_pure (.access ht) s
    apply Reads.congr hs _ hread
    intro s' _ hhead
    have hs' : s'.sees "(" = s.sees "(" := Input.sees_congr "(" hhead
    have hs'' : s'.sees "[" = s.sees "[" := Input.sees_congr "[" hhead
    rw [named_eq, hs', hs'', if_neg h, if_neg h']
    rfl

theorem primary_viable (E : Rule Expr) : (Primary E).Viable := by
  obtain ⟨vs, name, hvs, hname⟩ := name_viable
  cases hname with
  | mk ht => exact ⟨_, _, hvs, .access ht⟩

theorem primary_eq {t : Token} {rest : List Token} {s : Input} (hts : s.tokens = t :: rest) :
    primary inner s =
      match literal? t with
      | some (.ok value) => (expect t.text >>= fun o => pure (.literal ⟨o, none⟩ value)) s
      | some (.error e) => .error e
      | none =>
        if t.text = "(" then
          (expect "(" >>= fun o => inner >>= fun e => expect ")" >>= fun _ =>
            pure (Expr.group ⟨o, none⟩ e)) s
        else if t.text = "[" then
          (expect "[" >>= fun o => listUpTo "]" inner >>= fun elements =>
            pure (Expr.list ⟨o, none⟩ elements)) s
        else if t.isName then
          (word .identifier >>= fun _ => named inner ⟨t.offset, none⟩ t.text) s
        else expected .expression s := by
  have hexpect : ∀ w, t.text = w → expect w s = .ok (t.offset, s.next) := by
    intro w hw
    simp [expect, Input.sees, Input.here, hts, hw]
  unfold primary
  simp only [hts]
  cases literal? t with
  | some r =>
    cases r with
    | error e => rfl
    | ok value =>
      simp only []
      rw [bind_ok (hexpect t.text rfl)]
      rfl
  | none =>
    simp only [beq_iff_eq]
    split
    · rename_i ht
      rw [bind_ok (hexpect "(" ht)]
      cases h : inner s.next with
      | error e => rw [bind_error h]
      | ok r => rw [bind_of_ok h, map_eq_bind]
    split
    · rename_i ht
      rw [bind_ok (hexpect "[" ht), map_eq_bind]
      cases listUpTo "]" inner s.next <;> rfl
    split
    · rename_i ht
      have hword : word .identifier s = .ok (t.text, s.next) := by simp [word, hts, ht]
      rw [bind_ok hword]
    · rfl

theorem primary_reads_cons (hE : inner.Follows E) {s : Input} {t : Token} {rest : List Token}
    (hs : s.Sized) (hts : s.tokens = t :: rest) : Reads (primary inner) (Primary E) s := by
  have hts' : s.tokens = [t] ++ rest := hts
  -- Another input with the same next token is read by the same branch.
  have hsame : ∀ q : Parser Expr, (∀ s' rest', s'.tokens = t :: rest' → primary inner s' = q s') →
      Reads q (Primary E) s → Reads (primary inner) (Primary E) s := by
    intro q hq hread
    apply Reads.congr hs _ hread
    intro s' _ hhead
    cases hs' : s'.tokens with
    | nil => simp [hts, hs'] at hhead
    | cons t' rest' =>
      obtain rfl : t' = t := by simpa [hts, hs'] using hhead
      exact hq s' rest' hs'
  have hsees : ∀ w, t.text = w → s.sees w = true := fun w hw => Input.sees_iff.2 ⟨t, rest, hts, hw⟩
  cases hliteral : literal? t with
  | some r =>
    cases r with
    | error e =>
      apply Reads.unreadable (t := t) (by simp [hts]) hliteral
      rw [primary_eq hts, hliteral]
    | ok value =>
      apply hsame (expect t.text >>= fun o => pure (.literal ⟨o, none⟩ value))
      · intro s' rest' hs'
        rw [primary_eq hs', hliteral]
      · apply Reads.bind_of_takes hs hts' (takes_expect rfl _)
        exact reads_pure (.literal (spells_of_literal? hliteral)) _
  | none =>
    by_cases hopen : t.text = "("
    · apply hsame (expect "(" >>= fun o => inner >>= fun e => expect ")" >>= fun _ =>
        pure (Expr.group ⟨o, none⟩ e))
      · intro s' rest' hs'
        rw [primary_eq hs', hliteral]
        exact if_pos hopen
      · apply Reads.of_seen hs (hsees _ hopen)
        intro w hw
        apply closing_follows (punctuation_viable ")" (by simp)) hE
        intro ts e us o hts hus
        simpa [Rule.after] using Primary.group (.mk hw) hts hus
    by_cases hbracket : t.text = "["
    · apply hsame (expect "[" >>= fun o => listUpTo "]" inner >>= fun elements =>
        pure (Expr.list ⟨o, none⟩ elements))
      · intro s' rest' hs'
        rw [primary_eq hs', hliteral]
        exact (if_neg hopen).trans (if_pos hbracket)
      · apply Reads.of_seen hs (hsees _ hbracket)
        intro w hw
        apply (listUpTo_fits (punctuation_viable "]" (by simp)) hE).follows.bind
        intro us elements hus
        apply fits_pure
        simpa [Rule.after] using Primary.list (.mk hw) hus
    by_cases hname : t.isName
    · apply hsame (word .identifier >>= fun _ => named inner ⟨t.offset, none⟩ t.text)
      · intro s' rest' hs'
        rw [primary_eq hs', hliteral]
        exact (if_neg hopen).trans ((if_neg hbracket).trans (if_pos hname))
      · apply Reads.bind_of_takes hs hts' (takes_word _ hname _)
        exact (named_fits hE hname).follows _ (hs.move hts')
    · apply hsame (expected .expression)
      · intro s' rest' hs'
        rw [primary_eq hs', hliteral]
        exact (if_neg hopen).trans ((if_neg hbracket).trans (if_neg hname))
      · exact reads_expected _ (primary_viable E) s

theorem primary_follows (hE : inner.Follows E) : (primary inner).Follows (Primary E) := by
  intro s hs
  cases hts : s.tokens with
  | cons t rest => exact primary_reads_cons hE hs hts
  | nil =>
    apply Reads.congr hs _ (reads_expected .expression (primary_viable E) s)
    intro s' _ hhead
    have hs' : s'.tokens = [] := by simpa [hts] using hhead
    simp [primary, hs']

end Primaries

theorem logicalOps_contains (op : BinOp) : logicalOps.contains op = true ↔ op.level = 4 := by
  cases op <;> simp [logicalOps, BinOp.level]

theorem comparisonOps_contains (op : BinOp) : comparisonOps.contains op = true ↔ op.level = 3 := by
  cases op <;> simp [comparisonOps, BinOp.level]

theorem additiveOps_contains (op : BinOp) : additiveOps.contains op = true ↔ op.level = 2 := by
  cases op <;> simp [additiveOps, BinOp.level]

theorem multiplicativeOps_contains (op : BinOp) :
    multiplicativeOps.contains op = true ↔ op.level = 1 := by
  cases op <;> simp [multiplicativeOps, BinOp.level]

theorem parser_follows : ∀ depth, (parser depth).Follows (Within depth)
  | 0 => follows_tooDeep _
  | 1 => follows_tooDeep _
  | depth + 2 => by
    apply chain_follows logicalOps_contains
    apply chain_follows comparisonOps_contains
    apply chain_follows additiveOps_contains
    apply chain_follows multiplicativeOps_contains
    exact primary_follows (parser_follows depth)

theorem within_viable (depth : Nat) : (Within (depth + 2)).Viable := by
  obtain ⟨vs, e, hvs, he⟩ := primary_viable (Within depth)
  exact ⟨vs, e, hvs, .operand (.operand (.operand (.operand he)))⟩

end Expr

end PlcLang
