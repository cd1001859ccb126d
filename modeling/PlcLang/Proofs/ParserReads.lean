import PlcLang.Proofs.Grammar

namespace PlcLang

namespace Input

def move (s : Input) (rest : List Token) : Input := { s with tokens := rest }

/-- The bound on the rounds of loops is not below what is left to read. -/
def Sized (s : Input) : Prop := s.tokens.length ≤ s.total

@[simp] theorem move_tokens (s : Input) (rest : List Token) : (s.move rest).tokens = rest := rfl

@[simp] theorem move_total (s : Input) (rest : List Token) : (s.move rest).total = s.total := rfl

@[simp] theorem move_move (s : Input) (ts us : List Token) : (s.move ts).move us = s.move us := rfl

theorem move_eq {s : Input} {ts : List Token} (h : s.tokens = ts) : s.move ts = s := by
  subst h
  rfl

theorem next_eq_move {s : Input} {t : Token} {rest : List Token} (h : s.tokens = t :: rest) :
    s.next = s.move rest := by
  simp [next, move, h]

theorem Sized.move {s : Input} {ts rest : List Token} (hs : s.Sized) (h : s.tokens = ts ++ rest) :
    (s.move rest).Sized := by
  simp only [Sized, h, List.length_append, move_tokens, move_total] at hs ⊢
  omega

theorem sees_iff {s : Input} {text : String} :
    s.sees text = true ↔ ∃ t rest, s.tokens = t :: rest ∧ t.text = text := by
  unfold sees
  cases s.tokens with
  | nil => simp
  | cons t rest => simp

/-- A test that asks the next token only. -/
def LooksAhead (test : Input → Bool) : Prop :=
  ∀ s s' : Input, s.tokens.head? = s'.tokens.head? → test s = test s'

theorem sees_congr (text : String) {s s' : Input} (h : s.tokens.head? = s'.tokens.head?) :
    s.sees text = s'.sees text := by
  unfold sees
  cases hs : s.tokens <;> cases hs' : s'.tokens <;> simp_all

theorem looksAhead_sees (text : String) : LooksAhead (·.sees text) := fun _ _ => sees_congr text

theorem looksAhead_seesAny (texts : List String) : LooksAhead (·.seesAny texts) := by
  intro s s' h
  simp only [seesAny]
  congr 1
  funext text
  exact sees_congr text h

theorem LooksAhead.not {test : Input → Bool} (h : LooksAhead test) :
    LooksAhead (fun s => !test s) := by
  intro s s' hs
  simp only [h s s' hs]

theorem here_eq_of_cons {s : Input} {t : Token} {rest : List Token} (h : s.tokens = t :: rest) :
    s.here = t.offset := by
  simp [here, h]

end Input

namespace Rule

variable {α : Type}

/-- The rule for what is still to come behind the given tokens. -/
def after (R : Rule α) (ts : List Token) : Rule α := fun us a => R (ts ++ us) a

/-- Some list of tokens that a text can have fits. -/
def Viable (R : Rule α) : Prop := ∃ vs a, (∀ v ∈ vs, v.WellFormed) ∧ R vs a

@[simp] theorem after_after (R : Rule α) (ts us : List Token) :
    (R.after ts).after us = R.after (ts ++ us) := by
  funext vs a
  simp [after]

theorem Viable.of_after {R : Rule α} {ts vs : List Token} (h : (R.after (ts ++ vs)).Viable)
    (hvs : ∀ v ∈ vs, v.WellFormed) : (R.after ts).Viable := by
  obtain ⟨ws, a, hws, hR⟩ := h
  refine ⟨vs ++ ws, a, ?_, ?_⟩
  · intro v hv
    rcases List.mem_append.1 hv with hv | hv
    · exact hvs v hv
    · exact hws v hv
  · simpa [after] using hR

end Rule

/-- The error speaks of the next token of the input, or of its end. -/
inductive ParseError.At (s : Input) : ParseError → Prop
  | expected (what : Wanted) : At s ⟨.expected what (s.tokens.head?.map Token.text), some s.here⟩
  | lateGlobal : At s ⟨.lateGlobal, some s.here⟩

namespace Parser

variable {α β : Type}

/-- The parser takes the tokens and gives the result, whatever follows that next token. -/
def Takes (p : Parser α) (ts : List Token) (a : α) (next : Option Token) : Prop :=
  ∀ (s : Input) (rest : List Token), s.Sized → s.tokens = ts ++ rest → rest.head? = next →
    p s = .ok (a, s.move rest)

/-- The parser fails at the token behind the given ones, whatever comes after it. -/
def Refuses (p : Parser α) (ts : List Token) (x : Token) (e : ParseError) : Prop :=
  ∀ (s : Input) (rest : List Token), s.Sized → s.tokens = ts ++ x :: rest → p s = .error e

inductive Reads (p : Parser α) (R : Rule α) (s : Input) : Prop
  | takes {ts rest : List Token} {a : α} : s.tokens = ts ++ rest → R ts a →
      p.Takes ts a rest.head? → Reads p R s
  | deep {offset : Option Nat} : p s = .error ⟨.tooDeep, offset⟩ → Reads p R s
  | unreadable {t : Token} {e : ParseError} : t ∈ s.tokens → Expr.literal? t = some (.error e) →
      p s = .error e → Reads p R s
  | refuses {ts rest : List Token} {e : ParseError} : s.tokens = ts ++ rest → p s = .error e →
      e.At (s.move rest) → (R.after ts).Viable → (∀ x ∈ rest.head?, p.Refuses ts x e) → Reads p R s

def Follows (p : Parser α) (R : Rule α) : Prop := ∀ s : Input, s.Sized → Reads p R s

/-- The rule can be met, so that a parser that fails in front of this one fails too early at the
latest. -/
structure Fits (p : Parser α) (R : Rule α) : Prop where
  follows : p.Follows R
  viable : R.Viable

theorem bind_of_ok {p : Parser α} {f : α → Parser β} {s : Input} {r : α × Input}
    (h : p s = .ok r) : (p >>= f) s = f r.1 r.2 := by
  simp [bind, StateT.bind, h, Except.bind]

theorem bind_ok {p : Parser α} {f : α → Parser β} {s s' : Input} {a : α} (h : p s = .ok (a, s')) :
    (p >>= f) s = f a s' := bind_of_ok h

theorem bind_error {p : Parser α} {f : α → Parser β} {s : Input} {e : ParseError}
    (h : p s = .error e) : (p >>= f) s = .error e := by
  simp [bind, StateT.bind, h, Except.bind]

theorem Takes.bind {p : Parser α} {f : α → Parser β} {ts us : List Token} {a : α} {b : β}
    {next : Option Token} (hp : p.Takes ts a (us.head?.or next)) (hf : (f a).Takes us b next) :
    (p >>= f).Takes (ts ++ us) b next := by
  intro s rest hs h hnext
  rw [List.append_assoc] at h
  have hp' := hp s (us ++ rest) hs h (by rw [List.head?_append, hnext])
  rw [bind_ok hp']
  exact hf _ rest (hs.move h) rfl hnext

theorem takes_pure (a : α) (next : Option Token) : (pure a : Parser α).Takes [] a next := by
  intro s rest _ h _
  rw [Input.move_eq (by simpa using h)]
  rfl

theorem Reads.congr {p q : Parser α} {R : Rule α} {s : Input} (hs : s.Sized)
    (heq : ∀ s' : Input, s'.Sized → s'.tokens.head? = s.tokens.head? → q s' = p s')
    (h : Reads p R s) : Reads q R s := by
  cases h with
  | takes hts hR hp =>
    apply Reads.takes hts hR
    intro s' rest' hs' hts' hnext
    rw [heq s' hs' (by simp [hts, hts', hnext])]
    exact hp s' rest' hs' hts' hnext
  | deep hp => exact .deep ((heq s hs rfl).trans hp)
  | unreadable ht he hp => exact .unreadable ht he ((heq s hs rfl).trans hp)
  | refuses hts hp he hR hx =>
    apply Reads.refuses hts ((heq s hs rfl).trans hp) he hR
    intro x hx' s' rest' hs' hts'
    rw [heq s' hs' (by simp [hts, hts', Option.mem_def.1 hx'])]
    exact hx x hx' s' rest' hs' hts'

theorem Reads.bind_of_takes {p : Parser α} {f : α → Parser β} {R : Rule β} {s : Input}
    {ts rest : List Token} {a : α} (hs : s.Sized) (hts : s.tokens = ts ++ rest)
    (hp : p.Takes ts a rest.head?) (hf : Reads (f a) (R.after ts) (s.move rest)) :
    Reads (p >>= f) R s := by
  have hps := bind_ok (f := f) (hp s rest hs hts rfl)
  cases hf with
  | @takes us rest' b hus hR hq =>
    simp only [Input.move_tokens] at hus
    subst hus
    rw [List.head?_append] at hp
    exact .takes (by simp [hts]) hR (hp.bind hq)
  | deep hq => exact .deep (hps.trans hq)
  | unreadable ht he hq =>
    exact .unreadable (by rw [hts]; exact List.mem_append_right ts ht) he (hps.trans hq)
  | @refuses us rest' e hus hq he hR hx =>
    simp only [Input.move_tokens] at hus
    subst hus
    have hts' : s.tokens = (ts ++ us) ++ rest' := by rw [hts, List.append_assoc]
    apply Reads.refuses hts' (hps.trans hq) he
    · rw [← Rule.after_after]
      exact hR
    · intro x hx' s' r hs' hs''
      rw [List.append_assoc] at hs''
      have hhead : (us ++ x :: r).head? = (us ++ rest').head? := by
        simp [List.head?_append, Option.mem_def.1 hx']
      rw [bind_ok (hp s' (us ++ x :: r) hs' hs'' hhead)]
      exact hx x hx' _ r (hs'.move hs'') rfl

theorem Reads.bind {p : Parser α} {f : α → Parser β} {G : Rule α} {R : Rule β} {s : Input}
    (hs : s.Sized) (h : Reads p G s)
    (hf : ∀ ts rest a, s.tokens = ts ++ rest → G ts a → Reads (f a) (R.after ts) (s.move rest))
    (hR : ∀ ts a, G ts a → (R.after ts).Viable) : Reads (p >>= f) R s := by
  cases h with
  | takes hts hG hp => exact Reads.bind_of_takes hs hts hp (hf _ _ _ hts hG)
  | deep hp => exact .deep (bind_error hp)
  | unreadable ht he hp => exact .unreadable ht he (bind_error hp)
  | refuses hts hp he hG hx =>
    obtain ⟨vs, a, hvs, hG⟩ := hG
    apply Reads.refuses hts (bind_error hp) he ((hR _ a hG).of_after hvs)
    intro x hx' s' rest' hs' hts'
    exact bind_error (hx x hx' s' rest' hs' hts')

theorem Follows.bind {p : Parser α} {f : α → Parser β} {G : Rule α} {R : Rule β}
    (h : p.Follows G) (hf : ∀ ts a, G ts a → (f a).Fits (R.after ts)) : (p >>= f).Follows R := by
  intro s hs
  apply Reads.bind hs (h s hs)
  · intro ts rest a hts hG
    exact (hf ts a hG).follows _ (hs.move hts)
  · intro ts a hG
    exact (hf ts a hG).viable

theorem Fits.bind {p : Parser α} {f : α → Parser β} {G : Rule α} {R : Rule β}
    (h : p.Fits G) (hf : ∀ ts a, G ts a → (f a).Fits (R.after ts)) : (p >>= f).Fits R := by
  refine ⟨h.follows.bind hf, ?_⟩
  obtain ⟨vs, a, hvs, hG⟩ := h.viable
  have hR : (R.after ([] ++ vs)).Viable := (hf vs a hG).viable
  exact hR.of_after hvs

theorem Reads.imp {p : Parser α} {G R : Rule α} {s : Input} (h : Reads p G s)
    (hR : ∀ ts a, G ts a → R ts a) : Reads p R s := by
  cases h with
  | takes hts hG hp => exact .takes hts (hR _ _ hG) hp
  | deep hp => exact .deep hp
  | unreadable ht he hp => exact .unreadable ht he hp
  | refuses hts hp he hG hx =>
    obtain ⟨vs, a, hvs, hG⟩ := hG
    exact .refuses hts hp he ⟨vs, a, hvs, hR _ _ hG⟩ hx

theorem Reads.of_ok {p : Parser α} {G : Rule α} {s s' : Input} {a : α} (h : Reads p G s)
    (hs : s.Sized) (hok : p s = .ok (a, s')) :
    ∃ ts rest, s.tokens = ts ++ rest ∧ G ts a ∧ s' = s.move rest := by
  cases h with
  | @takes ts rest b hts hG hp =>
    have heq := hok.symm.trans (hp s rest hs hts rfl)
    simp only [Except.ok.injEq, Prod.mk.injEq] at heq
    obtain ⟨rfl, rfl⟩ := heq
    exact ⟨ts, rest, hts, hG, rfl⟩
  | deep hp | unreadable _ _ hp | refuses _ hp _ _ _ => simp [hp] at hok

theorem reads_pure {R : Rule α} {a : α} (h : R [] a) (s : Input) : Reads (pure a) R s :=
  .takes (List.nil_append _).symm h (takes_pure a _)

theorem fits_pure {R : Rule α} {a : α} (h : R [] a) : (pure a : Parser α).Fits R :=
  ⟨fun s _ => reads_pure h s, [], a, by simp, h⟩

theorem reads_expected {R : Rule α} (what : Wanted) (hR : R.Viable) (s : Input) :
    Reads (expected what) R s := by
  apply Reads.refuses (List.nil_append _).symm rfl (.expected what) hR
  intro x hx s' rest _ hs'
  cases htokens : s.tokens with
  | nil => simp [htokens] at hx
  | cons t ts =>
    obtain rfl : t = x := by simpa [htokens] using hx
    simp [expected, Input.here, hs']

theorem follows_tooDeep (R : Rule α) : (tooDeep : Parser α).Follows R := fun _ _ => .deep rfl

section Words

variable {w : String}

theorem takes_expect {t : Token} (h : t.text = w) (next : Option Token) :
    (expect w).Takes [t] t.offset next := by
  intro s rest _ hs _
  simp [expect, Input.sees, hs, h, Input.here, Input.next_eq_move hs]

theorem Reads.of_seen {f : Nat → Parser β} {R : Rule β} {s : Input} (hs : s.Sized)
    (h : s.sees w = true)
    (hf : ∀ t, t.text = w → (f t.offset).Follows (R.after [t])) : Reads (expect w >>= f) R s := by
  obtain ⟨t, rest, hts, ht⟩ := Input.sees_iff.1 h
  have hts' : s.tokens = [t] ++ rest := hts
  exact Reads.bind_of_takes hs hts' (takes_expect ht _) (hf t ht _ (hs.move hts'))

theorem expect_of_sees {s : Input} (h : s.sees w = true) : expect w s = .ok (s.here, s.next) := by
  simp [expect, h]

theorem Reads.of_advance {f : Unit → Parser β} {R : Rule β} {s : Input} (hs : s.Sized)
    (h : s.sees w = true) (hf : ∀ t, t.text = w → (f ()).Follows (R.after [t])) :
    Reads (advance >>= f) R s := by
  apply Reads.congr hs _ (Reads.of_seen (f := fun _ => f ()) hs h hf)
  intro s' _ hhead
  have hs' : s'.sees w = true := (Input.sees_congr w hhead).trans h
  rw [bind_ok (expect_of_sees hs')]
  rfl

theorem reads_ite_sees {p q : Parser α} {R : Rule α} {s : Input} (hs : s.Sized)
    (hp : s.sees w = true → Reads p R s) (hq : s.sees w = false → Reads q R s) :
    Reads (do if ← sees w then p else q) R s := by
  have heq : ∀ s' : Input, (do if ← sees w then p else q : Parser α) s' =
      if s'.sees w then p s' else q s' := by
    intro s'
    have hsees : sees w s' = .ok (s'.sees w, s') := rfl
    rw [bind_ok hsees]
    split <;> rfl
  cases h : s.sees w with
  | true =>
    apply Reads.congr hs _ (hp h)
    intro s' _ hhead
    rw [heq, Input.sees_congr w hhead, h]
    rfl
  | false =>
    apply Reads.congr hs _ (hq h)
    intro s' _ hhead
    rw [heq, Input.sees_congr w hhead, h]
    rfl

theorem expect_fits (hw : (Rule.Word w).Viable) : (expect w).Fits (Rule.Word w) := by
  refine ⟨?_, hw⟩
  intro s hs
  by_cases h : s.sees w = true
  · obtain ⟨t, rest, hts, ht⟩ := Input.sees_iff.1 h
    have hts' : s.tokens = [t] ++ rest := hts
    exact .takes hts' (.mk ht) (takes_expect ht _)
  · apply Reads.congr hs _ (reads_expected (.word w) hw s)
    intro s' _ hhead
    have hs' : s'.sees w = s.sees w := Input.sees_congr w hhead
    simp [expect, hs', h]

theorem takes_word {t : Token} (what : Wanted) (h : t.isName) (next : Option Token) :
    (word what).Takes [t] t.text next := by
  intro s rest _ hs _
  simp [word, hs, h, Input.next_eq_move hs]

theorem name_viable : Rule.Viable Rule.Name := by
  refine ⟨[⟨.identifier, "x", 0⟩], "x", ?_, .mk (t := ⟨.identifier, "x", 0⟩) (by decide)⟩
  simp only [List.mem_singleton, forall_eq]
  exact .name (.inl (by decide)) (by simp) (by simp [Lexeme.Stops])

theorem word_fits (what : Wanted) : (word what).Fits Rule.Name := by
  refine ⟨?_, name_viable⟩
  intro s hs
  by_cases h : ∃ t rest, s.tokens = t :: rest ∧ t.isName
  · obtain ⟨t, rest, hts, ht⟩ := h
    have hts' : s.tokens = [t] ++ rest := hts
    exact .takes hts' (.mk ht) (takes_word what ht _)
  · apply Reads.congr hs _ (reads_expected what name_viable s)
    intro s' _ hhead
    cases hs' : s'.tokens with
    | nil => simp [word, hs']
    | cons t ts =>
      have ht : ¬ t.isName := by
        intro ht
        cases hts : s.tokens with
        | nil => simp [hts, hs'] at hhead
        | cons t' ts' =>
          obtain rfl : t = t' := by simpa [hts, hs'] using hhead
          exact h ⟨t, ts', hts, ht⟩
      simp [word, hs', ht]

theorem typeAnnotation_fits (hw : (Rule.Word ":").Viable) : typeAnnotation.Fits Rule.Annotation := by
  apply (expect_fits hw).bind
  intro ts o hts
  obtain ⟨hfollows, vs, name, hvs, hname⟩ := word_fits .typeName
  refine ⟨fun s hs => (hfollows s hs).imp fun us name h => .mk hts h, ?_⟩
  exact ⟨vs, name, hvs, .mk hts hname⟩

end Words

theorem optional_of_sees {w : String} {p : Parser α} {s : Input} (h : s.sees w = true) :
    optional w p s = (expect w >>= fun _ => p >>= fun a => pure (some a)) s := by
  rw [bind_ok (expect_of_sees h)]
  cases hp : p s.next with
  | ok r => simp [optional, h, hp, bind_ok hp, Except.map]; rfl
  | error e => simp [optional, h, hp, bind_error hp, Except.map]

theorem optional_fits {w : String} {p : Parser α} {G : Rule α} (hp : p.Follows G) :
    (optional w p).Fits (Rule.Optional w G) := by
  refine ⟨?_, [], none, by simp, .none⟩
  intro s hs
  by_cases h : s.sees w = true
  · have hread : Reads (expect w >>= fun _ => p >>= fun a => pure (some a)) (Rule.Optional w G) s := by
      apply Reads.of_seen hs h
      intro t ht
      apply hp.bind
      intro ts a hG
      apply fits_pure
      simpa [Rule.after] using Rule.Optional.some (.mk ht) hG
    apply Reads.congr hs _ hread
    intro s' _ hhead
    exact optional_of_sees ((Input.sees_congr w hhead).trans h)
  · apply Reads.congr hs _ (reads_pure .none s)
    intro s' _ hhead
    have hs' : s'.sees w = s.sees w := Input.sees_congr w hhead
    simp [optional, hs', h]
    rfl

section Loops

variable {test : Input → Bool} {p : Parser α} {G : Rule α}

/-- Where the test passes, the parser takes a token if it succeeds, so that a loop comes to its
end. -/
def Shrinks (test : Input → Bool) (p : Parser α) : Prop :=
  ∀ (s s' : Input) (a : α), s.Sized → test s = true → p s = .ok (a, s') →
    ∃ ts rest, ts ≠ [] ∧ s.tokens = ts ++ rest ∧ s' = s.move rest

theorem length_lt_of_append {us ts rest : List Token} (hne : ts ≠ []) (h : us = ts ++ rest) :
    rest.length < us.length := by
  have hpos := List.length_pos_iff.2 hne
  rw [h, List.length_append]
  omega

theorem shrinks_of_reads (hp : ∀ s : Input, s.Sized → test s = true → Reads p G s)
    (hG : ∀ ts a, G ts a → ts ≠ []) : Shrinks test p := by
  intro s s' a hs htest hok
  obtain ⟨ts, rest, hts, h, hs'⟩ := (hp s hs htest).of_ok hs hok
  exact ⟨ts, rest, hG ts a h, hts, hs'⟩

theorem rounds_eq_map (n : Nat) (done : List α) (s : Input) :
    rounds test p n done s =
      (rounds test p n [] s).map fun (as, s) => (done.reverse ++ as, s) := by
  induction n generalizing done s with
  | zero => simp [rounds, Except.map]
  | succ n ih =>
    unfold rounds
    split
    · cases p s with
      | error e => rfl
      | ok r =>
        simp only []
        rw [ih (r.1 :: done), ih [r.1]]
        cases rounds test p n [] r.2 with
        | error e => rfl
        | ok q => simp [Except.map]
    · simp [Except.map]

theorem rounds_congr (hp : Shrinks test p) {n m : Nat} {s : Input} (hs : s.Sized)
    (hn : s.tokens.length < n) (hm : s.tokens.length < m) :
    rounds test p n [] s = rounds test p m [] s := by
  induction n generalizing m s with
  | zero => omega
  | succ n ih =>
    cases m with
    | zero => omega
    | succ m =>
      unfold rounds
      split
      · rename_i htest
        cases hps : p s with
        | error e => rfl
        | ok r =>
          obtain ⟨ts, rest, hne, hts, hs'⟩ := hp s r.2 r.1 hs htest hps
          have hlt := length_lt_of_append hne hts
          simp only []
          rw [rounds_eq_map n, rounds_eq_map m, hs',
            ih (m := m) (hs.move hts) (by simp only [Input.move_tokens]; omega)
              (by simp only [Input.move_tokens]; omega)]
      · rfl

theorem many_of_pass (hp : Shrinks test p) {s : Input} (hs : s.Sized) (h : test s = true) :
    many test p s = (p >>= fun a => many test p >>= fun as => pure (a :: as)) s := by
  have hfirst : many test p s = rounds test p (s.total + 1) [] s := rfl
  rw [hfirst, rounds]
  simp only [h, if_true]
  cases hps : p s with
  | error e => rw [bind_error hps]
  | ok r =>
    obtain ⟨ts, rest, hne, hts, hs'⟩ := hp s r.2 r.1 hs h hps
    rw [bind_of_ok hps]
    simp only []
    rw [rounds_eq_map, hs']
    have hs₁ := hs.move hts
    have hlt := length_lt_of_append hne hts
    have hle : s.tokens.length ≤ s.total := hs
    have hfuel := rounds_congr hp (n := s.total) (m := s.total + 1) hs₁
      (by simp only [Input.move_tokens]; omega) (by simp only [Input.move_tokens]; omega)
    cases hr : rounds test p (s.total + 1) [] (s.move rest) with
    | error e =>
      have hmany : many test p (s.move rest) = .error e := hr
      rw [hfuel, hr, bind_error hmany]
      rfl
    | ok q =>
      have hmany : many test p (s.move rest) = .ok q := hr
      rw [hfuel, hr, bind_of_ok hmany]
      simp [Except.map]
      rfl

theorem many_of_fail {s : Input} (h : test s = false) : many test p s = .ok ([], s) := by
  simp [many, rounds, h]

theorem many_fits (htest : Input.LooksAhead test)
    (hp : ∀ s : Input, s.Sized → test s = true → Reads p G s)
    (hG : ∀ ts a, G ts a → ts ≠ []) : (many test p).Fits (Rule.Many G) := by
  refine ⟨?_, [], [], by simp, .nil⟩
  intro s hs
  -- The rounds behind the first one read a shorter input.
  induction hn : s.tokens.length using Nat.strongRecOn generalizing s with
  | ind n ih =>
    by_cases h : test s = true
    · have hread : Reads (p >>= fun a => many test p >>= fun as => pure (a :: as)) (Rule.Many G) s := by
        apply Reads.bind hs (hp s hs h)
        · intro ts rest a hts ha
          have hlt : rest.length < n := hn ▸ length_lt_of_append (hG ts a ha) hts
          apply Reads.bind (hs.move hts) (ih _ hlt _ (hs.move hts) rfl)
          · intro us rest' as _ has
            apply reads_pure
            simpa [Rule.after] using Rule.Many.cons ha has
          · intro us as has
            exact ⟨[], a :: as, by simp, by simpa [Rule.after] using Rule.Many.cons ha has⟩
        · intro ts a ha
          exact ⟨[], [a], by simp, Rule.Many.cons ha .nil⟩
      apply Reads.congr hs _ hread
      intro s' hs' hhead
      exact many_of_pass (shrinks_of_reads hp hG) hs' ((htest s' s hhead).trans h)
    · apply Reads.congr hs _ (reads_pure .nil s)
      intro s' _ hhead
      have hs' : test s' = false := by rw [htest s' s hhead]; simpa using h
      exact many_of_fail hs'

end Loops

section Lists

variable {p : Parser α} {G : Rule α}

theorem afterComma_reads (hp : p.Follows G) {s : Input} (hs : s.Sized) (h : s.sees "," = true) :
    Reads (do advance; p : Parser α) (Rule.AfterComma G) s := by
  apply Reads.of_advance hs h
  intro t ht s' hs'
  exact (hp s' hs').imp fun ts a ha => .mk (.mk ht) ha

theorem afterComma_ne_nil {ts : List Token} {a : α} (h : Rule.AfterComma G ts a) : ts ≠ [] := by
  cases h with
  | mk hw _ =>
    cases hw with
    | mk _ => simp

theorem commaTail_fits (hp : p.Follows G) :
    (many (·.sees ",") (do advance; p)).Fits (Rule.Many (Rule.AfterComma G)) :=
  many_fits (Input.looksAhead_sees ",") (fun _ hs h => afterComma_reads hp hs h)
    fun _ _ => afterComma_ne_nil

theorem commaList_follows (hp : p.Follows G) : (commaList p).Follows (Rule.Separated G) := by
  apply hp.bind
  intro ts a ha
  apply (commaTail_fits hp).bind
  intro us as has
  apply fits_pure
  simpa [Rule.after] using Rule.Separated.mk ha has

theorem commaList_fits (hp : p.Fits G) : (commaList p).Fits (Rule.Separated G) := by
  refine ⟨commaList_follows hp.follows, ?_⟩
  obtain ⟨vs, a, hvs, ha⟩ := hp.viable
  exact ⟨vs ++ [], [a], by simpa using hvs, .mk ha .nil⟩

theorem listUpTo_fits {close : String} (hclose : (Rule.Word close).Viable) (hp : p.Follows G) :
    (listUpTo close p).Fits (Rule.UpTo close G) := by
  obtain ⟨vs, o, hvs, hword⟩ := hclose
  refine ⟨?_, vs, [], hvs, .empty hword⟩
  intro s hs
  apply reads_ite_sees hs
  · intro h
    apply Reads.of_advance hs h
    intro t ht
    exact (fits_pure (.empty (.mk ht))).follows
  · intro _
    apply (commaList_follows hp).bind _ s hs
    intro ts as has
    apply (expect_fits ⟨vs, o, hvs, hword⟩).bind
    intro us o' ho
    apply fits_pure
    simpa [Rule.after] using Rule.UpTo.items has ho

end Lists

end Parser

end PlcLang
