import PlcLang.Proofs.DerivedTrees
import PlcLang.Proofs.GrammarDepth
import PlcLang.Proofs.ParserDepth
import PlcLang.Proofs.ProgramTakes
import PlcLang.Proofs.ReadableLiterals

namespace PlcLang

open Rule PlcLang.Parser

theorem Token.WellFormed.kind_ne_eof {t : Token} (h : t.WellFormed) : t.kind ≠ .eof := by
  unfold WellFormed at h
  generalize t.text.toList = cs at h
  intro hkind
  rw [hkind] at h
  cases h

/-- Where a token starts or, behind the last one, where that one stops. -/
def Token.offsetAt (ts : List Token) (i : Nat) : Nat :=
  match ts[i]? with
  | some t => t.offset
  | none => (ts.getLast?.map Token.stop).getD 0

namespace Input

theorem tokens_ofTokens_append {ts : List Token} (hts : Lexed ts) (us : List Token) :
    (ofTokens (ts ++ us)).tokens = ts ++ us.takeWhile (·.kind != .eof) := by
  have hkind : ∀ t ∈ ts, (t.kind != .eof) = true := by
    intro t ht
    simpa using (hts t ht).kind_ne_eof
  exact List.takeWhile_append_of_pos hkind

theorem tokens_ofTokens {ts : List Token} (hts : Lexed ts) : (ofTokens ts).tokens = ts := by
  have happend := tokens_ofTokens_append hts []
  simpa using happend

theorem finish_ofTokens {ts : List Token} (hts : Lexed ts) :
    (ofTokens ts).finish = (ts.getLast?.map Token.stop).getD 0 := by
  have hnone : ts.find? (·.kind == .eof) = none := by
    rw [List.find?_eq_none]
    intro t ht
    simpa using (hts t ht).kind_ne_eof
  simp [ofTokens, hnone]

theorem getElem?_length_append (us rest : List Token) : (us ++ rest)[us.length]? = rest.head? := by
  rw [List.getElem?_append_right (Nat.le_refl _), Nat.sub_self, List.head?_eq_getElem?]

theorem here_ofTokens {us rest : List Token} (hts : Lexed (us ++ rest)) :
    ((ofTokens (us ++ rest)).move rest).here = Token.offsetAt (us ++ rest) us.length := by
  rw [Token.offsetAt, getElem?_length_append]
  cases rest with
  | nil => exact finish_ofTokens hts
  | cons t rest => rfl

theorem sized_ofTokens (ts : List Token) : (ofTokens ts).Sized := Nat.le_refl _

end Input

theorem Parser.bind_eq_ok {α β : Type} {p : Parser α} {f : α → Parser β} {s : Input}
    {r : β × Input} (h : (p >>= f) s = .ok r) : ∃ q, p s = .ok q ∧ f q.1 q.2 = .ok r := by
  cases hp : p s with
  | error e => simp [bind_error hp] at h
  | ok q => exact ⟨q, rfl, by rwa [bind_of_ok hp] at h⟩

namespace Program

variable {ts : List Token} {p : Program} {depth : Nat}

theorem tokens_nil_of_ok {s s' : Input} (h : parser depth s = .ok (p, s')) : s'.tokens = [] := by
  obtain ⟨q, _, h⟩ := bind_eq_ok h
  obtain ⟨r, _, h⟩ := bind_eq_ok h
  have hfinish : finish ⟨q.1, r.1⟩ r.2 = .ok (p, s') := h
  cases hlate : r.2.seesAny globalWords with
  | true => simp [finish_of_late hlate] at hfinish
  | false =>
    by_cases hnil : r.2.tokens = []
    · rw [finish_of_nil hnil] at hfinish
      simp only [Except.ok.injEq, Prod.mk.injEq] at hfinish
      rw [← hfinish.2, hnil]
    · rw [finish_of_more hlate hnil] at hfinish
      simp [expected] at hfinish

def parsed (depth : Nat) (ts : List Token) : Except ParseError Program :=
  (parser depth (.ofTokens ts)).map Prod.fst

theorem ofTokens_eq_parsed (ts : List Token) : ofTokens ts = parsed parseDepth ts := rfl

theorem parsed_eq_error {e : ParseError} :
    parsed depth ts = .error e ↔ parser depth (.ofTokens ts) = .error e := by
  rw [parsed]
  cases parser depth (.ofTokens ts) <;> simp [Except.map]

theorem parsed_eq_ok (hts : Lexed ts) : parsed (depth + 2) ts = .ok p ↔ Within (depth + 2) ts p := by
  have hsized := Input.sized_ofTokens ts
  have htokens := Input.tokens_ofTokens hts
  constructor
  · intro h
    cases hparser : parser (depth + 2) (.ofTokens ts) with
    | error e => simp [parsed, hparser, Except.map] at h
    | ok r =>
      obtain ⟨us, rest, hus, hp, hs'⟩ := ((parser_fits depth).follows _ hsized).of_ok hsized hparser
      have hrest : rest = [] := by
        have hnil := tokens_nil_of_ok hparser
        rwa [hs'] at hnil
      obtain rfl : r.1 = p := by simpa [parsed, hparser, Except.map] using h
      rw [htokens, hrest, List.append_nil] at hus
      rwa [hus]
  · intro h
    have hok := parser_complete hts h (.ofTokens ts) [] hsized (by simpa using htokens) rfl
    simp [parsed, hok, Except.map]

theorem parsed_deepens {depth' : Nat} (hle : depth ≤ depth') (ts : List Token) :
    (∃ offset, parsed depth ts = .error ⟨.tooDeep, some offset⟩) ∨
      parsed depth' ts = parsed depth ts := by
  rcases parser_deepens hle (.ofTokens ts) with ⟨offset, h⟩ | h
  · left
    refine ⟨offset, ?_⟩
    rw [parsed, h]
    rfl
  · right
    rw [parsed, h, parsed]

theorem derives_of_parsed (hts : Lexed ts) (h : parsed depth ts = .ok p) : Derives ts p := by
  rcases parsed_deepens (Nat.le_add_right depth 2) ts with ⟨_, hdeep⟩ | heq
  · simp [hdeep] at h
  · exact ⟨depth + 2, (parsed_eq_ok hts).1 (heq.trans h)⟩

theorem parsed_of_derives (hts : Lexed ts) (h : Derives ts p) : ∃ depth, parsed depth ts = .ok p := by
  obtain ⟨depth, h⟩ := h
  exact ⟨depth + 2, (parsed_eq_ok hts).2 (within_grows (Nat.le_add_right depth 2) h)⟩

theorem parsed_or_deep (hts : Lexed ts) (h : Derives ts p) (depth : Nat) :
    (∃ offset, parsed depth ts = .error ⟨.tooDeep, some offset⟩) ∨ parsed depth ts = .ok p := by
  obtain ⟨d, h⟩ := h
  have hwithin : Within (max d depth + 2) ts p := within_grows (by omega) h
  have hle : depth ≤ max d depth + 2 := by omega
  rcases parsed_deepens hle ts with hdeep | heq
  · exact .inl hdeep
  · exact .inr (heq.symm.trans ((parsed_eq_ok hts).2 hwithin))

theorem derives_unique {q : Program} (hts : Lexed ts) (hp : Derives ts p) (hq : Derives ts q) :
    p = q := by
  obtain ⟨depth, h⟩ := parsed_of_derives hts hp
  rcases parsed_or_deep hts hq depth with ⟨_, hdeep⟩ | hok
  · simp [hdeep] at h
  · exact Except.ok.inj (h.symm.trans hok)

/-- Up to the depth that a parser has, it accepts exactly the token lists that the grammar derives
some program from, and gives that program; there is no other one, and in it no operator has an
operator as loose as itself, or looser, on top of its right operand. -/
theorem ofTokens_iff_derives (ts : List Token) (hts : ∀ t ∈ ts, t.WellFormed) :
    ((∃ offset, ofTokens ts = .error ⟨.tooDeep, some offset⟩) ∨
        ∀ p, ofTokens ts = .ok p ↔ Derives ts p) ∧
      (∀ p, (∃ depth, (parser depth (.ofTokens ts)).map Prod.fst = .ok p) ↔ Derives ts p) ∧
      (∀ p q, Derives ts p → Derives ts q → p = q) ∧
      ∀ p info op left info' op' l r, Derives ts p →
        p.Has (.binary info op left (.binary info' op' l r)) → op'.level < op.level := by
  refine ⟨?_, ?_, ?_, ?_⟩
  · by_cases hdeep : ∃ offset, ofTokens ts = .error ⟨.tooDeep, some offset⟩
    · exact .inl hdeep
    · right
      intro p
      constructor
      · exact derives_of_parsed hts
      · intro h
        exact (parsed_or_deep hts h parseDepth).resolve_left hdeep
  · intro p
    constructor
    · rintro ⟨depth, h⟩
      exact derives_of_parsed hts h
    · exact parsed_of_derives hts
  · intro p q
    exact derives_unique hts
  · intro p info op left info' op' l r hp hx
    exact (hp.formed hx).2

theorem differences_from_left :
    let ts : List Token := [⟨.identifier, "VAL", 0⟩, ⟨.identifier, "x", 4⟩, ⟨.operator, ":", 5⟩,
      ⟨.identifier, "Integer", 7⟩, ⟨.operator, "=", 15⟩, ⟨.integer, "9", 17⟩, ⟨.operator, "-", 19⟩,
      ⟨.integer, "4", 21⟩, ⟨.operator, "-", 23⟩, ⟨.integer, "2", 25⟩, ⟨.operator, "*", 27⟩,
      ⟨.identifier, "y", 29⟩, ⟨.operator, ";", 30⟩]
    let value : Expr := .binary ⟨17, none⟩ .sub
      (.binary ⟨17, none⟩ .sub (.literal ⟨17, none⟩ (.integer 9)) (.literal ⟨21, none⟩ (.integer 4)))
      (.binary ⟨25, none⟩ .mul (.literal ⟨25, none⟩ (.integer 2)) (.access ⟨29, none⟩ "y" none))
    let p : Program := ⟨[⟨0, "x", "Integer", false, some value, none⟩], []⟩
    (∀ t ∈ ts, t.WellFormed) ∧ Derives ts p ∧ ∀ q, Derives ts q → q = p := by
  intro ts value p
  have hts : ∀ t ∈ ts, t.WellFormed := by decide
  obtain ⟨_, hparsed, hunique, _⟩ := ofTokens_iff_derives ts hts
  have hp : Derives ts p := (hparsed p).1 ⟨parseDepth, rfl⟩
  exact ⟨hts, hp, fun q hq => hunique q p hq hp⟩

/-- The tokens in front of the one that an error speaks of go on to some program, and whatever
follows that one, the error stays. -/
theorem ofTokens_error_first (ts : List Token) (hts : ∀ t ∈ ts, t.WellFormed) (e : ParseError)
    (h : ofTokens ts = .error e) (hdeep : e.cause ≠ .tooDeep) :
    ∃ i ≤ ts.length, e.offset = some (Token.offsetAt ts i) ∧
      ((∃ what, e.cause = .expected what (ts[i]?.map Token.text)) ∨ e.cause = .lateGlobal) ∧
      (∃ vs p, (∀ v ∈ vs, v.WellFormed) ∧ ofTokens (ts.take i ++ vs) = .ok p) ∧
      (i < ts.length → ∀ us, ofTokens (ts.take (i + 1) ++ us) = .error e) := by
  obtain ⟨depth, hdepth⟩ : ∃ depth, parseDepth = depth + 2 := ⟨33398, rfl⟩
  have hsized := Input.sized_ofTokens ts
  have htokens := Input.tokens_ofTokens hts
  have herror : parser (depth + 2) (.ofTokens ts) = .error e := by
    rwa [ofTokens_eq_parsed, hdepth, parsed_eq_error] at h
  cases (parser_fits depth).follows _ hsized with
  | takes hus _ hp => simp [hp _ _ hsized hus rfl] at herror
  | deep hp =>
    obtain rfl := Except.error.inj (hp.symm.trans herror)
    exact absurd rfl hdeep
  | unreadable ht he _ =>
    rw [htokens] at ht
    exact absurd he (Expr.literal?_ne_error (hts _ ht) _)
  | @refuses us rest e' hus hp he hviable hrefuses =>
    obtain rfl := Except.error.inj (hp.symm.trans herror)
    rw [htokens] at hus
    subst hus
    obtain ⟨hlexed, hlexed'⟩ := Lexed.append_iff.1 hts
    obtain ⟨vs, p, hvs, hp⟩ := hviable
    refine ⟨us.length, by simp, ?_, ?_, ⟨vs, p, hvs, ?_⟩, ?_⟩
    · rw [← Input.here_ofTokens hts]
      cases he <;> rfl
    · rw [Input.getElem?_length_append]
      cases he with
      | expected what => exact .inl ⟨what, rfl⟩
      | lateGlobal => exact .inr rfl
    · rw [List.take_left, ofTokens_eq_parsed, hdepth, parsed_eq_ok]
      · exact hp
      · exact Lexed.append_iff.2 ⟨hlexed, hvs⟩
    · intro hlt ws
      cases rest with
      | nil => simp at hlt
      | cons x rest =>
        have htake : (us ++ x :: rest).take (us.length + 1) = us ++ [x] := by
          simp [List.take_append]
        have hx : Lexed (us ++ [x]) := by
          rw [Lexed.cons_iff] at hlexed'
          simpa using And.intro hlexed hlexed'.1
        have hws : (Input.ofTokens (us ++ [x] ++ ws)).tokens =
            us ++ x :: ws.takeWhile (·.kind != .eof) := by
          rw [Input.tokens_ofTokens_append hx, List.append_assoc]
          rfl
        have hfails := hrefuses x rfl _ _ (Input.sized_ofTokens _) hws
        rw [htake, ofTokens_eq_parsed, hdepth, parsed_eq_error, hfails]

theorem open_bracket_error_first :
    let ts : List Token := [⟨.identifier, "VAR", 0⟩, ⟨.identifier, "x", 4⟩, ⟨.operator, ":", 5⟩,
      ⟨.identifier, "Integer", 7⟩, ⟨.operator, "=", 15⟩, ⟨.operator, "(", 17⟩, ⟨.integer, "1", 18⟩,
      ⟨.operator, ";", 19⟩]
    let e : ParseError := ⟨.expected (.word ")") (some ";"), some 19⟩
    ((∀ t ∈ ts, t.WellFormed) ∧ ofTokens ts = .error e ∧ e.cause ≠ .tooDeep) ∧
      ∃ i ≤ ts.length, e.offset = some (Token.offsetAt ts i) ∧
        (∃ vs p, (∀ v ∈ vs, v.WellFormed) ∧ ofTokens (ts.take i ++ vs) = .ok p) ∧
        (i < ts.length → ∀ us, ofTokens (ts.take (i + 1) ++ us) = .error e) := by
  intro ts e
  have hts : ∀ t ∈ ts, t.WellFormed := by decide
  have herror : ofTokens ts = .error e := rfl
  have hdeep : e.cause ≠ .tooDeep := by simp [e]
  obtain ⟨i, hi, hoffset, _, hprefix, hafter⟩ := ofTokens_error_first ts hts e herror hdeep
  exact ⟨⟨hts, herror, hdeep⟩, i, hi, hoffset, hprefix, hafter⟩

end Program

end PlcLang
