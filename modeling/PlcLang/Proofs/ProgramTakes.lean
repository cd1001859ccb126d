import PlcLang.Proofs.ExpressionTakes
import PlcLang.Proofs.ProgramReads

namespace PlcLang

open Rule PlcLang.Parser

theorem Input.seesAny_of_head {s : Input} {t : Token} (words : List String)
    (h : s.tokens.head? = some t) : s.seesAny words = words.contains t.text := by
  induction words with
  | nil => rfl
  | cons w ws ih =>
    have hcons : s.seesAny (w :: ws) = (s.sees w || s.seesAny ws) := rfl
    rw [hcons, ih, Input.sees_of_head h, List.contains_cons]

namespace Stmt

variable {expr : Parser Expr} {stmt : Parser Stmt} {E : Rule Expr} {S : Rule Stmt}

def Complete (p : Parser Stmt) (R : Rule Stmt) : Prop :=
  ∀ ts a next, Lexed ts → R ts a → p.Takes ts a next

def blockWords : List String := ["CASE", "DEFAULT", "END", "ELSE"]

theorem Rules.head_not_block (hE : ∀ ts e, E ts e → ∃ t us, ts = t :: us ∧ t.StartsExpr)
    {ts : List Token} {a : Stmt} (hts : Lexed ts) (h : Rules E S ts a) :
    ∃ t us, ts = t :: us ∧ t.text ∉ blockWords := by
  have hword : ∀ {w : String} {us vs : List Token} {o : Nat}, w ∉ blockWords → Word w us o →
      ∃ t us', us ++ vs = t :: us' ∧ t.text ∉ blockWords := by
    intro w us vs o hw hus
    cases hus with
    | @mk t ht => exact ⟨t, vs, rfl, ht ▸ hw⟩
  have hexpr : ∀ {us vs : List Token} {e : Expr}, Lexed us → E us e →
      ∃ t us', us ++ vs = t :: us' ∧ t.text ∉ blockWords := by
    intro us vs e hus he
    obtain ⟨t, us', rfl, ht⟩ := hE us e he
    have hsub : ∀ w ∈ blockWords, w ∈ stopWords := by decide
    exact ⟨t, us' ++ vs, rfl, fun h => ht.not_stop (Lexed.cons_iff.1 hus).1 (hsub _ h)⟩
  cases h with
  | returnNil hw _ => exact hword (by decide) hw
  | declaration hw _ _ _ _ | switch hw _ _ _ _ | ifElse hw _ _ _ _ _ | whileDo hw _ _ _ _
  | returnValue hw _ _ =>
    simp only [List.append_assoc]
    exact hword (by decide) hw
  | expression he _ => exact hexpr (Lexed.append_iff.1 hts).1 he
  | assignment he _ _ _ =>
    simp only [List.append_assoc, Lexed.append_iff] at hts ⊢
    exact hexpr hts.1 he

theorem Within.head_not_block {depth : Nat} {ts : List Token} {a : Stmt} (hts : Lexed ts)
    (h : Within depth ts a) : ∃ t us, ts = t :: us ∧ t.text ∉ blockWords := by
  cases depth with
  | zero => exact h.elim
  | succ depth => exact Rules.head_not_block (fun _ _ => Expr.Within.startsExpr) hts h

/-- The words in front of which an expression of a statement may end. -/
theorem takes_expr (hE : Expr.Complete expr E 4) {t : Token} {ts : List Token} {e : Expr}
    (ht : t.text ∈ Expr.followWords) (hts : Lexed ts) (h : E ts e) : expr.Takes ts e (some t) :=
  hE ts e _ hts h (Expr.ends_of_word ht)

theorem takes_value (hE : Expr.Complete expr E 4) {t : Token} {ts : List Token}
    {value : Option Expr} (ht : t.text = ";") (hts : Lexed ts) (h : Rule.Optional "=" E ts value) :
    (optional "=" expr).Takes ts value (some t) := by
  apply takes_optional _ _ hts h
  · intro ts e hts he
    exact takes_expr hE (by rw [ht]; decide) hts he
  · simp [ht]

section Blocks

variable (hfollowsE : expr.Follows E) (hE : Expr.Complete expr E 4)
  (hfollows : stmt.Follows S) (hS : Complete stmt S)
  (hne : ∀ ts a, S ts a → ts ≠ [])
  (hhead : ∀ ts a, Lexed ts → S ts a → ∃ t us, ts = t :: us ∧ t.text ∉ blockWords)
include hfollows hS hne hhead

theorem takes_block {words : List String} (hwords : ∀ w ∈ words, w ∈ blockWords) {t : Token}
    (ht : t.text ∈ words) {ts : List Token} {body : List Stmt} (hts : Lexed ts)
    (h : Many S ts body) : (block stmt words).Takes ts body (some t) := by
  have hshrinks : Shrinks (fun s => !s.seesAny words) stmt :=
    shrinks_of_reads (fun s hs _ => hfollows s hs) hne
  apply takes_many (F := fun _ => True) hshrinks _ _ _ trivial _ hts h
  · intro ts a next hts ha _
    exact hS ts a next hts ha
  · intro ts a hts ha
    obtain ⟨t, us, hus, _⟩ := hhead ts a hts ha
    exact ⟨t, us, hus, trivial⟩
  · intro ts a hts ha s hs
    obtain ⟨t, us, rfl, hblock⟩ := hhead ts a hts ha
    have hnot : t.text ∉ words := fun h => hblock (hwords _ h)
    simp [Input.seesAny_of_head words hs, hnot]
  · intro s hs
    simp [Input.seesAny_of_head words hs, ht]

include hE

def EndsCase (next : Option Token) : Prop :=
  ∃ t, next = some t ∧ t.text ∈ ["CASE", "DEFAULT", "END"]

theorem takes_case {ts : List Token} {c : Case} {next : Option Token} (hnext : EndsCase next)
    (hts : Lexed ts) (h : Case.Rules E S ts c) : (caseParser expr stmt).Takes ts c next := by
  obtain ⟨t, rfl, ht⟩ := hnext
  cases h with
  | mk hw hvalue hc hbody =>
    simp only [Lexed.append_iff, List.append_assoc] at hts ⊢
    cases hc with
    | @mk c hcolon =>
      have hv := takes_expr hE (t := c) (by rw [hcolon]; decide) hts.2.1 hvalue
      have hb := takes_block hfollows hS hne hhead (by decide) ht hts.2.2.2 hbody
      exact (takes_of_word hw).bind (Takes.bind hv ((takes_expect hcolon _).bind (hb.map _)))

include hfollowsE

theorem takes_cases {ts : List Token} {cases : List Case} {t : Token}
    (ht : t.text ∈ ["DEFAULT", "END"]) (hts : Lexed ts) (h : Many (Case.Rules E S) ts cases) :
    (many (·.sees "CASE") (caseParser expr stmt)).Takes ts cases (some t) ∧
      EndsCase (ts.head?.or (some t)) := by
  have hstart : ∀ ts c, Lexed ts → Case.Rules E S ts c →
      ∃ t us, ts = t :: us ∧ EndsCase (some t) := by
    intro ts c _ h
    cases h with
    | mk hw _ _ _ =>
      cases hw with
      | mk ht => exact ⟨_, _, rfl, _, rfl, by simp [ht]⟩
  have hend : EndsCase (some t) := by
    have hsub : ∀ w ∈ ["DEFAULT", "END"], w ∈ ["CASE", "DEFAULT", "END"] := by decide
    exact ⟨t, rfl, hsub _ ht⟩
  refine ⟨?_, follow_of_many hend hstart hts h⟩
  apply takes_many _ _ hstart _ hend _ hts h
  · apply shrinks_of_reads (fun s hs h => case_reads hfollowsE hfollows hne hs h)
    intro ts c h
    cases h with
    | mk hw _ _ _ => simp [hw.ne_nil]
  · intro ts c next hts hc hnext
    exact takes_case hE hfollows hS hne hhead hnext hts hc
  · intro ts c _ h s hs
    cases h with
    | mk hw _ _ _ =>
      cases hw with
      | mk ht =>
        have hs' := Input.sees_of_head (w := "CASE") hs
        rw [hs', ht]
        rfl
  · intro s hs
    have hne' : ∀ w ∈ ["DEFAULT", "END"], w ≠ "CASE" := by decide
    apply Input.sees_eq_false
    rw [hs]
    simpa using hne' _ ht

omit hfollowsE hE in
theorem takes_default {ts : List Token} {cases : List Case} {t : Token} (ht : t.text = "END")
    (hts : Lexed ts) (h : Case.Default S ts cases) :
    (defaultParser stmt).Takes ts cases (some t) := by
  cases h with
  | none =>
    apply takes_ite_false
    · simp [ht]
    · exact takes_pure [] _
  | some hw hbody =>
    cases hw with
    | @mk d hd =>
      have hwords : ∀ w ∈ ["END"], w ∈ blockWords := by decide
      have hend : t.text ∈ ["END"] := by simp [ht]
      have hb := takes_block hfollows hS hne hhead hwords hend (Lexed.append_iff.1 hts).2 hbody
      apply takes_ite_true hd
      exact (takes_expect hd _).bind (hb.map _)

theorem takes_switch {ts : List Token} (next : Option Token) {w cs ds c : List Token}
    {o o' : Nat} {condition : Expr} {cases default : List Case}
    (hts : Lexed (w ++ ts ++ cs ++ ds ++ c)) (hw : Word "SWITCH" w o) (he : E ts condition)
    (hcs : Many (Case.Rules E S) cs cases) (hds : Case.Default S ds default)
    (hc : Word "END" c o') :
    (switchParser expr stmt).Takes (w ++ ts ++ cs ++ ds ++ c)
      (.switch o condition (cases ++ default)) next := by
  simp only [Lexed.append_iff, List.append_assoc] at hts ⊢
  cases hc with
  | @mk t ht =>
    have hdefault := takes_default hfollows hS hne hhead ht hts.2.2.2.1 hds
    have hfirst : ∃ x, (ds ++ [t]).head?.or next = some x ∧ x.text ∈ ["DEFAULT", "END"] := by
      cases hds with
      | none => exact ⟨t, rfl, by simp [ht]⟩
      | some hw _ =>
        cases hw with
        | @mk d hd => exact ⟨d, rfl, by simp [hd]⟩
    obtain ⟨x, hx, hxtext⟩ := hfirst
    obtain ⟨hcases, y, hy, hytext⟩ :=
      takes_cases hfollowsE hE hfollows hS hne hhead hxtext hts.2.2.1 hcs
    have hcondition : expr.Takes ts condition ((cs ++ (ds ++ [t])).head?.or next) := by
      rw [List.head?_append, Option.or_assoc, hx, hy]
      apply takes_expr hE _ hts.2.1 he
      have hsub : ∀ w ∈ ["CASE", "DEFAULT", "END"], w ∈ Expr.followWords := by decide
      exact hsub _ hytext
    rw [← hx] at hcases
    exact (takes_of_word hw).bind (hcondition.bind (hcases.bind
      (Takes.bind hdefault ((takes_expect ht next).map _))))

omit hfollowsE in
theorem takes_if {ts : List Token} (next : Option Token) {w d bs es c : List Token}
    {o o' o'' : Nat} {condition : Expr} {thenBody : List Stmt} {elseBody : Option (List Stmt)}
    (hts : Lexed (w ++ ts ++ d ++ bs ++ es ++ c)) (hw : Word "IF" w o) (he : E ts condition)
    (hd : Word "DO" d o') (hbs : Many S bs thenBody)
    (hes : Rule.Optional "ELSE" (Many S) es elseBody) (hc : Word "END" c o'') :
    (ifParser expr stmt).Takes (w ++ ts ++ d ++ bs ++ es ++ c)
      (.ifElse o condition thenBody (elseBody.getD [])) next := by
  simp only [Lexed.append_iff, List.append_assoc] at hts ⊢
  cases hd with
  | @mk d hdo =>
    cases hc with
    | @mk t ht =>
      have hend : t.text ∈ ["END"] := by simp [ht]
      have hcondition := takes_expr hE (t := d) (by rw [hdo]; decide) hts.2.1 he
      have helse : (optional "ELSE" (block stmt ["END"])).Takes es elseBody (some t) := by
        apply takes_optional _ _ hts.2.2.2.2.1 hes
        · intro us body hus hbody
          exact takes_block hfollows hS hne hhead (by decide) hend hus hbody
        · simp [ht]
      have hfirst : ∃ x, (es ++ [t]).head?.or next = some x ∧ x.text ∈ ["ELSE", "END"] := by
        cases hes with
        | none => exact ⟨t, rfl, by simp [ht]⟩
        | some hw _ =>
          cases hw with
          | @mk x hx => exact ⟨x, rfl, by simp [hx]⟩
      obtain ⟨x, hx, hxtext⟩ := hfirst
      have hthen := takes_block hfollows hS hne hhead (by decide) hxtext hts.2.2.2.1 hbs
      rw [← hx] at hthen
      exact (takes_of_word hw).bind (Takes.bind hcondition ((takes_expect hdo _).bind
        (hthen.bind (Takes.bind helse ((takes_expect ht next).map _)))))

omit hfollowsE in
theorem takes_while {ts : List Token} (next : Option Token) {w d bs c : List Token}
    {o o' o'' : Nat} {condition : Expr} {body : List Stmt}
    (hts : Lexed (w ++ ts ++ d ++ bs ++ c)) (hw : Word "WHILE" w o) (he : E ts condition)
    (hd : Word "DO" d o') (hbs : Many S bs body) (hc : Word "END" c o'') :
    (whileParser expr stmt).Takes (w ++ ts ++ d ++ bs ++ c) (.whileDo o condition body) next := by
  simp only [Lexed.append_iff, List.append_assoc] at hts ⊢
  cases hd with
  | @mk d hdo =>
    cases hc with
    | @mk t ht =>
      have hend : t.text ∈ ["END"] := by simp [ht]
      have hcondition := takes_expr hE (t := d) (by rw [hdo]; decide) hts.2.1 he
      have hbody := takes_block hfollows hS hne hhead (by decide) hend hts.2.2.2.1 hbs
      exact (takes_of_word hw).bind (Takes.bind hcondition ((takes_expect hdo _).bind
        (Takes.bind hbody ((takes_expect ht next).map _))))

end Blocks

theorem takes_declaration (hE : Expr.Complete expr E 4) {n ts : List Token} (next : Option Token)
    {w vs c : List Token} {o o' : Nat} {name : String} {typeName : Option String}
    {value : Option Expr} (hts : Lexed (w ++ n ++ ts ++ vs ++ c)) (hw : Word "LET" w o)
    (hn : Name n name) (htype : Rule.Optional ":" Name ts typeName)
    (hvs : Rule.Optional "=" E vs value) (hc : Word ";" c o') :
    (declarationParser expr).Takes (w ++ n ++ ts ++ vs ++ c)
      (.declaration o name typeName value none) next := by
  simp only [Lexed.append_iff, List.append_assoc] at hts ⊢
  cases hc with
  | @mk t ht =>
    have hvalue := takes_value hE ht hts.2.2.2.1 hvs
    have hfirst : ∃ x, (vs ++ [t]).head?.or next = some x ∧ x.text ≠ ":" := by
      cases hvs with
      | none => exact ⟨t, rfl, by simp [ht]⟩
      | some hw _ =>
        cases hw with
        | @mk x hx => exact ⟨x, rfl, by simp [hx]⟩
    obtain ⟨x, hx, hxtext⟩ := hfirst
    have htypeName : (optional ":" (word .typeName)).Takes ts typeName (some x) := by
      apply takes_optional _ _ hts.2.2.1 htype
      · intro us name _ hname
        exact takes_of_name .typeName hname
      · simpa using hxtext
    rw [← hx] at htypeName
    exact (takes_of_word hw).bind ((takes_of_name .identifier hn).bind (htypeName.bind
      (Takes.bind hvalue ((takes_expect ht next).map _))))

theorem takes_return_nil (expr : Parser Expr) {w c : List Token} {o o' : Nat} (next : Option Token)
    (hw : Word "RETURN" w o) (hc : Word ";" c o') :
    (returnParser expr).Takes (w ++ c) (.ret o none) next := by
  cases hc with
  | mk ht =>
    apply (takes_of_word hw).bind
    exact takes_ite_true ht (takes_advance.map fun _ => Stmt.ret o none)

theorem takes_return_value (hE : Expr.Complete expr E 4)
    (hstart : ∀ ts e, E ts e → ∃ t us, ts = t :: us ∧ t.StartsExpr) {w ts c : List Token}
    {o o' : Nat} {value : Expr} (next : Option Token) (hts : Lexed (w ++ ts ++ c))
    (hw : Word "RETURN" w o) (he : E ts value) (hc : Word ";" c o') :
    (returnParser expr).Takes (w ++ ts ++ c) (.ret o (some value)) next := by
  simp only [Lexed.append_iff, List.append_assoc] at hts ⊢
  cases hc with
  | @mk t ht =>
    have hvalue := takes_expr hE (t := t) (by rw [ht]; decide) hts.2.1 he
    apply (takes_of_word hw).bind
    apply takes_ite_false
    · obtain ⟨x, us, rfl, hx⟩ := hstart ts value he
      have hstop : ";" ∈ stopWords := by decide
      have hne : x.text ≠ ";" := by
        intro heq
        exact hx.not_stop (Lexed.cons_iff.1 hts.2.1).1 (heq ▸ hstop)
      simpa using hne
    · exact Takes.bind hvalue ((takes_expect ht next).map _)

theorem takes_simple (hfollows : expr.Follows E) (hE : Expr.Complete expr E 4)
    (hstarts : ∀ ts e, E ts e → e.Starts ts) {ts vs c : List Token} {o : Nat} {receiver : Expr}
    {value : Option Expr} {next : Option Token} (hts : Lexed (ts ++ (vs ++ c)))
    (he : E ts receiver) (hvs : Rule.Optional "=" E vs value) (hc : Word ";" c o) :
    (simpleParser expr).Takes (ts ++ (vs ++ c)) (simple receiver.offset receiver value) next := by
  simp only [Lexed.append_iff] at hts
  cases hc with
  | @mk t ht =>
    have hvalue := takes_value hE ht hts.2.1 hvs
    have hfirst : ∃ x, (vs ++ [t]).head?.or next = some x ∧ x.text ∈ Expr.followWords := by
      cases hvs with
      | none => exact ⟨t, rfl, by rw [ht]; decide⟩
      | some hw _ =>
        cases hw with
        | @mk x hx => exact ⟨x, rfl, by rw [hx]; decide⟩
    obtain ⟨x, hx, hxtext⟩ := hfirst
    have hreceiver := takes_expr hE hxtext hts.1 he
    rw [← hx] at hreceiver
    have htakes : (expr >>= fun receiver => optional "=" expr >>= fun value =>
        expect ";" >>= fun _ => pure (simple receiver.offset receiver value)).Takes
        (ts ++ (vs ++ [t])) (simple receiver.offset receiver value) next :=
      hreceiver.bind (Takes.bind hvalue ((takes_expect ht next).map _))
    apply htakes.congr
    intro s hs _
    exact simpleParser_eq hfollows hstarts hs

theorem parser_of_head {depth : Nat} {s : Input} {t : Token} (hs : s.tokens.head? = some t) :
    parser (depth + 1) s =
      if t.text = "LET" then declarationParser (Expr.parser depth) s
      else if t.text = "SWITCH" then switchParser (Expr.parser depth) (parser depth) s
      else if t.text = "IF" then ifParser (Expr.parser depth) (parser depth) s
      else if t.text = "WHILE" then whileParser (Expr.parser depth) (parser depth) s
      else if t.text = "RETURN" then returnParser (Expr.parser depth) s
      else simpleParser (Expr.parser depth) s := by
  simp only [parser, Input.sees_of_head hs, beq_iff_eq]

/-- The first word tells which parser takes a statement. -/
theorem takes_by_word {depth : Nat} {p : Parser Stmt} {w : String} {ts us : List Token} {o : Nat}
    {a : Stmt} {next : Option Token} (hw : Word w ts o)
    (heq : ∀ (s : Input) (t : Token), s.tokens.head? = some t → t.text = w →
      parser (depth + 1) s = p s)
    (h : p.Takes (ts ++ us) a next) : (parser (depth + 1)).Takes (ts ++ us) a next := by
  cases hw with
  | @mk t ht =>
    apply h.congr
    intro s _ hhead
    exact heq s t hhead ht

theorem takes_by_expr {depth : Nat} {ts us : List Token} {a : Stmt} {next : Option Token}
    {e : Expr} (hts : Lexed ts) (he : Expr.Within depth ts e)
    (h : (simpleParser (Expr.parser depth)).Takes (ts ++ us) a next) :
    (parser (depth + 1)).Takes (ts ++ us) a next := by
  obtain ⟨t, ts', rfl, ht⟩ := he.startsExpr
  apply h.congr
  intro s _ hhead
  have hnot := ht.not_stop (Lexed.cons_iff.1 hts).1
  have hne : ∀ w ∈ ["LET", "SWITCH", "IF", "WHILE", "RETURN"], t.text ≠ w := by
    intro w hw heq
    have hsub : ∀ w ∈ ["LET", "SWITCH", "IF", "WHILE", "RETURN"], w ∈ stopWords := by decide
    exact hnot (heq ▸ hsub w hw)
  have hhead' : s.tokens.head? = some t := hhead
  rw [parser_of_head hhead', if_neg (hne _ (by simp)), if_neg (hne _ (by simp)),
    if_neg (hne _ (by simp)), if_neg (hne _ (by simp)), if_neg (hne _ (by simp))]

theorem parser_complete (depth : Nat) : Complete (parser depth) (Within depth) := by
  induction depth with
  | zero =>
    intro ts a next _ h
    exact h.elim
  | succ depth ih =>
    intro ts a next hts h
    have hfollowsE := Expr.parser_follows depth
    have hE := Expr.parser_complete depth
    have hfollows := parser_follows depth
    have hne : ∀ ts a, Within depth ts a → ts ≠ [] := fun _ _ => Within.ne_nil
    have hhead : ∀ ts a, Lexed ts → Within depth ts a →
        ∃ t us, ts = t :: us ∧ t.text ∉ blockWords := fun _ _ => Within.head_not_block
    cases h with
    | declaration hw hn htype hvs hc =>
      have htakes := takes_declaration hE next hts hw hn htype hvs hc
      simp only [List.append_assoc] at htakes ⊢
      apply takes_by_word hw _ htakes
      intro s t hs ht
      simp [parser_of_head hs, ht]
    | switch hw he hcs hds hc =>
      have htakes := takes_switch hfollowsE hE hfollows ih hne hhead next hts hw he hcs
        hds hc
      simp only [List.append_assoc] at htakes ⊢
      apply takes_by_word hw _ htakes
      intro s t hs ht
      simp [parser_of_head hs, ht]
    | ifElse hw he hd hbs hes hc =>
      have htakes := takes_if hE hfollows ih hne hhead next hts hw he hd hbs hes hc
      simp only [List.append_assoc] at htakes ⊢
      apply takes_by_word hw _ htakes
      intro s t hs ht
      simp [parser_of_head hs, ht]
    | whileDo hw he hd hbs hc =>
      have htakes := takes_while hE hfollows ih hne hhead next hts hw he hd hbs hc
      simp only [List.append_assoc] at htakes ⊢
      apply takes_by_word hw _ htakes
      intro s t hs ht
      simp [parser_of_head hs, ht]
    | returnNil hw hc =>
      have htakes := takes_return_nil (Expr.parser depth) next hw hc
      apply takes_by_word hw _ htakes
      intro s t hs ht
      simp [parser_of_head hs, ht]
    | returnValue hw he hc =>
      have htakes := takes_return_value hE (fun _ _ => Expr.Within.startsExpr) next hts
        hw he hc
      simp only [List.append_assoc] at htakes ⊢
      apply takes_by_word hw _ htakes
      intro s t hs ht
      simp [parser_of_head hs, ht]
    | @expression ts c o value he hc =>
      have hts' : Lexed (ts ++ ([] ++ c)) := hts
      exact takes_by_expr (Lexed.append_iff.1 hts).1 he
        (takes_simple hfollowsE hE (fun _ _ => Expr.Within.starts) hts' he .none hc)
    | @assignment ts w vs c o o' receiver value he hw hv hc =>
      have hlist : ts ++ w ++ vs ++ c = ts ++ ((w ++ vs) ++ c) := by simp
      rw [hlist] at hts ⊢
      exact takes_by_expr (Lexed.append_iff.1 hts).1 he
        (takes_simple hfollowsE hE (fun _ _ => Expr.Within.starts) hts he (.some hw hv) hc)

end Stmt

namespace Global

variable {expr : Parser Expr} {E : Rule Expr}

theorem takes_list (hfollows : expr.Follows E) (hE : Expr.Complete expr E 4)
    {w n ts e b vs c : List Token} {o o' bracket o'' : Nat} {name typeName : String}
    {elements : List Expr} (next : Option Token) (hvs : Lexed vs) (hw : Word "LIST" w o)
    (hn : Name n name) (hts : Annotation ts typeName) (he : Word "=" e o')
    (hb : Word "[" b bracket) (helements : Separated E vs elements) (hc : Word "]" c o'') :
    (listParser expr).Takes (w ++ n ++ ts ++ e ++ b ++ vs ++ c)
      ⟨o, name, typeName, true, some (.list ⟨bracket, none⟩ elements), none⟩ next := by
  simp only [List.append_assoc]
  cases hc with
  | @mk t ht =>
    have hlist : (commaList expr).Takes vs elements (some t) := by
      apply takes_commaList hfollows hE _ _ _ hvs helements
      · intro x hx
        exact Expr.ends_of_word (by rw [hx]; decide)
      · exact Expr.ends_of_word (by rw [ht]; decide)
      · simp [ht]
    exact (takes_of_word hw).bind ((takes_of_name .identifier hn).bind
      ((takes_of_annotated hts).bind ((takes_of_word he).bind ((takes_of_word hb).bind
        (Takes.bind hlist ((takes_expect ht next).map _))))))

theorem takes_mutable (hE : Expr.Complete expr E 4) {w n ts vs : List Token} {o : Nat}
    {name typeName : String} {value : Option Expr} {t : Token} (ht : t.text = ";")
    (hlexed : Lexed vs) (hw : Word "VAR" w o) (hn : Name n name) (hts : Annotation ts typeName)
    (hvs : Rule.Optional "=" E vs value) :
    (mutableParser expr).Takes (w ++ n ++ ts ++ vs) ⟨o, name, typeName, true, value, none⟩
      (some t) := by
  simp only [List.append_assoc]
  have hvalue := Stmt.takes_value hE ht hlexed hvs
  exact (takes_of_word hw).bind ((takes_of_name .identifier hn).bind
    ((takes_of_annotated hts).bind (hvalue.map _)))

theorem takes_immutable (hE : Expr.Complete expr E 4) {w n ts e vs : List Token} {o o' : Nat}
    {name typeName : String} {value : Expr} {t : Token} (ht : t.text = ";") (hlexed : Lexed vs)
    (hw : Word "VAL" w o) (hn : Name n name) (hts : Annotation ts typeName) (he : Word "=" e o')
    (hvs : E vs value) :
    (immutableParser expr).Takes (w ++ n ++ ts ++ e ++ vs)
      ⟨o, name, typeName, false, some value, none⟩ (some t) := by
  simp only [List.append_assoc]
  have hvalue := Stmt.takes_expr hE (t := t) (by rw [ht]; decide) hlexed hvs
  exact (takes_of_word hw).bind ((takes_of_name .identifier hn).bind
    ((takes_of_annotated hts).bind ((takes_of_word he).bind (hvalue.map _))))

theorem Rules.startsWith {ts : List Token} {g : Global} (h : Rules E ts g) :
    ∃ t us, ts = t :: us ∧ t.text ∈ Program.globalWords := by
  cases h with
  | mk hdecl _ =>
    cases hdecl with
    | list hw _ _ _ _ _ _ | mutable hw _ _ _ | immutable hw _ _ _ _ =>
      cases hw with
      | mk ht => exact ⟨_, _, rfl, by rw [ht]; decide⟩

theorem parser_complete {depth : Nat} {ts : List Token} {g : Global} {next : Option Token}
    (hts : Lexed ts) (h : Rules (Expr.Within depth) ts g) : (parser depth).Takes ts g next := by
  have hfollows := Expr.parser_follows depth
  have hE := Expr.parser_complete depth
  cases h with
  | @mk ts c o g hdecl hc =>
    cases hc with
    | @mk t ht =>
      have hclosed : ∀ p : Parser Global, p.Takes ts g (some t) →
          (p >>= fun decl => expect ";" >>= fun _ => pure decl).Takes (ts ++ [t]) g next := by
        intro p hp
        exact Takes.bind hp ((takes_expect ht next).map _)
      have hlexed := (Lexed.append_iff.1 hts).1
      cases hdecl with
      | list hw hn hann he hb helements hc =>
        have hvs := (Lexed.append_iff.1 (Lexed.append_iff.1 hlexed).1).2
        have htakes := hclosed _ (takes_list hfollows hE (some t) hvs hw hn hann he hb helements hc)
        simp only [List.append_assoc] at htakes ⊢
        cases hw with
        | mk hlist => exact takes_ite_true hlist htakes
      | mutable hw hn hann hvs =>
        have htakes := hclosed _ (takes_mutable hE ht (Lexed.append_iff.1 hlexed).2 hw hn hann hvs)
        simp only [List.append_assoc] at htakes ⊢
        cases hw with
        | mk hvar =>
          apply takes_ite_false
          · simp [hvar]
          · exact takes_ite_true hvar htakes
      | immutable hw hn hann he hvs =>
        have htakes := hclosed _ (takes_immutable hE ht (Lexed.append_iff.1 hlexed).2 hw hn hann he
          hvs)
        simp only [List.append_assoc] at htakes ⊢
        cases hw with
        | mk hval =>
          apply takes_ite_false
          · simp [hval]
          · apply takes_ite_false
            · simp [hval]
            · exact htakes

end Global

namespace Function

theorem Rules.startsWith {S : Rule Stmt} {ts : List Token} {f : Function} (h : Rules S ts f) :
    ∃ t us, ts = t :: us ∧ t.text = "FUN" := by
  cases h with
  | mk hw _ _ _ _ _ _ _ =>
    cases hw with
    | mk ht => exact ⟨_, _, rfl, ht⟩

theorem takes_parameter {ts : List Token} {parameter : String × String} {next : Option Token}
    (h : Parameter ts parameter) : parameterParser.Takes ts parameter next := by
  cases h with
  | mk hn hann =>
    exact (takes_of_name .identifier hn).bind ((takes_of_annotated hann).map _)

theorem takes_parameters {ts : List Token} {parameters : List (String × String)}
    {next : Option Token} (hts : Lexed ts) (h : UpTo ")" Parameter ts parameters) :
    (listUpTo ")" parameterParser).Takes ts parameters next := by
  apply takes_listUpTo (F := fun _ => True) parameterParser_follows _ _ _ _ _ hts h
  · intro ts parameter next _ h _
    exact takes_parameter h
  · intro _ _
    trivial
  · intro _ _
    trivial
  · decide
  · intro ts parameter hts h
    cases h with
    | mk hn _ =>
      cases hn with
      | @mk t ht =>
        have hstart : t.StartsExpr := .inr (.inr (.inr ht))
        have hstop : ")" ∈ stopWords := by decide
        exact ⟨t, _, rfl, fun heq => hstart.not_stop (Lexed.cons_iff.1 hts).1 (heq ▸ hstop)⟩

theorem parser_complete {depth : Nat} {ts : List Token} {f : Function} {next : Option Token}
    (hts : Lexed ts) (h : Rules (Stmt.Within depth) ts f) : (parser depth).Takes ts f next := by
  cases h with
  | @mk w n b ps us d bs c o o' o'' o₃ name parameters returnType body
      hw hn hb hps htype hd hbs hc =>
    simp only [Lexed.append_iff, List.append_assoc] at hts ⊢
    obtain ⟨_, _, _, hlexed, hlexedType, _, hlexedBody, _⟩ := hts
    cases hd with
    | @mk d hdo =>
      cases hc with
      | @mk t ht =>
        have hend : t.text ∈ ["END"] := by simp [ht]
        have hbody := Stmt.takes_block (Stmt.parser_follows depth) (Stmt.parser_complete depth)
          (fun _ _ => Stmt.Within.ne_nil) (fun _ _ => Stmt.Within.head_not_block) (by decide) hend
          hlexedBody hbs
        have hreturn : (optional ":" (word .typeName)).Takes us returnType (some d) := by
          apply takes_optional _ _ hlexedType htype
          · intro _ _ _ hname
            exact takes_of_name .typeName hname
          · simp [hdo]
        exact (takes_of_word hw).bind ((takes_of_name .identifier hn).bind ((takes_of_word hb).bind
          ((takes_parameters hlexed hps).bind (Takes.bind hreturn ((takes_expect hdo _).bind
            (Takes.bind hbody ((takes_expect ht next).map _)))))))

end Function

namespace Program

theorem takes_functions {depth : Nat} {ts : List Token} {functions : List Function}
    (hts : Lexed ts) (h : Many (Function.Rules (Stmt.Within depth)) ts functions) :
    (many (·.sees "FUN") (Function.parser depth)).Takes ts functions none := by
  apply takes_many (F := fun _ => True) _ _ _ _ trivial _ hts h
  · apply shrinks_of_reads fun s hs h => Function.parser_reads hs h
    intro ts f h
    obtain ⟨t, us, rfl, _⟩ := h.startsWith
    simp
  · intro ts f next hts h _
    exact Function.parser_complete hts h
  · intro ts f _ h
    obtain ⟨t, us, hus, _⟩ := h.startsWith
    exact ⟨t, us, hus, trivial⟩
  · intro ts f _ h s hs
    obtain ⟨t, us, rfl, ht⟩ := h.startsWith
    have hs' := Input.sees_of_head (w := "FUN") hs
    rw [hs', ht]
    rfl
  · intro s hs
    apply Input.sees_eq_false
    simp [hs]

theorem takes_globals {depth : Nat} {ts : List Token} {globals : List Global} {next : Option Token}
    (hnext : ∀ t ∈ next, t.text = "FUN") (hts : Lexed ts)
    (h : Many (Global.Rules (Expr.Within (depth + 2))) ts globals) :
    (many (·.seesAny globalWords) (Global.parser (depth + 2))).Takes ts globals next := by
  apply takes_many (F := fun _ => True) _ _ _ _ trivial _ hts h
  · apply shrinks_of_reads fun s hs h => Global.parser_reads hs h
    intro ts g h
    obtain ⟨t, us, rfl, _⟩ := h.startsWith
    simp
  · intro ts g next hts h _
    exact Global.parser_complete hts h
  · intro ts g _ h
    obtain ⟨t, us, hus, _⟩ := h.startsWith
    exact ⟨t, us, hus, trivial⟩
  · intro ts g _ h s hs
    obtain ⟨t, us, rfl, ht⟩ := h.startsWith
    rw [Input.seesAny_of_head _ hs]
    simpa using ht
  · intro s hs
    cases next with
    | none =>
      have hnil : s.tokens = [] := by simpa using hs
      simp [Input.seesAny, Input.sees, hnil]
    | some t =>
      rw [Input.seesAny_of_head _ hs, hnext t rfl]
      decide

theorem takes_finish (p : Program) : (finish p).Takes [] p none := by
  intro s rest _ hs hrest
  have hnil : s.tokens = [] := by
    have hrest' : rest = [] := by simpa using hrest
    rw [hs, hrest']
    rfl
  have hs' : s.tokens = rest := hs
  rw [finish_of_nil hnil, Input.move_eq hs']

theorem parser_complete {depth : Nat} {ts : List Token} {p : Program} (hts : Lexed ts)
    (h : Within (depth + 2) ts p) : (parser (depth + 2)).Takes ts p none := by
  cases h with
  | @mk gs fs globals functions hgs hfs =>
    obtain ⟨hlexed, hlexed'⟩ := Lexed.append_iff.1 hts
    have hnext : ∀ t ∈ fs.head?.or none, t.text = "FUN" := by
      cases hfs with
      | nil => simp
      | cons hf _ =>
        obtain ⟨t, us, rfl, ht⟩ := hf.startsWith
        simpa using ht
    have hfunctions : (many (·.sees "FUN") (Function.parser (depth + 2)) >>= fun functions =>
        finish ⟨globals, functions⟩).Takes (fs ++ []) ⟨globals, functions⟩ none :=
      Takes.bind (takes_functions hlexed' hfs) (takes_finish _)
    rw [List.append_nil] at hfunctions
    exact Takes.bind (takes_globals hnext hlexed hgs) hfunctions

end Program

end PlcLang
