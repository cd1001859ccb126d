import PlcLang.Proofs.FirstTokens

namespace PlcLang

open Rule

namespace Input

variable {s : Input} {w : String}

theorem sees_of_head {t : Token} (h : s.tokens.head? = some t) : s.sees w = (t.text == w) := by
  cases hs : s.tokens with
  | nil => simp [hs] at h
  | cons t' rest =>
    obtain rfl : t' = t := by simpa [hs] using h
    simp [sees, hs]

theorem sees_eq_false (h : ∀ t ∈ s.tokens.head?, t.text ≠ w) : s.sees w = false := by
  cases hs : s.tokens with
  | nil => simp [sees, hs]
  | cons t rest =>
    have ht := h t (by simp [hs])
    simp [sees, hs, ht]

end Input

namespace Parser

variable {α β : Type} {ts us : List Token} {a : α} {next : Option Token} {w : String}

theorem Takes.congr {p q : Parser α}
    (heq : ∀ s : Input, s.Sized → s.tokens.head? = ts.head?.or next → p s = q s)
    (h : q.Takes ts a next) : p.Takes ts a next := by
  intro s rest hs hts hnext
  have hhead : s.tokens.head? = ts.head?.or next := by rw [hts, List.head?_append, hnext]
  rw [heq s hs hhead]
  exact h s rest hs hts hnext

theorem Takes.map {p : Parser α} (h : p.Takes ts a next) (f : α → β) :
    (p >>= fun a => pure (f a)).Takes ts (f a) next := by
  have hp : p.Takes ts a (([] : List Token).head?.or next) := h
  have hbind := Takes.bind (f := fun a => pure (f a)) hp (takes_pure (f a) next)
  rwa [List.append_nil] at hbind

theorem takes_of_word {o : Nat} (h : Word w ts o) : (expect w).Takes ts o next := by
  cases h with
  | mk ht => exact takes_expect ht next

theorem takes_of_name {name : String} (what : Wanted) (h : Name ts name) :
    (word what).Takes ts name next := by
  cases h with
  | mk ht => exact takes_word what ht next

theorem takes_of_annotated {type : String} (h : Annotation ts type) :
    typeAnnotation.Takes ts type next := by
  cases h with
  | mk hw hn => exact (takes_of_word hw).bind (takes_of_name .typeName hn)

theorem takes_advance {t : Token} : advance.Takes [t] () next := by
  intro s rest _ hts _
  have hcons : s.tokens = t :: rest := hts
  rw [← Input.next_eq_move hcons]
  rfl

theorem takes_ite_of_head {p q : Parser α} (b : Bool)
    (hb : ∀ s : Input, s.tokens.head? = ts.head?.or next → s.sees w = b)
    (h : (if b then p else q).Takes ts a next) :
    (do if ← sees w then p else q : Parser α).Takes ts a next := by
  apply h.congr
  intro s _ hhead
  have hsees : sees w s = .ok (b, s) := by rw [sees, hb s hhead]
  rw [bind_ok hsees]

theorem takes_ite_true {p q : Parser α} {t : Token} (ht : t.text = w)
    (h : p.Takes (t :: us) a next) :
    (do if ← sees w then p else q : Parser α).Takes (t :: us) a next := by
  apply takes_ite_of_head true
  · intro s hhead
    rw [Input.sees_of_head hhead, ht]
    simp
  · exact h

theorem takes_ite_false {p q : Parser α} (hne : ∀ t ∈ ts.head?.or next, t.text ≠ w)
    (h : q.Takes ts a next) : (do if ← sees w then p else q : Parser α).Takes ts a next := by
  apply takes_ite_of_head false
  · intro s hhead
    exact Input.sees_eq_false (hhead ▸ hne)
  · exact h

variable {p : Parser α} {G : Rule α} {F : Option Token → Prop}

theorem takes_optional {a : Option α} (hp : ∀ ts a, Lexed ts → G ts a → p.Takes ts a next)
    (hne : ∀ t ∈ next, t.text ≠ w) (hts : Lexed ts) (h : Rule.Optional w G ts a) :
    (optional w p).Takes ts a next := by
  cases h with
  | none =>
    intro s rest _ hs hnext
    have hrest : s.tokens = rest := hs
    have hsees : s.sees w = false := Input.sees_eq_false (by rwa [hrest, hnext])
    rw [Input.move_eq hrest]
    simp [optional, hsees]
  | some hw hG =>
    cases hw with
    | @mk t ht =>
      have htakes : (expect w >>= fun _ => p >>= fun a => pure (some a)).Takes _ _ next :=
        (takes_expect ht _).bind ((hp _ _ (Lexed.append_iff.1 hts).2 hG).map some)
      apply htakes.congr
      intro s _ hhead
      apply optional_of_sees
      have hhead' : s.tokens.head? = some t := hhead
      rw [Input.sees_of_head hhead', ht]
      simp

section Loops

variable {test : Input → Bool} {as : List α}

/-- What may follow a thing may start the next one or follow the loop. -/
theorem follow_of_many (hF : F next)
    (hstart : ∀ ts a, Lexed ts → G ts a → ∃ t us, ts = t :: us ∧ F (some t))
    (hts : Lexed ts) (h : Many G ts as) : F (ts.head?.or next) := by
  cases h with
  | nil => exact hF
  | cons hG _ =>
    obtain ⟨t, us, rfl, ht⟩ := hstart _ _ (Lexed.append_iff.1 hts).1 hG
    exact ht

theorem takes_many (hshrinks : Shrinks test p)
    (hp : ∀ ts a next, Lexed ts → G ts a → F next → p.Takes ts a next)
    (hstart : ∀ ts a, Lexed ts → G ts a → ∃ t us, ts = t :: us ∧ F (some t))
    (hpass : ∀ ts a, Lexed ts → G ts a → ∀ s : Input, s.tokens.head? = ts.head? → test s = true)
    (hF : F next) (hfail : ∀ s : Input, s.tokens.head? = next → test s = false)
    (hts : Lexed ts) (h : Many G ts as) : (many test p).Takes ts as next := by
  induction h with
  | nil =>
    intro s rest _ hs hnext
    have hrest : s.tokens = rest := hs
    rw [many_of_fail (hfail s (by rw [hrest, hnext])), Input.move_eq hrest]
  | @cons ts us a as hG hmany ih =>
    obtain ⟨hts, hus⟩ := Lexed.append_iff.1 hts
    have htakes : (p >>= fun a => many test p >>= fun as => pure (a :: as)).Takes _ _ next :=
      (hp ts a _ hts hG (follow_of_many hF hstart hus hmany)).bind ((ih hus).map _)
    apply htakes.congr
    intro s hs hhead
    obtain ⟨t, ts', rfl, _⟩ := hstart ts a hts hG
    exact many_of_pass hshrinks hs (hpass _ a hts hG s hhead)

end Loops

section Lists

variable {as : List α} (hfollows : p.Follows G)
  (hp : ∀ ts a next, Lexed ts → G ts a → F next → p.Takes ts a next)
  (hcomma : ∀ t : Token, t.text = "," → F (some t))
include hfollows hp hcomma

theorem takes_commaList (hF : F next) (hne : ∀ t ∈ next, t.text ≠ ",") (hts : Lexed ts)
    (h : Separated G ts as) : (commaList p).Takes ts as next := by
  cases h with
  | @mk ts us a as hG hmany =>
    obtain ⟨hts, hus⟩ := Lexed.append_iff.1 hts
    have hstart : ∀ ts a, Lexed ts → AfterComma G ts a → ∃ t us, ts = t :: us ∧ F (some t) := by
      intro ts a _ h
      cases h with
      | mk hw _ =>
        cases hw with
        | mk ht => exact ⟨_, _, rfl, hcomma _ ht⟩
    have hrest : (many (·.sees ",") (do advance; p)).Takes us as next := by
      apply takes_many _ _ hstart _ hF _ hus hmany
      · exact shrinks_of_reads (fun _ hs h => afterComma_reads hfollows hs h)
          fun _ _ => afterComma_ne_nil
      · intro ts a next hts h hF
        cases h with
        | mk hw hG =>
          cases hw with
          | mk _ => exact takes_advance.bind (hp _ _ _ (Lexed.append_iff.1 hts).2 hG hF)
      · intro ts a _ h s hhead
        cases h with
        | mk hw _ =>
          cases hw with
          | mk ht =>
            rw [Input.sees_of_head hhead, ht]
            simp
      · intro s hhead
        exact Input.sees_eq_false (hhead ▸ hne)
    exact (hp ts a _ hts hG (follow_of_many hF hstart hus hmany)).bind (hrest.map _)

theorem takes_listUpTo {close : String} (hclose : ∀ t : Token, t.text = close → F (some t))
    (hne : close ≠ ",")
    (hstart : ∀ ts a, Lexed ts → G ts a → ∃ t us, ts = t :: us ∧ t.text ≠ close)
    (hts : Lexed ts) (h : UpTo close G ts as) : (listUpTo close p).Takes ts as next := by
  cases h with
  | empty hw =>
    cases hw with
    | mk ht => exact takes_ite_true ht (takes_advance.map fun _ => [])
  | @items ts c o as hitems hw =>
    have hlexed := (Lexed.append_iff.1 hts).1
    have hhead : ∀ t ∈ (ts ++ c).head?.or next, t.text ≠ close := by
      cases hitems with
      | mk hG _ =>
        obtain ⟨t, us, rfl, ht⟩ := hstart _ _ (Lexed.append_iff.1 hlexed).1 hG
        simpa using ht
    apply takes_ite_false hhead
    cases hw with
    | @mk t ht =>
      have hnext : ∀ x ∈ some t, x.text ≠ "," := by simp [ht, hne]
      have hlist := takes_commaList hfollows hp hcomma (hclose t ht) hnext hlexed hitems
      exact Takes.bind hlist ((takes_expect ht next).map fun _ => as)

end Lists

end Parser

end PlcLang
