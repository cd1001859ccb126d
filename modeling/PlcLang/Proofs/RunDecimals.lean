import PlcLang.Proofs.CheckedTrees
import PlcLang.Proofs.DecimalScale
import PlcLang.Proofs.RunValues
import PlcLang.Proofs.SourceErrors
import PlcLang.Proofs.TokenSpans

namespace PlcLang

open Plan Point

theorem BinOp.decimals_fractional {op : BinOp} {a b c : Decimal} (h : op.decimals a b = .ok c)
    (ha : a.Fractional) (hb : b.Fractional) : c.Fractional := by
  cases op with
  | add =>
      cases h
      exact ha.add
  | sub =>
      cases h
      exact ha.sub
  | mul =>
      cases h
      exact ha.mul hb
  | div =>
      simp only [BinOp.decimals] at h
      split at h
      · cases h
      · cases h
        exact ha.div
  | _ => cases h

namespace Program

variable {q : Program} {l : Limits} {text : String}

theorem literal_fractional (h : checkedOfText text = .ok q) {info : Info} {value : Literal}
    (hn : q.Contains (.expr (.literal info value))) : value.toValue.Fractional := by
  obtain ⟨p, hparse, hcheck⟩ := checkedOfText_eq_ok.mp h
  obtain ⟨ts, hts, hp⟩ := ofText_eq_ok.mp hparse
  have hlexed := Token.lexed_of_listOfText hts
  obtain ⟨m, hm, hsame⟩ := hn.transfer (checkWithin_annotates hcheck).1.symm
  obtain ⟨info', rfl⟩ := Node.erase_eq_literal hsame
  obtain ⟨t, ht, hspells⟩ := (derives_of_parsed hlexed hp).literal_spelled hm
  intro d hd
  cases hspells with
  | decimal hkind hnumeral =>
      cases hd
      have hwf := hlexed t ht
      rw [Token.WellFormed, hkind] at hwf
      exact .of_numeral hwf hnumeral
  | _ => cases hd

theorem fractional_kept (h : checkedOfText text = .ok q) : Value.Kept q Value.Fractional where
  literals _ _ hn := literal_fractional h hn
  operators hcomputes hv hw := by
    cases hcomputes with
    | decimal hc =>
        rintro _ ⟨⟩
        exact BinOp.decimals_fractional hc (hv _ rfl) (hw _ rfl)
    | _ => exact nofun
  truth _ := nofun
  nil := nofun
  list _ := nofun

/-- In the run all decimals have digits behind the point, and all texts that the run makes of values
show them in positional notation. -/
structure KeepsScale (q : Program) (l : Limits) : Prop where
  /-- What expressions, calls and main give. -/
  results : ∀ pt s r t, Reaches l.rounds (program l.depth q) Store.initial pt s →
    pt.run l.rounds s = (.ok r, t) → pt.GivesAll Value.Fractional r
  arguments : ∀ pt s, Reaches l.rounds (program l.depth q) Store.initial pt s →
    pt.TakesAll Value.Fractional
  /-- What variables and lists hold at any time. -/
  stores : ∀ t, Visits l.rounds (program l.depth q) Store.initial t → t.All Value.Fractional
  prints : ∀ depth signature values s r t,
    Reaches l.rounds (program l.depth q) Store.initial (call depth ⟨signature, .print⟩ values) s →
    (call depth ⟨signature, .print⟩ values).run l.rounds s = (.ok r, t) →
    ∃ line, t.output = s.output ++ line ++ "\n" ∧ s.heap.Spells (values.headD .nil) line
  concatenates : ∀ depth scope info left right s line t,
    Reaches l.rounds (program l.depth q) Store.initial
      (expr (depth + 1) scope (.binary info .add left right)) s →
    Expr.eval l.rounds (depth + 1) scope (.binary info .add left right) s = (.ok (.string line), t) →
    ∃ v w u a b, left.eval l.rounds depth scope s = (.ok v, u) ∧
      right.eval l.rounds depth scope u = (.ok w, t) ∧ line = a ++ b ∧
      t.heap.Spells v a ∧ t.heap.Spells w b
  reports : ∀ v line, (q.runWithin l).result = .ok (v, line) →
    ((q.main l).run Store.initial).2.heap.Spells v line

theorem printed {depth rounds : Nat} {signature : Signature} {values : List Value} {s t : Store}
    {r : Value} (h : (call depth ⟨signature, .print⟩ values).run rounds s = (.ok r, t)) :
    ∃ line, t.output = s.output ++ line ++ "\n" ∧
      s.heap.text? depth (values.headD .nil) = some line := by
  obtain ⟨line, u, hline, hrest⟩ := Run.bind_eq_ok h
  obtain ⟨htext, rfl⟩ := Run.text_eq_ok hline
  cases hrest
  exact ⟨line, rfl, htext⟩

theorem added {depth scope rounds : Nat} {info : Info} {left right : Expr} {s t : Store} {r : Value}
    (h : Expr.eval rounds (depth + 1) scope (.binary info .add left right) s = (.ok r, t)) :
    ∃ v w u, left.eval rounds depth scope s = (.ok v, u) ∧
      right.eval rounds depth scope u = (.ok w, t) ∧ BinOp.add.Computes t.heap depth v w r := by
  simp only [Expr.eval] at h
  obtain ⟨v, u, hleft, hrest⟩ := Run.bind_eq_ok h
  obtain ⟨w, t', hright, hresult⟩ := Run.bind_eq_ok hrest
  obtain rfl : t = t' := by
    obtain ⟨a, heq, _⟩ | ⟨why, heq, _⟩ := Run.operate_gives depth info.offset .add v w (s := t')
    · exact (congrArg Prod.snd (heq.symm.trans hresult)).symm
    · cases heq.symm.trans hresult
  exact ⟨v, w, u, hleft, hright, Run.operate_computes hresult⟩

theorem text_of_result {v : Value} {line : String} (h : (q.runWithin l).result = .ok (v, line)) :
    ∃ s, (program l.depth q).run l.rounds Store.initial = (.ok v, s) ∧
      s.heap.text? resultDepth v = some line := by
  unfold runWithin at h
  split at h
  · next v' s hrun =>
      cases htext : s.heap.text? resultDepth v' with
      | none =>
          rw [htext] at h
          cases h
      | some line' =>
          rw [htext] at h
          cases h
          exact ⟨s, hrun, htext⟩
  · cases h
  · cases h

/-- Every decimal at any step of a run of a checked text has digits behind the point, and is shown
with a point and these digits wherever it is printed, made part of a text or reported. -/
theorem decimals_keep_scale (h : checkedOfText text = .ok q) (l : Limits) : q.KeepsScale l := by
  have hkept := fractional_kept h
  refine ⟨?_, ?_, ?_, ?_, ?_, ?_⟩
  · exact fun pt s r t hreach hrun => ((all_of_reaches hkept hreach).2.2 r t hrun).2
  · exact fun pt s hreach => (all_of_reaches hkept hreach).2.1
  · exact fun t hvisits => all_of_visits hkept hvisits
  · intro depth signature values s r t hreach hrun
    obtain ⟨line, houtput, htext⟩ := printed hrun
    obtain ⟨hs, hvalues, _⟩ := all_of_reaches hkept hreach
    refine ⟨line, houtput, Heap.spells_of_text? hs.elements ?_ htext⟩
    cases values with
    | nil => exact hkept.nil
    | cons v values => exact hvalues v List.mem_cons_self
  · intro depth scope info left right s line t hreach hrun
    obtain ⟨v, w, u, hleft, hright, hcomputes⟩ := added hrun
    -- Both operands are run by the plan of the sum, so that the run comes to them.
    have hreach₁ : Reaches l.rounds (program l.depth q) Store.initial (expr depth scope left) s :=
      hreach.step (.inl ⟨rfl, rfl⟩)
    have hreach₂ : Reaches l.rounds (program l.depth q) Store.initial (expr depth scope right) u :=
      hreach.step (.inr ⟨v, u, hleft, .inl ⟨rfl, rfl⟩⟩)
    obtain ⟨_, hv⟩ := (all_of_reaches hkept hreach₁).2.2 v u hleft
    obtain ⟨ht, hw⟩ := (all_of_reaches hkept hreach₂).2.2 w t hright
    cases hcomputes with
    | text ha hb =>
        exact ⟨v, w, u, _, _, hleft, hright, rfl, Heap.spells_of_text? ht.elements hv ha,
          Heap.spells_of_text? ht.elements hw hb⟩
  · intro v line hresult
    obtain ⟨s, hrun, htext⟩ := text_of_result hresult
    obtain ⟨hs, hv⟩ := (all_of_reaches hkept .refl).2.2 v s hrun
    have hend : (q.main l).run Store.initial = (.ok v, s) := hrun
    rw [hend]
    exact Heap.spells_of_text? hs.elements hv htext

/-- Prints a product, which has more digits behind the point than its factors, and a quotient, which
has as many as the dividend. -/
def scales : String :=
  "FUN main(): Integer DO LET d = 1.50; print([d * d, d / 0.5]); print(\"d = \" + d); RETURN 0; END"

theorem scales_keep_scale : ∃ q, checkedOfText scales = .ok q ∧ q.KeepsScale ⟨20, 5⟩ ∧
    (q.runWithin ⟨20, 5⟩).output = "[2.2500, 3.00]\nd = 1.50\n" := by
  have houtput : (checkedOfText scales).toOption.map (fun q => (q.runWithin ⟨20, 5⟩).output) =
      some "[2.2500, 3.00]\nd = 1.50\n" := by decide +kernel
  cases h : checkedOfText scales with
  | error e =>
      rw [h] at houtput
      cases houtput
  | ok q =>
      rw [h] at houtput
      exact ⟨q, rfl, decimals_keep_scale h _, Option.some.inj houtput⟩

end Program

end PlcLang
