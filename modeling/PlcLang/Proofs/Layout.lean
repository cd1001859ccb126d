import PlcLang.Pipeline
import PlcLang.Proofs.CheckerRelabeling
import PlcLang.Proofs.JavaRelabeling
import PlcLang.Proofs.ParserRelabeling
import PlcLang.Proofs.RunRelabeling

namespace PlcLang

def SourceError.relabel (ρ : Relabeling) : SourceError → SourceError
  | lex e => lex { e with offset := ρ.place e.offset }
  | parse e => parse (e.relabel ρ)
  | check v => check (v.relabel ρ)

def SourceError.Same (e e' : SourceError) : Prop := e'.relabel .unplaced = e.relabel .unplaced

def Violation.Same (v v' : Violation) : Prop := v'.relabel .unplaced = v.relabel .unplaced

def Stop.Same (why why' : Stop) : Prop := why'.relabel .unplaced = why.relabel .unplaced

namespace Program

/-- The same tree with the same slots, but for the offsets. -/
def Same (p p' : Program) : Prop := p'.relabel .unplaced = p.relabel .unplaced

structure Report.Same (r r' : Report) : Prop where
  output : r'.output = r.output
  result : Matched Stop.Same Eq r.result r'.result

/-- Checked programs that nothing tells apart but the places that faults speak of. -/
structure Indistinct (q q' : Program) : Prop where
  same : q.Same q'
  java : q'.java = q.java
  report : ∀ l, (q.runWithin l).Same (q'.runWithin l)

variable {p p' q q' : Program}

theorem Same.check (h : p.Same p') : Matched Violation.Same Same p.check p'.check := by
  have hleft := checkWithin_alike (ρ := .unplaced) checkDepth p
  have hright := checkWithin_alike (ρ := .unplaced) checkDepth p'
  rw [h] at hright
  refine (hleft.join hright).imp ?_ ?_
  · rintro v v' ⟨_, rfl, hv⟩
    exact hv.symm
  · rintro q q' ⟨_, hq, hq'⟩
    exact hq'.symm.trans hq

theorem Same.java (h : q.Same q') : q'.java = q.java := by
  rw [← java_relabel (ρ := .unplaced) q', h, java_relabel]

theorem Same.runWithin (h : q.Same q') (hq : q.Callable) (hq' : q'.Callable) (l : Limits) :
    (q.runWithin l).Same (q'.runWithin l) := by
  have hleft := runWithin_relabel .unplaced hq l
  have hright := runWithin_relabel .unplaced hq' l
  rw [h] at hright
  refine ⟨hright.1.symm.trans hleft.1, (hleft.2.join hright.2).imp ?_ ?_⟩
  · rintro why why' ⟨_, rfl, hwhy⟩
    exact hwhy.symm
  · rintro v v' ⟨_, rfl, hv⟩
    exact hv.symm

theorem Same.indistinct (h : p.Same p') : Matched Violation.Same Indistinct p.check p'.check := by
  refine h.check.with_eq.imp (fun _ _ => id) ?_
  rintro q q' ⟨hsame, hq, hq'⟩
  exact ⟨hsame, hsame.java, hsame.runWithin (callable_of_check hq) (callable_of_check hq')⟩

/-- Two texts with the same tokens, but for where these stand, have trees that are the same but for
offsets, or are refused for the same reason. Both trees pass the check or fail it for the same
reason; checked, they have the same types, variables and functions in their slots, the same Java, and
under all limits the same output and the same value, or an end for the same reason. -/
theorem layout_irrelevant {text text' : String} {ts ts' : List Token}
    (h : Token.listOfText text = .ok ts) (h' : Token.listOfText text' = .ok ts')
    (hsame : ts.map (fun t => (t.kind, t.text)) = ts'.map fun t => (t.kind, t.text)) :
    Matched SourceError.Same Same (ofText text) (ofText text') ∧
      Matched SourceError.Same Indistinct (checkedOfText text) (checkedOfText text') := by
  have hparsed : Matched SourceError.Same Same (ofText text) (ofText text') := by
    unfold ofText Source.tokens
    rw [h, h']
    exact (ofTokens_matched hsame).mapError fun e e' he => congrArg SourceError.parse he
  refine ⟨hparsed, hparsed.bind fun p p' hp => ?_⟩
  exact hp.indistinct.mapError fun v v' hv => congrArg SourceError.check hv

theorem division_layout_irrelevant :
    let tokens := List.zipWith fun (content : TokenKind × String) offset =>
      Token.mk content.1 content.2 offset
    let contents : List (TokenKind × String) :=
      [(.identifier, "FUN"), (.identifier, "main"), (.operator, "("), (.operator, ")"),
        (.operator, ":"), (.identifier, "Integer"), (.identifier, "DO"), (.identifier, "RETURN"),
        (.integer, "1"), (.operator, "/"), (.integer, "0"), (.operator, ";"), (.identifier, "END")]
    let text := "FUN main(): Integer DO RETURN 1/0; END"
    let text' := "FUN main() : Integer DO\n  RETURN 1 / 0;\nEND"
    let ts := tokens contents [0, 4, 8, 9, 10, 12, 20, 23, 30, 31, 32, 33, 35]
    let ts' := tokens contents [0, 4, 8, 9, 11, 13, 21, 26, 33, 35, 37, 38, 40]
    Token.listOfText text = .ok ts ∧ Token.listOfText text' = .ok ts' ∧
      Matched SourceError.Same Same (ofText text) (ofText text') ∧
      Matched SourceError.Same Indistinct (checkedOfText text) (checkedOfText text') := by
  intro tokens contents text text' ts ts'
  have h : Token.listOfText text = .ok ts := by decide +kernel
  have h' : Token.listOfText text' = .ok ts' := by decide +kernel
  exact ⟨h, h', layout_irrelevant h h' rfl⟩

end Program

end PlcLang
