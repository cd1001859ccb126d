import PlcLang.Proofs.JavaTotal
import PlcLang.Proofs.PartialOperations
import PlcLang.Proofs.Rendering
import PlcLang.Proofs.SourceErrors

namespace PlcLang.Program

open Plan Point

variable {allowed : Ty → Prop} {q : Program} {l : Limits}

/-- How a run ends that has no result: in a fault, in a loop that has taken all its rounds, or with
a value of main that lists are nested too deep in. -/
inductive Ending (l : Limits) (q : Program) : Stop → Prop
  | fault (f : Fault) : Ending l q (.fault f)
  | endless {depth scope : Nat} {condition : Expr} {body : List Stmt} {s : Store} :
      Reaches l.rounds (program l.depth q) Store.initial (loop 0 depth scope condition body) s →
      Ending l q .endless
  | nested {v : Value} {s : Store} : (q.main l).run Store.initial = (.ok v, s) →
      s.heap.Nested resultDepth v → Ending l q .tooDeep

theorem stop_ordinary (hq : q.Typed (.filled allowed)) {why : Stop} {s : Store}
    (hrun : (q.main l).run Store.initial = (.error why, s)) : why.Ordinary := by
  have hends := ((resolution_kept allowed l.rounds).followed (i := ()) (initial_ready l.depth q)
    Store.initial_onlyPrints.sound ⟨rfl, hq⟩).1
  have hrun' : (program l.depth q).run l.rounds Store.initial = (.error why, s) := hrun
  rw [hrun'] at hends
  exact hends.2

theorem ending_of_result (hq : q.Typed (.filled allowed)) {why : Stop}
    (h : (q.runWithin l).result = .error why) : q.Ending l why := by
  unfold runWithin at h
  cases hrun : (q.main l).run Store.initial with
  | mk r s =>
      rw [hrun] at h
      cases r with
      | ok v =>
          dsimp only at h
          cases htext : s.heap.text? resultDepth v with
          | some text =>
              rw [htext] at h
              cases h
          | none =>
              rw [htext] at h
              cases h
              exact .nested hrun (Heap.text?_eq_none_iff_nested.mp htext)
      | error stop =>
          have hordinary := stop_ordinary hq hrun
          cases stop with
          | fault f =>
              cases h
              exact .fault f
          | tooDeep =>
              cases h
              exact .fault _
          | endless =>
              cases h
              obtain ⟨_, _, _, _, _, hreach⟩ := loop_of_endless hrun
              exact .endless hreach
          | missingSlot => exact hordinary.elim

theorem result_of_selfContaining {v : Value} {s : Store}
    (hrun : (q.main l).run Store.initial = (.ok v, s)) (hself : s.heap.SelfContaining v) :
    (q.runWithin l).result = .error .tooDeep := by
  rw [runWithin, hrun]
  simp only [hself.text?_eq_none]

/-- A list that main puts into itself and returns. -/
example :
    (match checkedOfText "FUN main(): Integer DO LET xs = [1]; xs[0] = xs; RETURN xs; END" with
      | .error _ => false
      | .ok q => (q.runWithin ⟨20, 5⟩).result matches .error .tooDeep) = true := by decide +kernel

theorem typed_of_checkedOfText {text : String} (h : checkedOfText text = .ok q) :
    q.Typed (.filled fun _ => True) := by
  obtain ⟨p, _, hcheck⟩ := checkedOfText_eq_ok.mp h
  exact typed_of_checkWithin hcheck

/-- A text leads to an error of its own kind, or to a program that can be emitted and, if its run
ends short of the limits, gives a result or a fault. The only other failures are those of rendering:
a program that takes too many calls, and a list that is in itself or in too many others. Operations
that have no result for some arguments could fail there in any way they like. -/
theorem only_language_errors (text : String) (l : Limits) :
    (∀ failure ctx depth offset,
      (∀ name typeName value,
        Stmt.partialDeclaration failure ctx depth offset name typeName value =
          Stmt.checkDeclaration ctx depth offset name typeName value) ∧
      ∀ receiver value, Stmt.partialAssignment failure ctx depth offset receiver value =
        Stmt.checkAssignment ctx depth offset receiver value) ∧
    match checkedOfText text with
    | .error e => e.Ordinary
    | .ok q =>
      (∃ java, q.javaText = .ok java ∧
        q.java = if q.javaFrames ≤ Java.frameLimit then .ok java else .error .tooDeep) ∧
      (∀ why, (q.runWithin l).result = .error why → q.Ending l why) ∧
      (∀ v s, (q.main l).run Store.initial = (.ok v, s) → s.heap.SelfContaining v →
        (q.runWithin l).result = .error .tooDeep) ∧
      ∀ failure pt s, Reaches l.rounds (program l.depth q) Store.initial pt s →
        (pt.partialPlan failure l.rounds).follow (Point.run l.rounds) s = pt.run l.rounds s := by
  refine ⟨fun _ _ _ _ => ⟨Stmt.partialDeclaration_eq, Stmt.partialAssignment_eq⟩, ?_⟩
  cases h : checkedOfText text with
  | error e => exact checkedOfText_ordinary h
  | ok q =>
      have hq := typed_of_checkedOfText h
      refine ⟨hq.emits, fun why => ending_of_result hq, fun v s => result_of_selfContaining, ?_⟩
      intro failure pt s hreach
      exact (known_of_reaches hq hreach).partialPlan_follow (closed_of_reaches hreach).1

end PlcLang.Program
