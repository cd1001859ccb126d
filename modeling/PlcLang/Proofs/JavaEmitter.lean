import PlcLang.Java.Emitter
import PlcLang.Proofs.JavaTotal

namespace PlcLang

open Java Emit

theorem Java.line_zero (text : String) : Java.line 0 text = text := String.empty_append

/-- At the level, the part adds the lines, or fails where they cannot be had, and leaves the level
as it was. -/
def Java.Writes (level : Nat) (m : Emit Unit) (lines : Result (List String)) : Prop :=
  ∀ before, m ⟨before, level⟩ = lines.map fun new => ((), ⟨before ++ new, level⟩)

namespace Java.Writes

variable {n : Nat} {m m' : Emit Unit} {lines lines' : Result (List String)} {α β : Type}

theorem of_eq (h : Writes n m lines) (heq : lines = lines') : Writes n m lines' := heq ▸ h

theorem line (text : String) : Writes n (Emit.line text) (pure [Java.line n text]) := fun _ => rfl

theorem blank : Writes n Emit.blank (pure [""]) := fun _ => rfl

theorem nothing : Writes n (pure ()) (pure []) := by
  intro before
  change _ = Except.ok ((), Emitter.mk (before ++ []) n)
  rw [List.append_nil]
  rfl

theorem throw (why : JavaFailure) : Writes n (throw why) (throw why) := fun _ => rfl

theorem bind (x : Result α) {k : α → Emit Unit} {lines : α → Result (List String)}
    (h : ∀ a, Writes n (k a) (lines a)) : Writes n (liftM x >>= k) (x >>= lines) := by
  intro before
  cases x with
  | error why => rfl
  | ok a => exact h a before

theorem andThen (h : Writes n m lines) (h' : Writes n m' lines') :
    Writes n (m >>= fun _ => m') (do return (← lines) ++ (← lines')) := by
  intro before
  change (m ⟨before, n⟩ >>= fun r => m' r.2) = _
  rw [h]
  cases lines with
  | error why => rfl
  | ok new =>
      change m' ⟨before ++ new, n⟩ = Except.map _ (lines' >>= fun new' => pure (new ++ new'))
      rw [h']
      cases lines' with
      | error why => rfl
      | ok new' => exact congrArg (fun ls => Except.ok ((), Emitter.mk ls n)) (List.append_assoc ..)

theorem indented (h : Writes (n + 1) m lines) : Writes n (Emit.indented m) lines := by
  intro before
  change (m ⟨before, ((n + 1 : Nat) : Int)⟩ >>= fun r => Emit.shift (-1) r.2) = _
  rw [h]
  cases lines with
  | error why => rfl
  | ok new =>
      have hlevel : ((n + 1 : Nat) : Int) + -1 = n := by omega
      exact congrArg (fun level => Except.ok ((), Emitter.mk (before ++ new) level)) hlevel

theorem entry : Writes 1 Emit.entry (pure Java.entry) :=
  (line _).andThen ((line _).indented.andThen (line _))

theorem forM {f : α → Emit Unit} {g : α → Result β} {k : β → List String}
    (h : ∀ a, Writes n (f a) (do return k (← g a))) (as : List α) :
    Writes n (as.forM f) (do return (← as.mapM g).flatMap k) := by
  induction as with
  | nil => exact nothing
  | cons a as ih =>
      change Writes n (f a >>= fun _ => as.forM f) _
      refine ((h a).andThen ih).of_eq ?_
      simp only [List.mapM_cons, bind_assoc, pure_bind, List.flatMap_cons]

end Java.Writes

/-- What statements that stand in one line have there. -/
inductive Stmt.Sentence : Stmt → String → Prop
  | expression {offset : Nat} {value : Expr} {text : String} :
      value.java = .ok text → Sentence (.expression offset value) (text ++ ";")
  | declaration {offset : Nat} {name : String} {typeName : Option String} {value : Option Expr}
      {v : Variable} {text : String} :
      declarator v.type v.javaName value = .ok text →
      Sentence (.declaration offset name typeName value (some v)) (text ++ ";")
  | assignment {offset : Nat} {receiver value : Expr} {left right : String} :
      receiver.java = .ok left → value.java = .ok right →
      Sentence (.assignment offset receiver value) (left ++ " = " ++ right ++ ";")
  | bareReturn {offset : Nat} : Sentence (.ret offset none) "return;"
  | valueReturn {offset : Nat} {value : Expr} {text : String} :
      value.java = .ok text → Sentence (.ret offset (some value)) ("return " ++ text ++ ";")

inductive Stmt.Lines (n : Nat) : Stmt → List String → Prop
  | sentence {x : Stmt} {text : String} : x.Sentence text → Lines n x [Java.line n text]
  | ifElse {offset : Nat} {condition : Expr} {thenBody elseBody : List Stmt} {text : String}
      {thenLines elseLines : List String} :
      condition.java = .ok text → javaEach (n + 1) thenBody = .ok thenLines →
      javaEach (n + 1) elseBody = .ok elseLines →
      Lines n (.ifElse offset condition thenBody elseBody)
        (Java.line n ("if (" ++ text ++ ") \x7b") :: thenLines ++
          (if elseBody.isEmpty then [] else Java.line n "\x7d else \x7b" :: elseLines) ++
          [Java.line n "\x7d"])
  | switch {offset : Nat} {condition : Expr} {cases : List Case} {text : String}
      {body : List String} :
      condition.java = .ok text → Case.javaEach (n + 1) cases = .ok body →
      Lines n (.switch offset condition cases)
        (Java.line n ("switch (" ++ text ++ ") \x7b") :: body ++ [Java.line n "\x7d"])
  | whileDo {offset : Nat} {condition : Expr} {body : List Stmt} {text : String}
      {bodyLines : List String} :
      condition.java = .ok text → javaEach (n + 1) body = .ok bodyLines →
      Lines n (.whileDo offset condition body)
        (inBraces n ("while (" ++ text ++ ")") bodyLines)

namespace Stmt

variable {n : Nat} {x : Stmt} {xs : List Stmt} {ls : List String}

theorem lines_of_java (h : x.java n = .ok ls) : x.Lines n ls := by
  cases x with
  | expression =>
      simp only [java, bind_eq_ok, pure_eq_ok] at h
      obtain ⟨text, htext, rfl⟩ := h
      exact .sentence (.expression htext)
  | declaration offset name typeName value slot =>
      cases slot with
      | none =>
          rw [java] at h
          cases h
      | some v =>
          simp only [java, bind_eq_ok, pure_eq_ok] at h
          obtain ⟨text, htext, rfl⟩ := h
          exact .sentence (.declaration htext)
  | assignment =>
      simp only [java, bind_eq_ok, pure_eq_ok] at h
      obtain ⟨left, hleft, right, hright, rfl⟩ := h
      exact .sentence (.assignment hleft hright)
  | ifElse =>
      simp only [java, bind_eq_ok, pure_eq_ok] at h
      obtain ⟨text, htext, thenLines, hthen, elseLines, helse, rfl⟩ := h
      exact .ifElse htext hthen helse
  | switch =>
      simp only [java, bind_eq_ok, pure_eq_ok] at h
      obtain ⟨text, htext, body, hbody, rfl⟩ := h
      exact .switch htext hbody
  | whileDo =>
      simp only [java, bind_eq_ok, pure_eq_ok] at h
      obtain ⟨text, htext, body, hbody, rfl⟩ := h
      exact .whileDo htext hbody
  | ret offset value =>
      cases value with
      | none =>
          rw [java, pure_eq_ok] at h
          subst h
          exact .sentence .bareReturn
      | some value =>
          simp only [java, bind_eq_ok, pure_eq_ok] at h
          obtain ⟨text, htext, rfl⟩ := h
          exact .sentence (.valueReturn htext)
  | unknown =>
      rw [java] at h
      cases h

theorem Lines.ne_nil (h : x.Lines n ls) : ls ≠ [] := by
  cases h with
  | sentence | ifElse | switch => exact List.cons_ne_nil _ _
  | whileDo =>
      rw [inBraces]
      split
      · exact List.cons_ne_nil _ _
      · exact List.cons_ne_nil _ _

theorem javaEach_cons_ne_nil (h : javaEach n (x :: xs) = .ok ls) : ls ≠ [] := by
  simp only [javaEach, bind_eq_ok, pure_eq_ok] at h
  obtain ⟨first, hfirst, rest, _, rfl⟩ := h
  exact List.append_ne_nil_of_left_ne_nil (lines_of_java hfirst).ne_nil rest

/-- Whether the braces have lines of their own is told from the statements as from their lines. -/
theorem braced_writes (header : String)
    (h : Writes (n + 1) (emitEach xs) (javaEach (n + 1) xs)) :
    Writes n (braced header xs.isEmpty (emitEach xs)) (do
      return inBraces n header (← javaEach (n + 1) xs)) := by
  cases xs with
  | nil =>
      rw [javaEach]
      exact Writes.line _
  | cons x xs =>
      refine ((Writes.line _).andThen (h.indented.andThen (.line _))).of_eq ?_
      cases hlines : javaEach (n + 1) (x :: xs) with
      | error why => rfl
      | ok ls =>
          obtain ⟨l, ls, rfl⟩ := List.exists_cons_of_ne_nil (javaEach_cons_ne_nil hlines)
          rfl

end Stmt

mutual

theorem Stmt.emit_writes (x : Stmt) (n : Nat) : Writes n x.emit (x.java n) := by
  cases x with
  | expression offset value =>
      rw [Stmt.emit, Stmt.java]
      exact .bind value.java fun text => .line (text ++ ";")
  | declaration offset name typeName value slot =>
      cases slot with
      | none =>
          rw [Stmt.emit, Stmt.java]
          exact .throw _
      | some v =>
          rw [Stmt.emit, Stmt.java]
          exact .bind (declarator v.type v.javaName value) fun text => .line (text ++ ";")
  | assignment offset receiver value =>
      rw [Stmt.emit, Stmt.java]
      exact .bind receiver.java fun left => .bind value.java fun right =>
        .line (left ++ " = " ++ right ++ ";")
  | ifElse offset condition thenBody elseBody =>
      have hthen := (Stmt.emitEach_writes thenBody (n + 1)).indented
      have helse := (Stmt.emitEach_writes elseBody (n + 1)).indented
      rw [Stmt.emit, Stmt.java]
      refine .bind condition.java fun text => ?_
      cases elseBody with
      | nil =>
          refine ((Writes.line _).andThen (hthen.andThen
            (Writes.nothing.andThen (.line _)))).of_eq ?_
          simp [Stmt.javaEach]
      | cons y ys =>
          refine ((Writes.line _).andThen (hthen.andThen
            (((Writes.line _).andThen helse).andThen (.line _)))).of_eq ?_
          simp
  | switch offset condition cases =>
      rw [Stmt.emit, Stmt.java]
      refine .bind condition.java fun text => ?_
      have hcases := (Case.emitEach_writes cases (n + 1)).indented
      refine ((Writes.line _).andThen (hcases.andThen (.line _))).of_eq ?_
      simp
  | whileDo offset condition body =>
      rw [Stmt.emit, Stmt.java]
      exact .bind condition.java fun text =>
        Stmt.braced_writes _ (Stmt.emitEach_writes body (n + 1))
  | ret offset value =>
      cases value with
      | none =>
          rw [Stmt.emit, Stmt.java]
          exact .line _
      | some value =>
          rw [Stmt.emit, Stmt.java]
          exact .bind value.java fun text => .line ("return " ++ text ++ ";")
  | unknown start node =>
      rw [Stmt.emit, Stmt.java]
      exact .throw _

theorem Stmt.emitEach_writes (xs : List Stmt) (n : Nat) :
    Writes n (Stmt.emitEach xs) (Stmt.javaEach n xs) := by
  cases xs with
  | nil =>
      rw [Stmt.emitEach, Stmt.javaEach]
      exact .nothing
  | cons x xs =>
      rw [Stmt.emitEach, Stmt.javaEach]
      exact (Stmt.emit_writes x n).andThen (Stmt.emitEach_writes xs n)

theorem Case.emit_writes (c : Case) (n : Nat) : Writes n c.emit (c.java n) := by
  obtain ⟨offset, value, body⟩ := c
  have hbody := Stmt.emitEach_writes body (n + 1)
  cases value with
  | none =>
      rw [Case.emit, Case.java]
      refine ((Writes.line _).andThen hbody.indented).of_eq ?_
      simp
  | some value =>
      rw [Case.emit, Case.java]
      refine .bind value.java fun text => ?_
      refine ((Writes.line _).andThen (hbody.andThen (.line _)).indented).of_eq ?_
      simp

theorem Case.emitEach_writes (cs : List Case) (n : Nat) :
    Writes n (Case.emitEach cs) (Case.javaEach n cs) := by
  cases cs with
  | nil =>
      rw [Case.emitEach, Case.javaEach]
      exact .nothing
  | cons c cs =>
      rw [Case.emitEach, Case.javaEach]
      exact (Case.emit_writes c n).andThen (Case.emitEach_writes cs n)

end

theorem Global.emit_writes (g : Global) : Writes 1 g.emit (do return [← g.java]) := by
  rw [Global.emit, Global.java]
  cases g.slot with
  | none => exact .throw _
  | some v =>
      refine (Writes.bind (declarator v.type v.javaName g.value) fun text => .line _).of_eq ?_
      simp

theorem Function.emit_writes (f : Function) : Writes 1 f.emit f.java := by
  rw [Function.emit, Function.java]
  cases f.slot with
  | none => exact .throw _
  | some s => exact Stmt.braced_writes _ (Stmt.emitEach_writes f.body 2)

theorem Program.emitFields_writes (p : Program) : Writes 1 p.emitFields (do
    let globals ← p.globals.mapM Global.java
    return if globals.isEmpty then [] else globals ++ [""]) := by
  rw [Program.emitFields]
  cases p.globals with
  | nil => exact .nothing
  | cons g gs =>
      refine ((Writes.forM Global.emit_writes (g :: gs)).andThen .blank).of_eq ?_
      simp

/-- The emitter writes the lines of the program and ends at the level at which it began. -/
theorem Program.emit_writes (p : Program) : Writes 0 p.emit p.javaLines := by
  have hfunctions : Writes 1 (p.functions.forM fun f => do
      blank
      f.emit) (do return (← p.functions.mapM Function.java).flatMap ("" :: ·)) :=
    .forM (fun f => (Writes.blank.andThen f.emit_writes).of_eq (by simp)) p.functions
  have hmembers := (p.emitFields_writes.andThen (Writes.entry.andThen hfunctions)).indented
  rw [Program.emit, Program.javaLines]
  refine ((Writes.line _).andThen (Writes.blank.andThen
    (hmembers.andThen (Writes.blank.andThen (.line _))))).of_eq ?_
  simp [line_zero]

section Indentation

variable (n : Nat)

theorem Java.pushn_eq (c : Char) (n : Nat) : "".pushn c n = String.ofList (List.replicate n c) := by
  induction n with
  | zero => rfl
  | succ n ih =>
      rw [List.replicate_succ', String.ofList_append, ← ih]
      rfl

theorem Java.toList_line (text : String) :
    (Java.line n text).toList = List.replicate (4 * n) ' ' ++ text.toList := by
  rw [line, pushn_eq, String.toList_append, String.toList_ofList]

theorem Java.line_line (k : Nat) (text : String) :
    Java.line n (Java.line k text) = Java.line (k + n) text := by
  apply String.toList_injective
  simp only [toList_line, ← List.append_assoc, List.replicate_append_replicate]
  rw [Nat.mul_add, Nat.add_comm]

theorem Java.inBraces_indented (k : Nat) (header : String) (body : List String) :
    (inBraces k header body).map (Java.line n) =
      inBraces (k + n) header (body.map (Java.line n)) := by
  cases body with
  | nil => exact congrArg (fun l => [l]) (line_line n k _)
  | cons l ls => simp [inBraces, line_line]

mutual

theorem Stmt.java_indented (x : Stmt) (k : Nat) :
    x.java (k + n) = List.map (Java.line n) <$> x.java k := by
  cases x with
  | expression | assignment => simp [Stmt.java, line_line]
  | declaration offset name typeName value slot =>
      cases slot with
      | none =>
          rw [Stmt.java, Stmt.java]
          rfl
      | some v => simp [Stmt.java, line_line]
  | ifElse offset condition thenBody elseBody =>
      have hthen := Stmt.javaEach_indented thenBody (k + 1)
      have helse := Stmt.javaEach_indented elseBody (k + 1)
      rw [Nat.add_right_comm] at hthen helse
      cases elseBody <;> simp [Stmt.java, hthen, helse, line_line]
  | switch offset condition cases =>
      have hcases := Case.javaEach_indented cases (k + 1)
      rw [Nat.add_right_comm] at hcases
      simp [Stmt.java, hcases, line_line]
  | whileDo offset condition body =>
      have hbody := Stmt.javaEach_indented body (k + 1)
      rw [Nat.add_right_comm] at hbody
      simp [Stmt.java, hbody, inBraces_indented]
  | ret offset value => cases value <;> simp [Stmt.java, line_line]
  | unknown start node =>
      rw [Stmt.java, Stmt.java]
      rfl

theorem Stmt.javaEach_indented (xs : List Stmt) (k : Nat) :
    Stmt.javaEach (k + n) xs = List.map (Java.line n) <$> Stmt.javaEach k xs := by
  cases xs with
  | nil => simp [Stmt.javaEach]
  | cons x xs =>
      simp [Stmt.javaEach, Stmt.java_indented x, Stmt.javaEach_indented xs]

theorem Case.java_indented (c : Case) (k : Nat) :
    c.java (k + n) = List.map (Java.line n) <$> c.java k := by
  obtain ⟨offset, value, body⟩ := c
  have hbody := Stmt.javaEach_indented body (k + 1)
  rw [Nat.add_right_comm] at hbody
  cases value <;> simp [Case.java, hbody, line_line, Nat.add_right_comm]

theorem Case.javaEach_indented (cs : List Case) (k : Nat) :
    Case.javaEach (k + n) cs = List.map (Java.line n) <$> Case.javaEach k cs := by
  cases cs with
  | nil => simp [Case.javaEach]
  | cons c cs => simp [Case.javaEach, Case.java_indented c, Case.javaEach_indented cs]

end

end Indentation

end PlcLang
