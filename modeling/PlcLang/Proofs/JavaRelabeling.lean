import PlcLang.Java
import PlcLang.Proofs.Relabeling

namespace PlcLang

open Java

variable {ρ : Relabeling}

namespace Java

theorem outer?_relabel (e : Expr) : outer? (e.relabel ρ) = outer? e := by
  cases e <;> rfl

theorem variableName_relabel (slot : Option Variable) :
    variableName (slot.map (Variable.relabel ρ)) = variableName slot := by
  cases slot <;> rfl

theorem isList_relabel (value : Option Expr) :
    isList (value.map (Expr.relabel ρ)) = isList value := by
  cases value with
  | none => rfl
  | some e => cases e <;> rfl

end Java

mutual

theorem Expr.pieces_relabel (e : Expr) : (e.relabel ρ).pieces = e.pieces := by
  cases e with
  | literal | unknown => rw [relabel, pieces, pieces]
  | group info inner => rw [relabel, pieces, pieces, inner.pieces_relabel]
  | binary info op left right =>
      cases op <;> simp only [relabel, pieces, left.pieces_relabel, right.pieces_relabel,
        leftOperand, rightOperand, outer?_relabel]
  | access info name slot => rw [relabel, pieces, pieces, variableName_relabel]
  | element info name index slot =>
      rw [relabel, pieces, pieces, variableName_relabel, index.pieces_relabel]
  | call info name arguments slot =>
      cases slot with
      | none => rw [relabel, pieces, pieces]
      | some s => rw [relabel, pieces, pieces, Expr.piecesEach_relabel arguments]
  | list info elements => rw [relabel, pieces, pieces, Expr.piecesEach_relabel elements]

theorem Expr.piecesEach_relabel (es : List Expr) :
    piecesEach (relabelEach ρ es) = piecesEach es := by
  cases es with
  | nil => rw [relabelEach]
  | cons e es =>
      rw [relabelEach, piecesEach, piecesEach, e.pieces_relabel, Expr.piecesEach_relabel es]

end

theorem Expr.java_relabel (e : Expr) : (e.relabel ρ).java = e.java := by
  rw [java, java, pieces_relabel]

theorem Java.declarator_relabel (T : Ty) (name : String) (value : Option Expr) :
    declarator T name (value.map (Expr.relabel ρ)) = declarator T name value := by
  unfold declarator
  rw [isList_relabel]
  cases value with
  | none => rfl
  | some e => simp only [Option.map_some, Expr.java_relabel]

mutual

theorem Stmt.java_relabel (level : Nat) (x : Stmt) : (x.relabel ρ).java level = x.java level := by
  cases x with
  | expression o value => rw [Stmt.relabel, Stmt.java, Stmt.java, value.java_relabel]
  | declaration o name typeName value slot =>
      cases slot with
      | none => rw [Stmt.relabel, Option.map_none, Stmt.java, Stmt.java]
      | some v =>
          rw [Stmt.relabel, Option.map_some, Stmt.java, Stmt.java, declarator_relabel]
          rfl
  | assignment o receiver value =>
      rw [Stmt.relabel, Stmt.java, Stmt.java, receiver.java_relabel, value.java_relabel]
  | ifElse o condition thenBody elseBody =>
      have hempty : (Stmt.relabelEach ρ elseBody).isEmpty = elseBody.isEmpty := by
        rw [Stmt.relabelEach_eq_map, List.isEmpty_map]
      rw [Stmt.relabel, Stmt.java, Stmt.java, condition.java_relabel, Stmt.javaEach_relabel _ thenBody,
        Stmt.javaEach_relabel _ elseBody, hempty]
  | switch o condition cases =>
      rw [Stmt.relabel, Stmt.java, Stmt.java, condition.java_relabel, Case.javaEach_relabel _ cases]
  | whileDo o condition body =>
      rw [Stmt.relabel, Stmt.java, Stmt.java, condition.java_relabel, Stmt.javaEach_relabel _ body]
  | ret o value =>
      cases value with
      | none => rw [Stmt.relabel, Option.map_none, Stmt.java, Stmt.java]
      | some e => rw [Stmt.relabel, Option.map_some, Stmt.java, Stmt.java, e.java_relabel]
  | unknown start node => rw [Stmt.relabel, Stmt.java, Stmt.java]

theorem Stmt.javaEach_relabel (level : Nat) (xs : List Stmt) :
    Stmt.javaEach level (Stmt.relabelEach ρ xs) = Stmt.javaEach level xs := by
  cases xs with
  | nil => rw [Stmt.relabelEach]
  | cons x xs =>
      rw [Stmt.relabelEach, Stmt.javaEach, Stmt.javaEach, Stmt.java_relabel level x,
        Stmt.javaEach_relabel level xs]

theorem Case.java_relabel (level : Nat) (c : Case) : (c.relabel ρ).java level = c.java level := by
  obtain ⟨o, value, body⟩ := c
  cases value with
  | none => rw [Case.relabel, Option.map_none, Case.java, Case.java, Stmt.javaEach_relabel _ body]
  | some e =>
      rw [Case.relabel, Option.map_some, Case.java, Case.java, e.java_relabel, Stmt.javaEach_relabel _ body]

theorem Case.javaEach_relabel (level : Nat) (cs : List Case) :
    Case.javaEach level (Case.relabelEach ρ cs) = Case.javaEach level cs := by
  cases cs with
  | nil => rw [Case.relabelEach]
  | cons c cs =>
      rw [Case.relabelEach, Case.javaEach, Case.javaEach, Case.java_relabel level c,
        Case.javaEach_relabel level cs]

end

theorem Global.java_relabel (g : Global) : (g.relabel ρ).java = g.java := by
  obtain ⟨o, name, typeName, mutable, value, slot⟩ := g
  cases slot with
  | none => rfl
  | some v =>
      simp only [relabel, java, Option.map_some, declarator_relabel]
      rfl

theorem Function.java_relabel (f : Function) : (f.relabel ρ).java = f.java := by
  have hbody := Stmt.javaEach_relabel (ρ := ρ) 2 f.body
  rw [Stmt.relabelEach_eq_map] at hbody
  unfold java
  dsimp only [relabel]
  rw [hbody]
  rfl

mutual

theorem Expr.javaFrames_relabel (e : Expr) : (e.relabel ρ).javaFrames = e.javaFrames := by
  cases e with
  | literal info value => cases value <;> rfl
  | access | unknown => rfl
  | group info inner => rw [relabel, javaFrames, javaFrames, inner.javaFrames_relabel]
  | binary info op left right =>
      cases op <;>
        simp only [relabel, javaFrames, left.javaFrames_relabel, right.javaFrames_relabel]
  | element info name index slot => rw [relabel, javaFrames, javaFrames, index.javaFrames_relabel]
  | call info name arguments slot =>
      rw [relabel, javaFrames, javaFrames, Expr.javaFramesEach_relabel arguments]
  | list info elements =>
      rw [relabel, javaFrames, javaFrames, Expr.javaFramesEach_relabel elements]

theorem Expr.javaFramesEach_relabel (es : List Expr) :
    javaFramesEach (relabelEach ρ es) = javaFramesEach es := by
  cases es with
  | nil => rw [relabelEach]
  | cons e es =>
      rw [relabelEach, javaFramesEach, javaFramesEach, e.javaFrames_relabel,
        Expr.javaFramesEach_relabel es]

end

mutual

theorem Stmt.javaFrames_relabel (x : Stmt) : (x.relabel ρ).javaFrames = x.javaFrames := by
  cases x with
  | expression | assignment => simp only [Stmt.relabel, Stmt.javaFrames, Expr.javaFrames_relabel]
  | declaration offset name typeName value slot =>
      cases value <;> simp only [Stmt.relabel, Stmt.javaFrames, Option.map, Expr.javaFrames_relabel]
  | ret offset value =>
      cases value <;> simp only [Stmt.relabel, Stmt.javaFrames, Option.map, Expr.javaFrames_relabel]
  | ifElse offset condition thenBody elseBody =>
      rw [Stmt.relabel, Stmt.javaFrames, Stmt.javaFrames, condition.javaFrames_relabel,
        Stmt.javaFramesEach_relabel thenBody, Stmt.javaFramesEach_relabel elseBody]
  | switch offset condition cases =>
      rw [Stmt.relabel, Stmt.javaFrames, Stmt.javaFrames, condition.javaFrames_relabel,
        Case.javaFramesEach_relabel cases]
  | whileDo offset condition body =>
      rw [Stmt.relabel, Stmt.javaFrames, Stmt.javaFrames, condition.javaFrames_relabel,
        Stmt.javaFramesEach_relabel body]
  | unknown => rfl

theorem Stmt.javaFramesEach_relabel (xs : List Stmt) :
    Stmt.javaFramesEach (Stmt.relabelEach ρ xs) = Stmt.javaFramesEach xs := by
  cases xs with
  | nil => rw [Stmt.relabelEach]
  | cons x xs =>
      rw [Stmt.relabelEach, Stmt.javaFramesEach, Stmt.javaFramesEach, x.javaFrames_relabel,
        Stmt.javaFramesEach_relabel xs]

theorem Case.javaFrames_relabel (c : Case) : (c.relabel ρ).javaFrames = c.javaFrames := by
  obtain ⟨offset, value, body⟩ := c
  cases value <;>
    simp only [Case.relabel, Case.javaFrames, Option.map, Expr.javaFrames_relabel,
      Stmt.javaFramesEach_relabel body]

theorem Case.javaFramesEach_relabel (cs : List Case) :
    Case.javaFramesEach (Case.relabelEach ρ cs) = Case.javaFramesEach cs := by
  cases cs with
  | nil => rw [Case.relabelEach]
  | cons c cs =>
      rw [Case.relabelEach, Case.javaFramesEach, Case.javaFramesEach, c.javaFrames_relabel,
        Case.javaFramesEach_relabel cs]

end

theorem Program.javaFrames_relabel (p : Program) : (p.relabel ρ).javaFrames = p.javaFrames := by
  have hglobal (g : Global) : (g.relabel ρ).javaFrames = g.javaFrames := by
    obtain ⟨o, name, typeName, mutable, value, slot⟩ := g
    cases value with
    | none => rfl
    | some e => exact congrArg (· + 2) e.javaFrames_relabel
  have hfunction (f : Function) : (f.relabel ρ).javaFrames = f.javaFrames := by
    rw [Function.javaFrames, Function.javaFrames, Function.relabel, ← Stmt.relabelEach_eq_map,
      Stmt.javaFramesEach_relabel]
  simp only [relabel, javaFrames, List.map_map, Function.comp_def, hglobal, hfunction]

theorem Program.java_relabel (p : Program) : (p.relabel ρ).java = p.java := by
  have hglobals : (p.globals.map (Global.relabel ρ)).mapM Global.java = p.globals.mapM Global.java := by
    rw [List.mapM_map]
    simp only [Function.comp_def, Global.java_relabel]
  have hfunctions : (p.functions.map (Function.relabel ρ)).mapM Function.java =
      p.functions.mapM Function.java := by
    rw [List.mapM_map]
    simp only [Function.comp_def, Function.java_relabel]
  have htext : (p.relabel ρ).javaText = p.javaText := by
    unfold javaText javaLines
    dsimp only [relabel]
    rw [hglobals, hfunctions]
  rw [java, java, javaFrames_relabel, htext]

end PlcLang
