import PlcLang.Tree

namespace PlcLang

/-- How many calls may stand on top of each other. -/
def Java.frameLimit : Nat := 100000

mutual

/-- How many calls stand on top of each other while an expression is rendered. -/
def Expr.javaFrames : Expr → Nat
  | .literal _ (.character _) | .literal _ (.string _) => 2
  | .literal .. | .access .. | .unknown .. => 1
  | .group _ inner => inner.javaFrames + 1
  | .binary _ .pow left right => max left.javaFrames right.javaFrames + 2
  | .binary _ _ left right => max left.javaFrames right.javaFrames + 3
  | .element _ _ index _ => index.javaFrames + 1
  | .call _ _ arguments _ => Expr.javaFramesEach arguments + 2
  | .list _ elements => Expr.javaFramesEach elements + 2

def Expr.javaFramesEach : List Expr → Nat
  | [] => 0
  | e :: rest => max e.javaFrames (Expr.javaFramesEach rest)

end

mutual

def Stmt.javaFrames : Stmt → Nat
  | .expression _ value => value.javaFrames + 1
  | .declaration _ _ _ none _ => 2
  | .declaration _ _ _ (some value) _ => value.javaFrames + 2
  | .assignment _ receiver value => max receiver.javaFrames value.javaFrames + 1
  | .ifElse _ condition thenBody elseBody =>
    max condition.javaFrames
      (max (Stmt.javaFramesEach thenBody) (Stmt.javaFramesEach elseBody) + 1) + 1
  | .switch _ condition cases => max condition.javaFrames (Case.javaFramesEach cases) + 2
  | .whileDo _ condition body => max condition.javaFrames (Stmt.javaFramesEach body + 2) + 1
  | .ret _ none => 2
  | .ret _ (some value) => value.javaFrames + 1
  | .unknown .. => 1

def Stmt.javaFramesEach : List Stmt → Nat
  | [] => 0
  | stmt :: rest => max stmt.javaFrames (Stmt.javaFramesEach rest)

def Case.javaFrames : Case → Nat
  | .mk _ none body => Stmt.javaFramesEach body + 1
  | .mk _ (some value) body => max value.javaFrames (Stmt.javaFramesEach body)

def Case.javaFramesEach : List Case → Nat
  | [] => 0
  | c :: rest => max c.javaFrames (Case.javaFramesEach rest)

end

def Global.javaFrames (g : Global) : Nat :=
  match g.value with
  | none => 2
  | some e => e.javaFrames + 2

def Function.javaFrames (f : Function) : Nat := Stmt.javaFramesEach f.body + 3

/-- Six calls lead to the parts of the program. -/
def Program.javaFrames (p : Program) : Nat :=
  (p.globals.map Global.javaFrames ++ p.functions.map Function.javaFrames).foldr max 1 + 6

end PlcLang
