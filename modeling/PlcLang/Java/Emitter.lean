import PlcLang.Java

namespace PlcLang

namespace Java

/-- The lines so far and the indentation level. -/
structure Emitter where
  lines : List String := []
  level : Int := 0

abbrev Emit := StateT Emitter Result

namespace Emit

def line (text : String) : Emit Unit :=
  modify fun e => { e with lines := e.lines ++ [Java.line e.level.toNat text] }

def blank : Emit Unit := modify fun e => { e with lines := e.lines ++ [""] }

def shift (steps : Int) : Emit Unit := modify fun e => { e with level := e.level + steps }

def indented (body : Emit Unit) : Emit Unit := do
  shift 1
  body
  shift (-1)

def braced (header : String) (empty : Bool) (body : Emit Unit) : Emit Unit :=
  if empty then line (header ++ " \x7b\x7d")
  else do
    line (header ++ " \x7b")
    indented body
    line "\x7d"

def entry : Emit Unit := do
  line "public static void main(String[] args) \x7b"
  indented (line "System.exit(new Main().main());")
  line "\x7d"

end Emit

end Java

open Java Emit

mutual

def Stmt.emit : Stmt → Emit Unit
  | .expression _ value => do line ((← value.java) ++ ";")
  | .declaration _ _ _ _ none => throw .missingSlot
  | .declaration _ _ _ value (some v) => do line ((← declarator v.type v.javaName value) ++ ";")
  | .assignment _ receiver value => do
    let receiver ← receiver.java
    line (receiver ++ " = " ++ (← value.java) ++ ";")
  | .ifElse _ condition thenBody elseBody => do
    line ("if (" ++ (← condition.java) ++ ") \x7b")
    indented (Stmt.emitEach thenBody)
    if !elseBody.isEmpty then
      line "\x7d else \x7b"
      indented (Stmt.emitEach elseBody)
    line "\x7d"
  | .switch _ condition cases => do
    line ("switch (" ++ (← condition.java) ++ ") \x7b")
    indented (Case.emitEach cases)
    line "\x7d"
  | .whileDo _ condition body => do
    braced ("while (" ++ (← condition.java) ++ ")") body.isEmpty (Stmt.emitEach body)
  | .ret _ none => line "return;"
  | .ret _ (some value) => do line ("return " ++ (← value.java) ++ ";")
  | .unknown _ node => throw (.unknownStatement node)

def Stmt.emitEach : List Stmt → Emit Unit
  | [] => return ()
  | stmt :: rest => do
    stmt.emit
    Stmt.emitEach rest

def Case.emit : Case → Emit Unit
  | .mk _ none body => do
    line "default:"
    indented (Stmt.emitEach body)
  | .mk _ (some value) body => do
    line ("case " ++ (← value.java) ++ ":")
    indented do
      Stmt.emitEach body
      line "break;"

def Case.emitEach : List Case → Emit Unit
  | [] => return ()
  | c :: rest => do
    c.emit
    Case.emitEach rest

end

def Global.emit (g : Global) : Emit Unit :=
  match g.slot with
  | none => throw .missingSlot
  | some v => do
    let text ← declarator v.type v.javaName g.value
    line ((if g.mutable then text else "final " ++ text) ++ ";")

def Function.emit (f : Function) : Emit Unit :=
  match f.slot with
  | none => throw .missingSlot
  | some s => braced (f.javaHeader s) f.body.isEmpty (Stmt.emitEach f.body)

def Program.emitFields (p : Program) : Emit Unit := do
  if !p.globals.isEmpty then
    p.globals.forM Global.emit
    blank

def Program.emit (p : Program) : Emit Unit := do
  line "public class Main \x7b"
  blank
  indented do
    p.emitFields
    Emit.entry
    p.functions.forM fun f => do
      blank
      f.emit
  blank
  line "\x7d"

end PlcLang
