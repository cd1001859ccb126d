import PlcLang.Execution.Interpreter
import PlcLang.Java
import PlcLang.Token.Cursor
import PlcLang.Tree.Parser
import PlcLang.Typing.Checker

namespace PlcLang

/-- Where a text fails on its way to a checked program. -/
inductive SourceError
  | lex (e : LexError)
  | parse (e : ParseError)
  | check (v : Violation)

abbrev Source := Except SourceError

def Source.tokens (text : String) : Source (List Token) := (Token.listOfText text).mapError .lex

def Source.read {α : Type} (p : Nat → Parser α) (text : String) : Source α := do
  (Parser.parse p (← Source.tokens text)).mapError .parse

namespace Program

def ofText (text : String) : Source Program := do
  (Program.ofTokens (← Source.tokens text)).mapError .parse

def checkedOfText (text : String) : Source Program := do
  (← Program.ofText text).check.mapError .check

end Program

namespace Expr

def ofText (text : String) : Source Expr := Source.read (fun d => (Expr.parser d).toEnd) text

end Expr

namespace Stmt

def listOfText (text : String) : Source (List Stmt) :=
  Source.read (fun d => Parser.many (fun s => !s.tokens.isEmpty) (Stmt.parser d)) text

end Stmt

namespace Function

/-- One function; what follows it is not looked at. -/
def ofText (text : String) : Source Function := Source.read Function.parser text

end Function

inductive Stage
  | parsed (p : Program)
  | checked (p : Program)

inductive NotChecked
  | run
  | emit

def NotChecked.message : NotChecked → String
  | run => "run() takes a CheckedSource; call check() first"
  | emit => "emit_java() takes a CheckedSource; call check() first"

namespace Stage

def run : Stage → Except NotChecked Program.Report
  | parsed _ => throw .run
  | checked p => return p.run

def java : Stage → Except NotChecked (Java.Result String)
  | parsed _ => throw .emit
  | checked p => return p.java

end Stage

end PlcLang
