import Mathlib.Data.Int.ModEq
import PlcLang.Command
import PlcLang.Proofs.NestedResults
import PlcLang.Proofs.PipelineErrors
import PlcLang.Proofs.PrintedLines

namespace PlcLang

namespace Command

namespace Phase

def name : Phase → String
  | lex => "lex"
  | parse => "parse"
  | check => "check"

def rank : Phase → Nat
  | lex => 0
  | parse => 1
  | check => 2

def written (tokens : List Token) : Phase → String
  | lex => String.join (tokens.map tokenLine)
  | parse | check => ""

end Phase

inductive Mode
  | stop (last : Phase)
  | emit
  | run

end Command

namespace SourceError

open Command (Phase)

def phase : SourceError → Phase
  | lex _ => .lex
  | parse _ => .parse
  | check _ => .check

def message : SourceError → String
  | lex e => e.message
  | parse e => e.message
  | check v => v.message

end SourceError

namespace Command

def logged (o : Options) (entries : List String) : String :=
  if o.verbose then textOfLines entries else ""

/-- The command leaves the output and the status, and says no more than the message, apart from the
log. -/
structure Effect.Leaves (o : Options) (out message : String) (status : Option Nat) (e : Effect) :
    Prop where
  out : e.out = out
  err : ∃ entries, e.err = logged o entries ++ message
  status : e.status = status

namespace Effect

variable {o : Options} {q : Program} {out message : String} {status : Option Nat} {e : Effect}

/-- What a plain run leaves, by the way in which main comes to its end. The status is the number
that main returns, modulo 256. There is none if main returns a value that lists are nested too deep
in, nor for a loop that has taken all its rounds. -/
def Ends (o : Options) (q : Program) (out : String) (e : Effect) :
    Except Stop Value × Store → Prop
  | (.ok (.integer m), _) =>
    ∃ k : Nat, k < 256 ∧ (k : Int) ≡ m [ZMOD 256] ∧ e.Leaves o out "" (some k)
  | (.ok v, s) =>
    ¬ s.heap.Nested Program.resultDepth v ∧
        e.Leaves o out (complaint ("main returned " ++ v.typeName)) (some 1) ∨
      s.heap.Nested Program.resultDepth v ∧ e.Leaves o out "" none
  | (.error (.fault f), _) => e.Leaves o out (complaint ("runtime error: " ++ f.message)) (some 1)
  | (.error .tooDeep, _) =>
    e.Leaves o out (complaint ("runtime error: " ++ FaultCause.callDepth.message)) (some 1)
  | (.error why, _) => q.Ending .standard why ∧ e.Leaves o out "" none

def Stops (o : Options) (text : String) (last : Phase) (e : Effect) : Prop :=
  ∃ tokens, Token.listOfText text = .ok tokens ∧ e.Leaves o (last.written tokens) "" (some 0)

/-- What each mode leaves of a text that leads to a checked program. -/
def Follows (o : Options) (text : String) (q : Program) (e : Effect) : Mode → Prop
  | .stop last => e.Stops o text last
  | .emit => ∃ java, q.javaText = .ok java ∧ if q.javaFrames ≤ Java.frameLimit then
      e.Leaves o java "" (some 0) else e.Leaves o "" "" none
  | .run => ∃ lines, q.Printed .standard lines ((q.main .standard).run Store.initial).2 ∧
    q.run.output = textOfLines lines ∧
    e.Ends o q (textOfLines lines) ((q.main .standard).run Store.initial)

end Effect

section Process

variable {o : Options} {text : String} {tokens : List Token} {p q : Program}

end Process

/-- What was printed before a fault stays. -/
example : (process {} "FUN main(): Integer DO print(1); RETURN 1 / 0; END").out = "1\n" := by
  decide +kernel

example : (process {} "FUN main(): Integer DO print(1); RETURN -257; END").status = some 255 := by
  decide +kernel

end Command

end PlcLang
