import PlcLang.Command.Directory
import PlcLang.Command.Options
import PlcLang.Pipeline

namespace PlcLang.Command

structure Effect where
  /-- What goes to the chosen output. -/
  out : String := ""
  err : String := ""
  /-- There is no status if the result of main has no text. -/
  status : Option Nat

def complaint (message : String) : String := "plc: " ++ message ++ "\n"

def failed (err : String) (status : Nat) : Effect := ⟨"", err, some status⟩

/-- The lines of the log so far, which is kept only if it is wanted. -/
def log (o : Options) (entry : String) : String := if o.verbose then entry ++ "\n" else ""

def lexedEntry (tokens : List Token) : String :=
  "plc.tokens: lexed " ++ toString tokens.length ++ " tokens"

def parsedEntry (p : Program) : String :=
  "plc.parse: parsed " ++ toString p.globals.length ++ " globals, " ++
    toString p.functions.length ++ " functions"

def checkedEntry (p : Program) : String :=
  "plc.check: checked " ++ toString p.functions.length ++ " functions"

def returnedEntry (text : String) : String := "plc.runtime: main returned " ++ text

def emittedEntry (text : String) : String :=
  "plc.emit: emitted " ++ toString (text.toList.count '\n') ++ " lines of Java"

def tokenLine (t : Token) : String := t.kind.name ++ " " ++ t.text ++ "\n"

/-- The status is what main returns, modulo 256. -/
def report (o : Options) (logged : String) (r : Program.Report) : Effect :=
  match r.result with
  | .ok (.integer n, text) =>
    ⟨r.output, logged ++ log o (returnedEntry text), some (n % 256).toNat⟩
  | .ok (v, text) =>
    ⟨r.output,
      logged ++ log o (returnedEntry text) ++ complaint ("main returned " ++ v.typeName), some 1⟩
  | .error (.fault f) => ⟨r.output, logged ++ complaint ("runtime error: " ++ f.message), some 1⟩
  | .error _ => ⟨r.output, logged, none⟩

def finish (o : Options) (logged : String) (p : Program) : Effect :=
  if o.stopAt = some .check then ⟨"", logged, some 0⟩
  else if o.java then
    match p.java with
    | .ok text => ⟨text, logged ++ log o (emittedEntry text), some 0⟩
    | .error _ => ⟨"", logged, none⟩
  else report o logged p.run

/-- The phases on a text, up to the one wanted or the first that fails. -/
def process (o : Options) (text : String) : Effect :=
  match Token.listOfText text with
  | .error e => failed (complaint ("lex error: " ++ e.message)) 1
  | .ok tokens =>
    let logged := log o (lexedEntry tokens)
    if o.stopAt = some .lex then ⟨String.join (tokens.map tokenLine), logged, some 0⟩
    else
      match Program.ofTokens tokens with
      | .error e => failed (logged ++ complaint ("parse error: " ++ e.message)) 1
      | .ok p =>
        let logged := logged ++ log o (parsedEntry p)
        if o.stopAt = some .parse then ⟨"", logged, some 0⟩
        else
          match p.check with
          | .error v => failed (logged ++ complaint ("check error: " ++ v.message)) 1
          | .ok p => finish o (logged ++ log o (checkedEntry p)) p

/-- A missing source is told without its number. -/
def sourceComplaint (name : String) : FileError → String
  | .missing => complaint (name ++ ": " ++ FileError.missing.reason)
  | e => complaint (name ++ ": " ++ e.message name)

def outputComplaint (name : String) (e : FileError) : String :=
  complaint (name ++ ": " ++ e.message name)

def encodingComplaint (name : String) : String := complaint (name ++ ": invalid utf-8")

def fromInput (o : Options) : Bool := o.file == "" || o.file == "-"

def source (o : Options) (input : String) (d : Directory) : Except String String :=
  if fromInput o then return input
  else
    match d.read o.file with
    | .error e => throw (sourceComplaint o.file e)
    | .ok content =>
      match String.fromUTF8? content with
      | some text => return text
      | none => throw (encodingComplaint o.file)

/-- What the command leaves, standard output and files told apart. -/
structure World where
  out : String
  err : String
  status : Option Nat
  files : Directory

/-- The output goes to a file, if one is named, whatever the status. -/
def deliver (target : Option Spot) (e : Effect) (d : Directory) : World :=
  match target with
  | none => ⟨e.out, e.err, e.status, d⟩
  | some spot => ⟨"", e.err, e.status, d.write spot e.out.toUTF8⟩

def outputFile (o : Options) (d : Directory) : Except FileError (Option Spot) :=
  if o.output == "" then return none else return some (← d.target o.output)

def run (arguments : List String) (input : String) (d : Directory) : World :=
  match read {} arguments with
  | .help => ⟨usage, "", some 0, d⟩
  | .wrong m => ⟨"", complaint m.message, some 2, d⟩
  | .go o =>
    match source o input d with
    | .error err => ⟨"", err, some 1, d⟩
    | .ok text =>
      match outputFile o d with
      | .error e => ⟨"", outputComplaint o.output e, some 1, d⟩
      | .ok target => deliver target (process o text) d

end PlcLang.Command
