namespace PlcLang.Command

inductive Phase
  | lex
  | parse
  | check
deriving DecidableEq

def Phase.ofName? : String → Option Phase
  | "lex" => some lex
  | "parse" => some parse
  | "check" => some check
  | _ => none

structure Options where
  /-- The source; an empty name or a dash is the standard input. -/
  file : String := ""
  stopAt : Option Phase := none
  java : Bool := false
  /-- The output file; an empty name is the standard output. -/
  output : String := ""
  verbose : Bool := false

inductive Misuse
  | noValue (flag : String)
  | unknownPhase (name : String)
  | unknownTarget (name : String)
  | unknownFlag (flag : String)
  | surplus (argument : String)
  | exclusive

def Misuse.message : Misuse → String
  | noValue flag => flag ++ " requires a value"
  | unknownPhase name => "unknown phase '" ++ name ++ "'"
  | unknownTarget name => "unknown target '" ++ name ++ "'"
  | unknownFlag flag => "unknown flag '" ++ flag ++ "'"
  | surplus argument => "unexpected argument '" ++ argument ++ "'"
  | exclusive => "--stop-at and --emit are mutually exclusive"

inductive Request
  | help
  | wrong (m : Misuse)
  | go (options : Options)

def usage : String :=
  "plc [OPTIONS] [FILE]\n\n" ++
  "Run a PLC program. Reads FILE, or stdin when FILE is absent or '-'.\n" ++
  "The exit status is main's result, masked to 0-255.\n\n" ++
  "Options:\n" ++
  "  --stop-at PHASE    Stop after PHASE (lex, parse, check); lex prints tokens\n" ++
  "  --emit java        Print the Java translation instead of running\n" ++
  "  -o, --output FILE  Write output to FILE instead of stdout\n" ++
  "  --verbose          Log pipeline stages to stderr\n" ++
  "  --help             Show this help message\n"

def takesValue (flag : String) : Bool := ["--stop-at", "--emit", "-o", "--output"].contains flag

def withValue (o : Options) (flag value : String) : Except Misuse Options :=
  if flag == "--stop-at" then
    match Phase.ofName? value with
    | some phase => return { o with stopAt := some phase }
    | none => throw (.unknownPhase value)
  else if flag == "--emit" then
    if value == "java" then return { o with java := true } else throw (.unknownTarget value)
  else return { o with output := value }

/-- Reads the arguments from left to right; the first that asks for help or is wrong decides. -/
def read (o : Options) : List String → Request
  | [] => if o.stopAt.isSome && o.java then .wrong .exclusive else .go o
  | argument :: rest =>
    if argument == "--help" || argument == "-h" then .help
    else if argument == "--verbose" then read { o with verbose := true } rest
    else if takesValue argument then
      match rest with
      | [] => .wrong (.noValue argument)
      | value :: rest =>
        match withValue o argument value with
        | .ok o => read o rest
        | .error m => .wrong m
    else if argument.startsWith "-" && argument != "-" then .wrong (.unknownFlag argument)
    else if o.file == "" then read { o with file := argument } rest
    else .wrong (.surplus argument)

end PlcLang.Command
