import PlcLang.Command

namespace PlcLang.Main

open Command

def fileError : IO.Error → FileError
  | .noFileOrDirectory .. => .missing
  | .inappropriateType _ code _ => if code.toNat = 20 then .notDirectory else .isDirectory
  | .invalidArgument .. => .tooLong
  | _ => .isDirectory

def complain (text : String) (status : UInt32) : IO UInt32 := do
  IO.eprint text
  return status

def loadSource (o : Options) : IO (Except String String) := do
  if fromInput o then return .ok (← (← IO.getStdin).readToEnd)
  try
    let handle ← IO.FS.Handle.mk o.file .read
    match String.fromUTF8? (← handle.readBinToEnd) with
    | some text => return .ok text
    | none => return .error (encodingComplaint o.file)
  catch e => return .error (sourceComplaint o.file (fileError e))

def deliver (e : Effect) (out : String → IO Unit) : IO UInt32 := do
  out e.out
  IO.eprint e.err
  match e.status with
  | some n => return n.toUInt32
  | none => complain (complaint "the result of main has no text") 1

def execute (o : Options) (text : String) : IO UInt32 := do
  if o.output == "" then deliver (Command.process o text) IO.print
  else
    try
      IO.FS.writeFile o.output ""
      deliver (Command.process o text) (IO.FS.writeFile o.output)
    catch e => complain (outputComplaint o.output (fileError e)) 1

end PlcLang.Main

open PlcLang Command in
def main (arguments : List String) : IO UInt32 := do
  match read {} arguments with
  | .help =>
    IO.print usage
    return 0
  | .wrong m => Main.complain (complaint m.message) 2
  | .go o =>
    match ← Main.loadSource o with
    | .error err => Main.complain err 1
    | .ok text => Main.execute o text
