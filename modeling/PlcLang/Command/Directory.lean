import PlcLang.Scope
import PlcLang.Text.Quoted

namespace PlcLang.Command

inductive Entry
  | file (content : ByteArray)
  | directory

abbrev Directory := Table String Entry

inductive FileError
  | missing
  | notDirectory
  | isDirectory
  | tooLong

namespace FileError

def number : FileError → Nat
  | missing => 2
  | notDirectory => 20
  | isDirectory => 21
  | tooLong => 36

def reason : FileError → String
  | missing => "No such file or directory"
  | notDirectory => "Not a directory"
  | isDirectory => "Is a directory"
  | tooLong => "File name too long"

def message (e : FileError) (name : String) : String :=
  "[Errno " ++ toString e.number ++ "] " ++ e.reason ++ ": " ++ Text.quoted name

end FileError

/-- Where a name leads: some way down from the directory, or from what is outside of it. -/
structure Spot where
  inside : Bool
  way : List String

/-- One up; from the directory itself that is outside, and from there it stays outside. -/
def Spot.up (s : Spot) : Spot :=
  if s.way.isEmpty then ⟨false, []⟩ else { s with way := s.way.dropLast }

namespace Directory

def join (way : List String) : String := "/".intercalate way

/-- What stands at the end of a way; a name that others go through is a directory. -/
def entry? (d : Directory) (way : List String) : Option Entry :=
  if way.isEmpty || d.any (·.1.startsWith (join way ++ "/")) then some .directory
  else Table.get? d (join way)

/-- All that is known of the outside: the device that holds nothing. -/
def outside : Directory := [("dev/null", .file .empty)]

def look (d : Directory) (s : Spot) : Option Entry := entry? (if s.inside then d else outside) s.way

/-- One part of a name further. Every part but the first starts from what the parts before it lead
to, which has to be a directory, whatever the part is. -/
def step (d : Directory) (s : Spot) (part : String) : Except FileError Spot :=
  match d.look s with
  | none => throw .missing
  | some (.file _) => throw .notDirectory
  | some .directory =>
    if part == "" || part == "." then return s
    else if part == ".." then return s.up
    else if 255 < part.utf8ByteSize then throw .tooLong
    else return { s with way := s.way ++ [part] }

/-- A name that begins with a slash begins outside. -/
def walk (d : Directory) : List String → Except FileError Spot
  | "" :: parts => parts.foldlM d.step ⟨false, []⟩
  | parts => parts.foldlM d.step ⟨true, []⟩

def parts (name : String) : Except FileError (List String) :=
  if 4096 ≤ name.utf8ByteSize then throw .tooLong else return name.splitOn "/"

def read (d : Directory) (name : String) : Except FileError ByteArray := do
  match d.look (← d.walk (← parts name)) with
  | none => throw .missing
  | some .directory => throw .isDirectory
  | some (.file content) => return content

/-- Where a file of this name is to be written. A slash at the end stands for a directory, also
where there is a file or nothing. -/
def target (d : Directory) (name : String) : Except FileError Spot := do
  let bare := ((← parts name).reverse.dropWhile (· == "")).reverse
  let s ← d.walk bare
  match d.look s with
  | some .directory => throw .isDirectory
  | _ => if name.endsWith "/" then throw .isDirectory else return s

def write (d : Directory) (s : Spot) (content : ByteArray) : Directory :=
  if s.inside then Table.put d (join s.way) (.file content) else d

end Directory

end PlcLang.Command
