/-!
# Paths

Slash-separated paths as texts. Cleaning removes empty and `.` parts, and `..`
together with the part before it; nothing goes above the root.
-/

namespace Sequencer.Path

def isAbsolute (p : String) : Bool := p.startsWith "/"

def parts (p : String) : List String := (p.splitOn "/").filter (! ·.isEmpty)

/-- The parts of a clean path, last first. -/
def cleanParts (rooted : Bool) : List String → List String → List String
  | kept, [] => kept
  | kept, "." :: rest => cleanParts rooted kept rest
  | kept, ".." :: rest =>
    match kept with
    | [] => cleanParts rooted (if rooted then [] else [".."]) rest
    | ".." :: _ => cleanParts rooted (".." :: kept) rest
    | _ :: more => cleanParts rooted more rest
  | kept, part :: rest => cleanParts rooted (part :: kept) rest

def clean (p : String) : String :=
  let rooted := isAbsolute p
  let body := "/".intercalate (cleanParts rooted [] (parts p)).reverse
  if rooted then "/" ++ body else if body.isEmpty then "." else body

def join (dir name : String) : String :=
  if dir.isEmpty then (if name.isEmpty then "" else clean name)
  else clean (dir ++ "/" ++ name)

def base (p : String) : String :=
  if p.isEmpty then "."
  else (parts p).getLastD "/"

def dir (p : String) : String :=
  let pieces := p.splitOn "/"
  match pieces.dropLast with
  | [] => "."
  | [""] => "/"
  | before => clean ("/".intercalate before)

def extension (p : String) : String :=
  let last := (p.splitOn "/").getLastD ""
  match (last.splitOn ".").reverse with
  | _ :: [] => ""
  | ext :: _ => "." ++ ext
  | [] => ""

def stem (p : String) : String :=
  let name := base p
  let ext := extension p
  if name.endsWith ext then (name.dropEnd ext.length).toString else name

def absolute (directory p : String) : String :=
  if isAbsolute p then clean p else join directory p

/-- A path argument seen from the root: `-` and absolute paths stay as given,
and a tilde stands for the home directory. -/
def expanded (directory home p : String) : String :=
  if p = "-" || isAbsolute p then p
  else if p.startsWith "~/" then join home (p.drop 2).toString
  else absolute directory p

/-- The directories above a clean absolute path, nearest last. -/
def ancestors (p : String) : List String :=
  let names := parts p
  (List.range names.length).map fun n => "/" ++ "/".intercalate (names.take n)

/-- The paths of the directories above a clean path as it is given, each with a
slash at its end, nearest last. -/
def above (p : String) : List String :=
  let names := parts p
  let root := if isAbsolute p then "/" else ""
  (List.range (names.length - 1)).map fun n =>
    root ++ "/".intercalate (names.take (n + 1)) ++ "/"

end Sequencer.Path
