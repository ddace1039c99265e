import Sequencer.Assoc
import Sequencer.Command.Path

/-!
# Files

What the commands need of a file system, and a file system that is a value:
files by their absolute paths, with the directories that hold them.
-/

namespace Sequencer

inductive FileProblem where
  | notFound | notDirectory | isDirectory | alreadyExists | nameTooLong | invalidPath
  | other (text : String)
  deriving DecidableEq, Repr

def FileProblem.text : FileProblem → String
  | .notFound => "no such file or directory"
  | .notDirectory => "not a directory"
  | .isDirectory => "is a directory"
  | .alreadyExists => "file exists"
  | .nameTooLong => "file name too long"
  | .invalidPath => "invalid argument"
  | .other text => text

structure FileError where
  action : String
  path : String
  problem : FileProblem
  deriving DecidableEq, Repr

def FileError.message (e : FileError) : String :=
  e.action ++ " " ++ e.path ++ ": " ++ e.problem.text

inductive FileKind where
  | file | directory
  deriving DecidableEq, Repr

structure FileSystem (m : Type → Type) where
  workingDirectory : String
  homeDirectory : String
  kind : String → m (Except FileError FileKind)
  read : String → m (Except FileError ByteArray)
  /-- Creates the file or empties it, and writes. -/
  write : String → ByteArray → m (Except FileError Unit)
  /-- Creates the file if need be, and writes at its end. -/
  append : String → ByteArray → m (Except FileError Unit)
  makeDirectories : String → m (Except FileError Unit)

def FileSystem.expanded {m : Type → Type} (fs : FileSystem m) (path : String) : String :=
  Path.expanded fs.workingDirectory fs.homeDirectory path

structure FileTree where
  workingDirectory : String
  files : Assoc String ByteArray := {}
  directories : List String := []

namespace FileTree

def isDirectory (t : FileTree) (p : String) : Bool :=
  p == "/" || t.directories.contains p || (Path.ancestors t.workingDirectory).contains p ||
    p == t.workingDirectory || t.files.keys.any fun f => (Path.ancestors f).contains p

def kindOf? (t : FileTree) (p : String) : Option FileKind :=
  if t.files.contains p then some .file
  else if t.isDirectory p then some .directory
  else none

/-- The longest name of a file and the longest path, in bytes. -/
def nameLimit : Nat := 255

def pathLimit : Nat := 4095

/-- Follows the names of a path from a place. Only the last one may name
nothing. -/
def locate (t : FileTree) : String → List String → Except FileProblem String
  | place, [] => .ok place
  | place, name :: rest =>
    match t.kindOf? place with
    | none => .error .notFound
    | some .file => .error .notDirectory
    | some .directory =>
      if name = "." then t.locate place rest
      else if name = ".." then t.locate (Path.dir place) rest
      else if nameLimit < name.utf8ByteSize then .error .nameTooLong
      else t.locate (Path.join place name) rest

def placeOf (t : FileTree) (path : String) : Except FileProblem String :=
  if path.toList.contains (Char.ofNat 0) then .error .invalidPath
  else if path.isEmpty then .error .notFound
  else if pathLimit < path.utf8ByteSize then .error .nameTooLong
  else t.locate (if Path.isAbsolute path then "/" else t.workingDirectory) (Path.parts path)

/-- A path with a slash at its end names a directory. -/
def wantsDirectory (path : String) : Bool := path.endsWith "/"

def kindOfPath (t : FileTree) (path : String) : Except FileProblem FileKind := do
  match t.kindOf? (← t.placeOf path) with
  | some .file => if wantsDirectory path then throw .notDirectory else return .file
  | some .directory => return .directory
  | none => throw .notFound

def kindAt (t : FileTree) (path : String) : Except FileError FileKind :=
  (t.kindOfPath path).mapError (⟨"stat", path, ·⟩)

def readAt (t : FileTree) (path : String) : Except FileError ByteArray := do
  match ← (t.kindOfPath path).mapError (⟨"open", path, ·⟩) with
  | .directory => throw ⟨"read", path, .isDirectory⟩
  | .file =>
    let place ← (t.placeOf path).mapError (⟨"open", path, ·⟩)
    return (t.files.get? place).getD .empty

def changeAt (t : FileTree) (path : String) (change : ByteArray → ByteArray) :
    Except FileError FileTree := do
  let place ← (t.placeOf path).mapError (⟨"open", path, ·⟩)
  if wantsDirectory path || t.isDirectory place then throw ⟨"open", path, .isDirectory⟩
  return { t with files := t.files.insert place (change ((t.files.get? place).getD .empty)) }

def makeDirectory (t : FileTree) (path : String) : Except FileError FileTree := do
  let place ← (t.placeOf path).mapError (⟨"mkdir", path, ·⟩)
  match t.kindOf? place with
  | some .directory => return t
  | some .file => throw ⟨"mkdir", path, .alreadyExists⟩
  | none => return { t with directories := t.directories ++ [place] }

def makeDirectoriesAt (t : FileTree) (path : String) : Except FileError FileTree :=
  match t.kindOfPath path with
  | .ok .directory => .ok t
  | .ok .file => .error ⟨"mkdir", path, .notDirectory⟩
  | .error _ => (Path.above path ++ [path]).foldlM makeDirectory t

def operations (workingDirectory homeDirectory : String) : FileSystem (StateM FileTree) where
  workingDirectory := workingDirectory
  homeDirectory := homeDirectory
  kind path := do return (← get).kindAt path
  read path := do return (← get).readAt path
  write path content := change fun t => t.changeAt path fun _ => content
  append path content := change fun t => t.changeAt path fun old => old ++ content
  makeDirectories path := change fun t => t.makeDirectoriesAt path
where
  change (f : FileTree → Except FileError FileTree) : StateM FileTree (Except FileError Unit) := do
    match f (← get) with
    | .ok t =>
      set t
      return .ok ()
    | .error e => return .error e

end FileTree
end Sequencer
