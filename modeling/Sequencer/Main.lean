import Sequencer.Command.Run
import Sequencer.Inspector.View
import Std.Time

/-!
# The command line

The file system and the console behind the commands.
-/

namespace Sequencer.Console

def problemOf (e : IO.Error) : FileProblem :=
  match e with
  | .noFileOrDirectory .. => .notFound
  | e =>
    let text := toString e
    if (text.splitOn "s a directory").length > 1 then .isDirectory
    else if (text.splitOn "ot a directory").length > 1 then .notDirectory
    else .other text

def attempt {α : Type} (action path : String) (op : IO α) : IO (Except FileError α) := do
  try
    return .ok (← op)
  catch e => return .error ⟨action, path, problemOf e⟩

/-- A directory opens like a file and cannot be read. -/
def kindOf (path : String) : IO FileKind := do
  let h ← IO.FS.Handle.mk path .read
  try
    let _ ← h.read 1
    return .file
  catch _ => return .directory

def read (path : String) : IO (Except FileError ByteArray) := do
  match ← attempt "open" path (kindOf path) with
  | .ok .directory => return .error ⟨"read", path, .isDirectory⟩
  | .ok .file => attempt "read" path (IO.FS.readBinFile path)
  | .error e => return .error e

def append (path : String) (content : ByteArray) : IO Unit := do
  let h ← IO.FS.Handle.mk path .append
  h.write content
  h.flush

def makeDirectories (path : String) : IO (Except FileError Unit) := do
  let rooted := Path.isAbsolute path
  let names := Path.parts path
  for n in List.range names.length do
    let part := (if rooted then "/" else "") ++ "/".intercalate (names.take (n + 1))
    match ← attempt "mkdir" part (kindOf part) with
    | .ok .directory => pure ()
    | .ok .file => return .error ⟨"mkdir", part, .notDirectory⟩
    | .error _ =>
      match ← attempt "mkdir" part (IO.FS.createDir part) with
      | .ok _ => pure ()
      | .error e => return .error e
  return .ok ()

def files : IO (FileSystem IO) := do
  let here := toString (← IO.currentDir)
  return {
    workingDirectory := here
    homeDirectory := (← IO.getEnv "HOME").getD "/"
    kind := fun path => attempt "stat" path (kindOf path)
    read := read
    write := fun path content => attempt "open" path (IO.FS.writeBinFile path content)
    append := fun path content => attempt "open" path (append path content)
    makeDirectories := makeDirectories }

def identifier : IO String := do
  let bytes := (← IO.getRandomBytes 16).toList
  let marked := bytes.zipIdx.map fun (b, i) =>
    if i = 6 then b &&& 0x0f ||| 0x40 else if i = 8 then b &&& 0x3f ||| 0x80 else b
  let hex := (hexOfBytes marked).toList
  let part (start n : Nat) : String := String.ofList ((hex.drop start).take n)
  return "-".intercalate [part 0 8, part 8 4, part 12 4, part 16 4, part 20 12]

def stamp : IO Stamp := do
  let now ← Std.Time.Timestamp.now
  let time := Std.Time.PlainDateTime.ofWallTime (now.toWallTime .zero)
  return ⟨← identifier, time.toLeanDateTimeString ++ "Z"⟩

def host : IO (Host IO) := do
  let err ← IO.getStderr
  return { files := ← files, note := fun s => err.putStr s, stamp := stamp }

partial def browse (i : Inspector) : IO Unit := do
  for line in i.view do IO.println line
  let key ← (← IO.getStdin).getLine
  if key.isEmpty then return
  match i.update (.key (key.dropEndWhile (· == '\n')).toString) with
  | .ok (_, true) | .error _ => return
  | .ok (i, false) => browse i

end Sequencer.Console

open Sequencer in
def main (args : List String) : IO UInt32 := do
  let host ← Console.host
  let (ending, printed) ← ((runCommand host args).run).run ""
  IO.print printed
  match ending with
  | .ok .done => return 0
  | .ok (.inspect i) =>
    Console.browse (i.resize 160 40)
    return 0
  | .error e =>
    IO.eprintln ("qsofinstr: error: " ++ e.message)
    return 1
