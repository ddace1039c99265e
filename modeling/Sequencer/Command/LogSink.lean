import Sequencer.Command.Files
import Sequencer.Text.Url

/-!
# Where notes go

The place of the log is the console or a file. A file is given by an absolute
path or by a URL, which may be a relative path; of a URL with the file scheme
only the path counts, and nothing else may be given.
-/

namespace Sequencer

inductive LogSink where
  | console
  | file (path : String)
  deriving DecidableEq, Repr

inductive FileUrlProblem where
  | user | fragment | query | service | host
  deriving DecidableEq, Repr

def FileUrlProblem.text : FileUrlProblem → String
  | .user => "user and password not allowed with file URLs"
  | .fragment => "fragments not allowed with file URLs"
  | .query => "query parameters not allowed with file URLs"
  | .service => "ports not allowed with file URLs"
  | .host => "file URLs must leave host empty or use localhost"

inductive LogSinkError where
  | notUrl (text part : RawText) (error : Text.UrlError)
  | unknownScheme (scheme : String)
  | fileUrl (problem : FileUrlProblem) (url : RawText)
  | file (error : FileError)

def LogSinkError.message : LogSinkError → String
  | .notUrl text part error =>
    "can't parse " ++ text.quoted ++ " as a URL: parse " ++ part.quoted ++ ": " ++ error.message
  | .unknownScheme scheme => "no sink found for scheme " ++ Text.quote scheme
  | .fileUrl problem url => problem.text ++ ": got " ++ url.shown
  | .file error => error.message

namespace LogSink

def ofPath (path : String) : LogSink :=
  if path = "stdout" ∨ path = "stderr" then .console else .file path

def fileUrlProblem? (u : Text.Url) : Option FileUrlProblem :=
  let (host, service) := u.hostAndService
  if u.user.isSome then some .user
  else if !u.fragment.isEmpty then some .fragment
  else if !u.query.isEmpty then some .query
  else if !service.isEmpty then some .service
  else if !host.isEmpty && host != "localhost".toList then some .host
  else none

def ofText (text : RawText) : Except LogSinkError LogSink := do
  if text.bytes.head? == some 0x2f then return ofPath text.shown
  let u ← (Text.Url.read text).mapError fun e => .notUrl text e.1 e.2
  let u := if u.scheme.isEmpty then { u with scheme := "file".toList } else u
  if u.scheme ≠ "file".toList then throw (.unknownScheme (String.ofList u.scheme))
  match fileUrlProblem? u with
  | some problem => throw (.fileUrl problem u.text)
  | none => return ofPath (RawText.ofOctets u.path).shown

end LogSink
end Sequencer
