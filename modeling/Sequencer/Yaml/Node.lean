import Sequencer.Assoc
import Sequencer.Yaml.Tokenizer

/-!
# YAML nodes

The tree of the first document of a text. An alias points to the node that had
its anchor last, which may be a collection around it.
-/

namespace Sequencer.Yaml

inductive Node where
  /-- A scalar with its tag, empty when none is given; a plain one may stand
  for something else than its text. -/
  | scalar (text : String) (tag : String) (plain : Bool)
  | sequence (items : List Node)
  | mapping (tag : String) (entries : List (Node × Node))
  /-- An alias with a number of its own, and the number of its target. -/
  | alias (number target : Nat)

def Node.empty : Node := .scalar "" "" true

structure Reading where
  tokenizer : Tokenizer
  anchors : Assoc String Nat := {}
  anchored : List (Nat × Node) := []
  stems : Assoc String String := {}
  next : Nat := 0

abbrev Reader (α : Type) : Type := StateT Reading Option α

namespace Reader

def peek : Reader Token := fun r =>
  (Tokenizer.peek r.tokenizer).map fun (t, s) => (t, { r with tokenizer := s })

def skip : Reader Unit := fun r =>
  (Tokenizer.take r.tokenizer).map fun (_, s) => ((), { r with tokenizer := s })

def fresh : Reader Nat := do
  let r ← get
  set { r with next := r.next + 1 }
  return r.next

def anchorNumber (name : String) : Reader Nat := do (← get).anchors.get? name

def stem (handle : String) : Reader String := do (← get).stems.get? handle

def nextIn (tokens : List Token) : Reader Bool := return tokens.contains (← peek)

end Reader

open Reader

structure Properties where
  anchor : Option String := none
  tag : Option String := none

def resolveTag (handle suffix : String) : Reader String := do
  if handle.isEmpty then return suffix
  return (← stem handle) ++ suffix

def readProperty (p : Properties) : Reader Properties := do
  match ← peek with
  | .anchor name =>
    if p.anchor.isSome then return p
    skip
    return { p with anchor := some name }
  | .tag handle suffix =>
    if p.tag.isSome then return p
    skip
    return { p with tag := some (← resolveTag handle suffix) }
  | _ => return p

def readProperties : Reader Properties := do readProperty (← readProperty {})

/-- A node under its anchor, which is known while the node is read. -/
def named (p : Properties) (body : Reader Node) : Reader Node := do
  match p.anchor with
  | some name =>
    let number ← fresh
    modify fun r => { r with anchors := r.anchors.insert name number }
    let n ← body
    modify fun r => { r with anchored := (number, n) :: r.anchored }
    return n
  | none => body

def collection (p : Properties) (body : Reader Node) : Reader Node := named p do
  skip
  body

/-- A scalar under a tag; the tag `!` says that it is plain. -/
def taggedScalar (p : Properties) (text : String) (plain : Bool) : Node :=
  match p.tag with
  | none => .scalar text "" plain
  | some tag => .scalar text tag (tag == "!")

/-- Properties may stand alone, for an empty scalar. -/
def emptyNode (p : Properties) : Reader Node := do
  if p.anchor.isNone && p.tag.isNone then failure
  named p (return .scalar "" (p.tag.getD "") p.tag.isNone)

mutual
/-- A node; `block` allows block collections, `indentless` block sequences
without an indentation of their own. -/
def readNode : Nat → Bool → Bool → Reader Node
  | 0, _, _ => failure
  | fuel + 1, block, indentless => do
    match ← peek with
    | .alias name =>
      skip
      let target ← anchorNumber name
      return .alias (← fresh) target
    | _ =>
      let p ← readProperties
      match ← peek with
      | .scalar text plain =>
        skip
        named p (return taggedScalar p text plain)
      | .flowSequenceStart => collection p (readFlowItems fuel true [])
      | .flowMappingStart => collection p (readFlowEntries fuel (p.tag.getD "") true [])
      | .blockSequenceStart =>
        if block then collection p (readBlockItems fuel []) else emptyNode p
      | .blockMappingStart =>
        if block then collection p (readBlockEntries fuel (p.tag.getD "") []) else emptyNode p
      | .blockEntry =>
        if indentless then
          named p (readIndentlessItems fuel [])
        else emptyNode p
      | _ => emptyNode p
def readBlockItems : Nat → List Node → Reader Node
  | 0, _ => failure
  | fuel + 1, acc => do
    match ← peek with
    | .blockEntry =>
      skip
      if !(← nextIn [.blockEntry, .blockEnd]) then
        let n ← readNode fuel true false
        readBlockItems fuel (n :: acc)
      else readBlockItems fuel (.empty :: acc)
    | .blockEnd =>
      skip
      return .sequence acc.reverse
    | _ => failure
def readIndentlessItems : Nat → List Node → Reader Node
  | 0, _ => failure
  | fuel + 1, acc => do
    match ← peek with
    | .blockEntry =>
      skip
      if !(← nextIn [.blockEntry, .key, .value, .blockEnd]) then
        let n ← readNode fuel true false
        readIndentlessItems fuel (n :: acc)
      else readIndentlessItems fuel (.empty :: acc)
    | _ => return .sequence acc.reverse
def readBlockEntries : Nat → String → List (Node × Node) → Reader Node
  | 0, _, _ => failure
  | fuel + 1, tag, acc => do
    match ← peek with
    | .key =>
      skip
      let k ←
        if !(← nextIn [.key, .value, .blockEnd]) then readNode fuel true true else pure .empty
      let v ← readBlockValue fuel
      readBlockEntries fuel tag ((k, v) :: acc)
    | .blockEnd =>
      skip
      return .mapping tag acc.reverse
    | _ => failure
def readBlockValue : Nat → Reader Node
  | 0 => failure
  | fuel + 1 => do
    match ← peek with
    | .value =>
      skip
      if !(← nextIn [.key, .value, .blockEnd]) then readNode fuel true true else return .empty
    | _ => return .empty
def readFlowItems : Nat → Bool → List Node → Reader Node
  | 0, _, _ => failure
  | fuel + 1, first, acc => do
    if ← nextIn [.flowSequenceEnd] then
      skip
      return .sequence acc.reverse
    if !first then
      if !(← nextIn [.flowEntry]) then failure
      skip
    match ← peek with
    | .key =>
      skip
      let k ←
        if !(← nextIn [.value, .flowEntry, .flowSequenceEnd]) then readNode fuel false false
        else
          -- The token that shows the key to be empty is taken with it.
          skip
          pure .empty
      let v ← readFlowValue fuel .flowSequenceEnd
      readFlowItems fuel false (.mapping "" [(k, v)] :: acc)
    | .flowSequenceEnd =>
      skip
      return .sequence acc.reverse
    | _ =>
      let n ← readNode fuel false false
      readFlowItems fuel false (n :: acc)
def readFlowEntries : Nat → String → Bool → List (Node × Node) → Reader Node
  | 0, _, _, _ => failure
  | fuel + 1, tag, first, acc => do
    if ← nextIn [.flowMappingEnd] then
      skip
      return .mapping tag acc.reverse
    if !first then
      if !(← nextIn [.flowEntry]) then failure
      skip
    match ← peek with
    | .key =>
      skip
      let k ←
        if !(← nextIn [.value, .flowEntry, .flowMappingEnd]) then readNode fuel false false
        else pure .empty
      let v ← readFlowValue fuel .flowMappingEnd
      readFlowEntries fuel tag false ((k, v) :: acc)
    | .flowMappingEnd =>
      skip
      return .mapping tag acc.reverse
    | _ =>
      let k ← readNode fuel false false
      readFlowEntries fuel tag false ((k, .empty) :: acc)
def readFlowValue : Nat → Token → Reader Node
  | 0, _ => failure
  | fuel + 1, closing => do
    match ← peek with
    | .value =>
      skip
      if !(← nextIn [.flowEntry, closing]) then readNode fuel false false else return .empty
    | _ => return .empty
end

def defaultStems : Assoc String String :=
  Assoc.ofList [("!", "!"), ("!!", "tag:yaml.org,2002:")]

/-- The directives in front of a document: one version at most, which is 1.1,
and each handle at most once. -/
def readDirectives : Nat → Bool → Assoc String String → Reader (Bool × Assoc String String)
  | 0, _, _ => failure
  | fuel + 1, versioned, stems => do
    match ← peek with
    | .version major minor =>
      if versioned || major != 1 || minor != 1 then failure
      skip
      readDirectives fuel true stems
    | .tagDirective handle text =>
      if stems.contains handle then failure
      skip
      readDirectives fuel versioned (stems.insert handle text)
    | _ => return (versioned, stems)

def readContent (fuel : Nat) : Reader Node := do
  match ← peek with
  | .documentStart | .documentEnd | .streamEnd | .version _ _ | .tagDirective _ _ => return .empty
  | _ => readNode fuel true false

/-- The first document, none when there is no document. A token must follow
its root. -/
def readDocument (fuel : Nat) : Reader (Option Node) := do
  if (← peek) ≠ .streamStart then failure
  skip
  let (versioned, given) ← readDirectives fuel false {}
  modify fun r => { r with stems := defaultStems.union given }
  match ← peek with
  | .documentStart =>
    skip
    let n ← readContent fuel
    discard peek
    return some n
  | next =>
    if versioned || !given.entries.isEmpty then failure
    if next = .streamEnd then return none
    let n ← readNode fuel true false
    discard peek
    return some n

structure Document where
  root : Node
  anchored : List (Nat × Node)
  /-- A bound for the depth of nodes, with aliases followed. -/
  depth : Nat

inductive Outcome where
  | invalid
  | noDocument
  | document (d : Document)

def read (bytes : List UInt8) : Outcome :=
  let c := Cursor.ofSource (.ofBytes bytes)
  match readDocument (16 * c.size + 64) { tokenizer := { cursor := c } } with
  | none => .invalid
  | some (none, _) => .noDocument
  | some (some n, r) => .document ⟨n, r.anchored, (c.size + 2) * (c.size + 2)⟩

end Sequencer.Yaml
