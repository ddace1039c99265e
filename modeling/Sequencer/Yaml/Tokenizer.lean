import Sequencer.Yaml.Token

/-!
# Tokens of a YAML text

Block structure comes from columns: a deeper column opens a collection, a
smaller one closes collections. A key is recognised only at the colon after
it. So the place of every token that may turn out to begin a key is
remembered, and the key mark is put in front of it then. Tokens are fetched
ahead only as long as the next one may still turn out to be a key; a candidate
whose token has been taken by then puts its key mark behind all tokens.
-/

namespace Sequencer.Yaml

structure KeyCandidate where
  possible : Bool
  /-- Nothing but a key may stand here. -/
  required : Bool
  number : Nat
  line : Nat
  column : Nat
  index : Nat

structure Tokenizer where
  cursor : Cursor
  queue : List Token := []
  taken : Nat := 0
  /-- The first token of the queue is settled. -/
  settled : Bool := false
  started : Bool := false
  flowDepth : Nat := 0
  /-- The column of the current block collection, and those around it. -/
  indent : Int := -1
  outer : List Int := []
  blockDepth : Nat := 0
  keyAllowed : Bool := true
  /-- The candidates of the open flow collections, outermost first. -/
  candidates : Array KeyCandidate := #[]
  /-- The depths of candidates by the numbers of their tokens. -/
  depths : List (Nat × Nat) := []

abbrev Tokenizing (α : Type) : Type := StateT Tokenizer Option α

namespace Tokenizer

/-- The longest distance between the beginning of a key and its colon. -/
def keyLimit : Nat := 1024

def depthLimit : Nat := 10000

def scanning {α : Type} (s : Scan α) : Tokenizing α := fun t =>
  (s t.cursor).map fun (a, c) => (a, { t with cursor := c })

def emit (t : Token) : Tokenizing Unit := modify fun s => { s with queue := s.queue ++ [t] }

def emitMark (width : Nat) (t : Token) : Tokenizing Unit := do
  scanning (skipMany width)
  emit t

def inFlow : Tokenizing Bool := return 0 < (← get).flowDepth

def column : Tokenizing Nat := return (← get).cursor.column

def allowKey (b : Bool) : Tokenizing Unit := modify fun s => { s with keyAllowed := b }

def nextNumber (s : Tokenizer) : Nat := s.taken + s.queue.length

/-- Puts a token before the one with a number, or behind all when that one is
taken. -/
def insertAt (number : Nat) (t : Token) (s : Tokenizer) : Tokenizer :=
  if number < s.taken then { s with queue := s.queue ++ [t] }
  else { s with queue := s.queue.insertIdx (number - s.taken) t }

def openBlock (column number : Nat) (t : Token) : Tokenizing Unit := do
  let s ← get
  if s.flowDepth = 0 ∧ s.indent < (column : Int) then
    if depthLimit ≤ s.blockDepth then failure
    set (insertAt number t
      { s with outer := s.indent :: s.outer, indent := column, blockDepth := s.blockDepth + 1 })

def openBlockHere (t : Token) : Tokenizing Unit := do openBlock (← column) (← get).nextNumber t

/-- The block collections that end before a column: the indentation that is
left, those around it, and how many end. -/
def endedBlocks (column : Int) : List Int → Int → Nat → Int × List Int × Nat
  | [], indent, count => (indent, [], count)
  | o :: rest, indent, count =>
    if column < indent then endedBlocks column rest o (count + 1) else (indent, o :: rest, count)

def closeBlocks (column : Int) : Tokenizing Unit := do
  let s ← get
  if s.flowDepth = 0 then
    let (indent, outer, count) := endedBlocks column s.outer s.indent 0
    set { s with
      indent := indent
      outer := outer
      blockDepth := s.blockDepth - count
      queue := s.queue ++ List.replicate count Token.blockEnd }

-- ---------------------------------------------------------------------------
-- Candidates for keys
-- ---------------------------------------------------------------------------

def forget (number : Nat) (s : Tokenizer) : Tokenizer :=
  { s with depths := s.depths.filter fun d => d.1 != number }

def setCandidate (depth : Nat) (k : KeyCandidate) (s : Tokenizer) : Tokenizer :=
  { s with candidates := s.candidates.setIfInBounds depth k }

def innermost (s : Tokenizer) : Nat := s.candidates.size - 1

/-- Gives up the innermost candidate; a required one must not be given up. -/
def dropCandidate : Tokenizing Unit := do
  let s ← get
  match s.candidates.back? with
  | some k =>
    if k.possible then
      if k.required then failure
      set ((s.setCandidate s.innermost { k with possible := false }).forget k.number)
  | none => return ()

def candidateHere (possible required : Bool) (s : Tokenizer) : KeyCandidate :=
  let c := s.cursor
  ⟨possible, required, s.nextNumber, c.line, c.column, c.index⟩

def noteCandidate : Tokenizing Unit := do
  let s ← get
  if s.keyAllowed then
    let k := s.candidateHere true (s.flowDepth == 0 && s.indent == s.cursor.column)
    dropCandidate
    modify fun s =>
      { s.setCandidate s.innermost k with
        depths := (k.number, s.innermost) :: s.depths.filter fun d => d.1 != k.number }

def stillPossible (depth : Nat) : Tokenizing Bool := do
  let s ← get
  match s.candidates[depth]? with
  | none => return false
  | some k =>
    if !k.possible then return false
    let c := s.cursor
    if k.line < c.line ∨ k.index + keyLimit < c.index then
      if k.required then failure
      set (s.setCandidate depth { k with possible := false })
      return false
    return true

-- ---------------------------------------------------------------------------
-- One token
-- ---------------------------------------------------------------------------

/-- Skips blanks, comments and breaks in front of a token. A byte order mark
may begin a line. -/
def skipGap : Nat → Tokenizing Unit
  | 0 => return ()
  | fuel + 1 => do
    scanning (Scan.need 1)
    let c := (← get).cursor
    if c.column = 0 ∧ c.marked then scanning Scan.skip
    scanning (Scan.need 1)
    let s ← get
    let tabs := 0 < s.flowDepth || !s.keyAllowed
    discard (scanning (Scan.span fun ch => ch = ' ' || (ch = '\t' && tabs)))
    scanning Scan.skipComment
    if isBreak ((← get).cursor.ahead 0) then
      discard (scanning Scan.lineBreak)
      if !(← inFlow) then allowKey true
      skipGap fuel

def fetchStreamStart : Tokenizing Unit := do
  modify fun s =>
    { s with started := true, keyAllowed := true, candidates := #[⟨false, false, 0, 0, 0, 0⟩] }
  emit .streamStart

/-- The end of the text counts as a new line and closes all blocks. -/
def fetchStreamEnd : Tokenizing Unit := do
  modify fun s =>
    let c := s.cursor
    if c.column = 0 then s else { s with cursor := { c with column := 0, line := c.line + 1 } }
  closeBlocks (-1)
  dropCandidate
  allowKey false
  emit .streamEnd

def fetchDocumentMark (t : Token) : Tokenizing Unit := do
  closeBlocks (-1)
  dropCandidate
  allowKey false
  emitMark 3 t

def fetchFlowStart (t : Token) : Tokenizing Unit := do
  noteCandidate
  modify fun s =>
    { s with
      candidates := s.candidates.push (s.candidateHere false false)
      flowDepth := s.flowDepth + 1
      keyAllowed := true }
  if depthLimit < (← get).flowDepth then failure
  emitMark 1 t

def leaveFlow (s : Tokenizer) : Tokenizer :=
  match s.candidates.back? with
  | some k =>
    if s.flowDepth = 0 then s
    else { s.forget k.number with candidates := s.candidates.pop, flowDepth := s.flowDepth - 1 }
  | none => s

def fetchFlowEnd (t : Token) : Tokenizing Unit := do
  dropCandidate
  modify leaveFlow
  allowKey false
  emitMark 1 t

def fetchFlowEntry : Tokenizing Unit := do
  dropCandidate
  allowKey true
  emitMark 1 .flowEntry

/-- In a block, an entry or an explicit key begins only where a key may. -/
def checkAllowed : Tokenizing Unit := do
  if !(← inFlow) && !(← get).keyAllowed then failure

def fetchBlockEntry : Tokenizing Unit := do
  checkAllowed
  openBlockHere .blockSequenceStart
  dropCandidate
  allowKey true
  emitMark 1 .blockEntry

def fetchKey : Tokenizing Unit := do
  checkAllowed
  openBlockHere .blockMappingStart
  dropCandidate
  allowKey !(← inFlow)
  emitMark 1 .key

/-- A colon: the candidate turns out to be a key, or an empty key stands here. -/
def fetchValue : Tokenizing Unit := do
  let depth := (← get).innermost
  if ← stillPossible depth then
    let s ← get
    match s.candidates[depth]? with
    | some k =>
      modify (insertAt k.number .key)
      openBlock k.column k.number .blockMappingStart
      modify fun s => (s.setCandidate depth { k with possible := false }).forget k.number
    | none => return ()
    allowKey false
  else
    checkAllowed
    openBlockHere .blockMappingStart
    allowKey !(← inFlow)
  emitMark 1 .value

def fetchContent (token : Scan Token) : Tokenizing Unit := do
  noteCandidate
  allowKey false
  emit (← scanning token)

def fetchBlockScalar : Tokenizing Unit := do
  dropCandidate
  allowKey true
  let text ← scanning (readBlock (← get).indent)
  emit (.scalar text false)

def fetchPlain : Tokenizing Unit := do
  noteCandidate
  let (text, broken) ← scanning (readPlain (← inFlow) ((← get).indent + 1))
  allowKey broken
  emit (.scalar text true)

def fetchDirective : Tokenizing Unit := do
  closeBlocks (-1)
  dropCandidate
  allowKey false
  emit (← scanning readDirective)

def plainBarred : List Char :=
  ['-', '?', ':', ',', '[', ']', '\x7b', '\x7d', '#', '&', '*', '!', '|', '>', '\'', '"', '%', '@',
   Char.ofNat 96]

def beginsPlain (inFlow : Bool) (c : Cursor) : Bool :=
  let ch := c.ahead 0
  (!isGapOrEnd ch && !plainBarred.contains ch) ||
    (ch = '-' && !isBlank (c.ahead 1)) ||
    (!inFlow && (ch = '?' || ch = ':') && !isGapOrEnd (c.ahead 1))

def fetchToken : Tokenizing Unit := do
  let c := (← get).cursor
  let inFlow ← inFlow
  let ch := c.ahead 0
  let spaced := isGapOrEnd (c.ahead 1)
  if ch = endMark then fetchStreamEnd
  else if c.column = 0 ∧ ch = '%' then fetchDirective
  else if c.atDocumentMark '-' then fetchDocumentMark .documentStart
  else if c.atDocumentMark '.' then fetchDocumentMark .documentEnd
  else if ch = '[' then fetchFlowStart .flowSequenceStart
  else if ch = '\x7b' then fetchFlowStart .flowMappingStart
  else if ch = ']' then fetchFlowEnd .flowSequenceEnd
  else if ch = '\x7d' then fetchFlowEnd .flowMappingEnd
  else if ch = ',' then fetchFlowEntry
  else if ch = '-' ∧ spaced then fetchBlockEntry
  else if ch = '?' ∧ (inFlow ∨ spaced) then fetchKey
  else if ch = ':' ∧ (inFlow ∨ spaced) then fetchValue
  else if ch = '*' then fetchContent (Token.alias <$> readName)
  else if ch = '&' then fetchContent (Token.anchor <$> readName)
  else if ch = '!' then fetchContent readTag
  else if (ch = '|' ∨ ch = '>') ∧ !inFlow then fetchBlockScalar
  else if ch = '\'' ∨ ch = '"' then fetchContent ((Token.scalar · false) <$> readQuoted ch)
  else if beginsPlain inFlow c then fetchPlain
  else failure

def fetchNext : Tokenizing Unit := do
  scanning (Scan.need 1)
  if !(← get).started then fetchStreamStart
  else
    skipGap ((← get).cursor.size + 2)
    closeBlocks (← column)
    scanning (Scan.need 4)
    fetchToken

def headMayBeKey : Tokenizing Bool := do
  let s ← get
  match s.depths.find? fun d => d.1 == s.taken with
  | some (_, depth) => stillPossible depth
  | none => return false

/-- Fetches tokens until the first one is settled; each takes at least one
character. -/
def settle : Nat → Tokenizing Unit
  | 0 => failure
  | fuel + 1 => do
    if (← get).queue.isEmpty || (← headMayBeKey) then
      fetchNext
      settle fuel
    else modify fun s => { s with settled := true }

def peek : Tokenizing Token := do
  if !(← get).settled then settle ((← get).cursor.size + 4)
  match (← get).queue with
  | t :: _ => return t
  | [] => failure

def take : Tokenizing Unit :=
  modify fun s =>
    { s with
      settled := false
      taken := s.taken + 1
      queue := s.queue.tail
      depths := s.depths.filter fun d => s.taken < d.1 }

end Tokenizer
end Sequencer.Yaml
