import Sequencer.Gate
import Sequencer.Instruction.Lane
import Sequencer.Instruction.Operation

/-!
# Decoding instruction streams

A stream is read word by word. A header word gives its operations and how many
trailing words they wait for; the words that follow complete them. After the
first group of a header word, a rest of the word that is all ones is padding,
so a later measurement, reset or decoherence of the highest qubit index is
lost when the number of qubits is a power of two.
-/

namespace Sequencer

inductive DecodeError where
  | unknownOpcode (word : Nat) (code : Nat)
  | unknownSelector (word : Nat) (selector : Nat)
  | unknownControlledSelector (word : Nat) (selector : Nat)
  | missingProbability (word : Nat)
  | missingAngle (word : Nat)
  | fault (f : Fault)
  deriving DecidableEq, Repr

def DecodeError.message : DecodeError → String
  | .unknownOpcode word code => "word " ++ toString word ++ ": unknown opcode " ++ toString code
  | .unknownSelector word s => "word " ++ toString word ++ ": unknown gate selector " ++ toString s
  | .unknownControlledSelector word s =>
    "word " ++ toString word ++ ": unknown controlled gate selector " ++ toString s
  | .missingProbability word => "word " ++ toString word ++ ": missing probability word"
  | .missingAngle word => "word " ++ toString word ++ ": missing parameter word"
  | .fault f => f.message?.getD ""

abbrev StreamOperation := Operation Fixed

/-- A place in the stream: the number of the word, its bits, and how many
operands of the header are still unread. -/
structure HeaderWord where
  number : Nat
  bits : Word

namespace HeaderWord

def read (h : HeaderWord) (pos width : Nat) : Except DecodeError (Nat × Nat) :=
  (h.bits.next pos width).mapError .fault

def maskBits (qubits mask : Nat) : List Int :=
  (List.range qubits).filterMap fun i => if mask.testBit i then some (i : Int) else none

def readControls (h : HeaderWord) (y : Layout) (l : Lane) (pos : Nat) :
    Except DecodeError (List Int × Nat) := do
  if l.hasMask then
    let (mask, pos) ← h.read pos y.qubits
    return (maskBits y.qubits mask, pos)
  else
    let (q, pos) ← h.read pos y.qubitBits
    return ([(q : Int)], pos)

def readTest (h : HeaderWord) (y : Layout) (l : Lane) (pos : Nat) :
    Except DecodeError (DecodedTest × Nat) := do
  let (bit, pos) ← h.read pos y.qubitBits
  if l.testsRange then
    let (high, pos) ← h.read pos y.qubitBits
    let (value, pos) ← h.read pos y.qubits
    return (⟨true, bit, high, value⟩, pos)
  else
    let (value, pos) ← h.read pos 1
    return (⟨false, bit, bit, value⟩, pos)

def readOptionalTest (h : HeaderWord) (y : Layout) (l : Lane) (pos : Nat) :
    Except DecodeError (Option DecodedTest × Nat) := do
  if l.category = .singleCond ∨ l.category = .controlCond then
    let (k, pos) ← h.readTest y l pos
    return (some k, pos)
  else return (none, pos)

def readSingle (h : HeaderWord) (y : Layout) (l : Lane) (pos : Nat) :
    Except DecodeError (StreamOperation × Nat) := do
  let (q, pos) ← h.read pos y.qubitBits
  let (selector, pos) ← h.read pos Layout.selectorBits
  match Primitive.ofSelector? selector with
  | none => throw (.unknownSelector h.number selector)
  | some p =>
    let (k, pos) ← h.readOptionalTest y l pos
    return ({ category := l.category, gate := p.name, qubit := q, cond := k }, pos)

def readControlled (h : HeaderWord) (y : Layout) (l : Lane) (pos : Nat) :
    Except DecodeError (StreamOperation × Nat) := do
  let (controls, pos) ← h.readControls y l pos
  let (q, pos) ← h.read pos y.qubitBits
  let (selector, pos) ← h.read pos Layout.selectorBits
  match Primitive.ofSelector? selector with
  | none => throw (.unknownControlledSelector h.number selector)
  | some p =>
    let (k, pos) ← h.readOptionalTest y l pos
    return ({ category := l.category, gate := "c" ++ p.name, qubit := q, controls := controls,
              cond := k }, pos)

def readGroup (h : HeaderWord) (y : Layout) (l : Lane) (pos : Nat) :
    Except DecodeError (StreamOperation × Nat) :=
  match l with
  | .reset => do
    let (q, pos) ← h.read pos y.qubitBits
    return ({ category := .reset, qubit := q }, pos)
  | .decoherence => do
    let (q, pos) ← h.read pos y.qubitBits
    let (kind, pos) ← h.read pos 1
    let gate := ((Channel.ofKind? kind).map Channel.name).getD ""
    return ({ category := .decoherence, gate := gate, qubit := q }, pos)
  | .single | .singleBit | .singleRange => h.readSingle y l pos
  | _ => h.readControlled y l pos

/-- Another group of `width` bits follows at `pos`: the first one always, a
later one unless the rest of the word is padding. -/
def hasMore (h : HeaderWord) (start : Nat) (width : Int) (pos : Nat) : Bool :=
  width ≤ pos && (pos == start || !h.bits.isPadding pos)

/-- The groups from `pos` on. A group takes at least one bit, so the number of
bits bounds the number of groups. -/
def readGroups (read : Nat → Except DecodeError (StreamOperation × Nat)) (h : HeaderWord)
    (start : Nat) (width : Int) : Nat → Nat → Except DecodeError (List StreamOperation)
  | 0, _ => .ok []
  | fuel + 1, pos =>
    if h.hasMore start width pos then do
      let (o, pos) ← read pos
      let rest ← readGroups read h start width fuel pos
      return o :: rest
    else .ok []

def readMeasured (h : HeaderWord) (y : Layout) (pos : Nat) :
    Except DecodeError (StreamOperation × Nat) := do
  let (q, pos) ← h.read pos y.qubitBits
  return ({ category := .measurement, qubit := q }, pos)

def operations (h : HeaderWord) (y : Layout) : Except DecodeError (List StreamOperation) :=
  if h.bits.category = .measurement then
    readGroups (h.readMeasured y) h headerRoom y.qubitBits 64 headerRoom
  else
    match Lane.ofWord? h.bits with
    | none => .error (.unknownOpcode h.number h.bits.opcode)
    | some l =>
      readGroups (h.readGroup y l) h l.room (Integer.wrap (y.width l)) 64 l.room

end HeaderWord

/-- How many trailing words operations wait for: one per rotation, and one per
two probabilities. -/
def trailingCount (ops : List StreamOperation) : Nat :=
  (ops.filter fun o => Gate.encodesAngle o.gate).length +
    ((ops.filter fun o => o.category = .decoherence).length + 1) / 2

def attachAngles : List StreamOperation → List Word → List StreamOperation
  | [], _ => []
  | o :: rest, [] => o :: rest
  | o :: rest, w :: ws =>
    if Gate.encodesAngle o.gate then
      { o with angle := some (Fixed.high w, Fixed.low w) } :: attachAngles rest ws
    else o :: attachAngles rest (w :: ws)

def attachProbabilities : List StreamOperation → List Word → List StreamOperation
  | o :: p :: rest, w :: ws =>
    { o with probability := some (Fixed.high w) } ::
      { p with probability := some (Fixed.low w) } :: attachProbabilities rest ws
  | [o], w :: _ => [{ o with probability := some (Fixed.high w) }]
  | ops, _ => ops

def attach (ops : List StreamOperation) (ws : List Word) : List StreamOperation :=
  if ops.any fun o => o.category = .decoherence then attachProbabilities ops ws
  else attachAngles ops ws

structure Pending where
  ops : List StreamOperation
  missing : Nat
  /-- The trailing words so far, newest first. -/
  newest : List Word := []

structure DecodeState where
  read : Nat := 0
  /-- The number of end flags read. -/
  slice : Nat := 0
  done : List StreamOperation := []
  pending : Option Pending := none

namespace DecodeState

def takeTrailing (s : DecodeState) (p : Pending) (w : Word) : DecodeState :=
  let newest := w :: p.newest
  if p.missing ≤ 1 then
    { s with read := s.read + 1, done := s.done ++ attach p.ops newest.reverse, pending := none }
  else
    { s with read := s.read + 1, pending := some ⟨p.ops, p.missing - 1, newest⟩ }

def takeHeader (s : DecodeState) (y : Layout) (w : Word) : Except DecodeError DecodeState := do
  let ops ← (HeaderWord.mk s.read w).operations y
  let ops := ops.map fun o => { o with slice := s.slice, last := w.isLast }
  let next := { s with read := s.read + 1, slice := s.slice + w.isLast.toNat }
  let missing := trailingCount ops
  if missing = 0 then return { next with done := s.done ++ ops }
  return { next with pending := some { ops := ops, missing := missing } }

def step (y : Layout) (s : DecodeState) (w : Word) : Except DecodeError DecodeState :=
  match s.pending with
  | some p => .ok (s.takeTrailing p w)
  | none => s.takeHeader y w

/-- The operations at the end of the stream, where nothing may be pending. -/
def finish (s : DecodeState) : Except DecodeError (List StreamOperation) :=
  match s.pending with
  | none => .ok s.done
  | some p =>
    if p.ops.any fun o => o.category = .decoherence then .error (.missingProbability s.read)
    else .error (.missingAngle s.read)

end DecodeState

def decode (words : List Word) (qubits : Int) : Except DecodeError (List StreamOperation) := do
  let s ← words.foldlM (DecodeState.step (.ofCount qubits)) {}
  s.finish

end Sequencer
