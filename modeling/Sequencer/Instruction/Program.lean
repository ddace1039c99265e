import Sequencer.Hash.Blake3
import Sequencer.Instruction.Word

/-!
# Programs

The encoded timeslices of a circuit and the forms in which the stream of their
words is written: one line of binary digits per word, or eight bytes per word
with the least significant first. The digest covers the same bytes, laid out in
one buffer.
-/

namespace Sequencer

structure ProgramSlice where
  index : Int
  words : List Word

structure InstructionProgram where
  qubits : Nat
  qubitBits : Nat
  slices : List ProgramSlice

structure StreamError where
  bytes : Nat

def StreamError.message (e : StreamError) : String :=
  "binary program of " ++ toString e.bytes ++ " bytes is not a whole number of words"

namespace Word

def toBytes (w : Word) : List UInt8 :=
  (List.range 8).map fun i => UInt8.ofNat (w.toNat / Nat.pow 2 (8 * i))

def ofBytes (bytes : List UInt8) : Word :=
  UInt64.ofNat (bytes.foldr (fun b n => n * 256 + b.toNat) 0)

def listOfBytes : List UInt8 → List Word
  | a :: b :: c :: d :: e :: f :: g :: h :: rest => ofBytes [a, b, c, d, e, f, g, h] :: listOfBytes rest
  | _ => []

def store (buffer : Array UInt8) (offset : Nat) (w : Word) : Array UInt8 :=
  w.toBytes.zipIdx.foldl (fun b e => b.setIfInBounds (offset + e.2) e.1) buffer

/-- Words in a buffer of their joint size, each at its own offset. -/
def image (words : List Word) : Array UInt8 :=
  words.zipIdx.foldl (fun b e => store b (8 * e.2) e.1) (Array.replicate (8 * words.length) 0)

end Word

def readStream (bytes : List UInt8) : Except StreamError (List Word) :=
  if bytes.length % 8 = 0 then .ok (Word.listOfBytes bytes) else .error ⟨bytes.length⟩

namespace InstructionProgram

def words (p : InstructionProgram) : List Word := p.slices.flatMap ProgramSlice.words

def text (p : InstructionProgram) : String := String.join (p.words.map fun w => w.text ++ "\n")

def bytes (p : InstructionProgram) : List UInt8 := p.words.flatMap Word.toBytes

def digest (p : InstructionProgram) : List UInt8 := Blake3.hash (Word.image p.words).toList

end InstructionProgram

def hexOfBytes (bytes : List UInt8) : String :=
  String.ofList (bytes.flatMap fun b => Text.hexDigits 2 b.toNat)

end Sequencer
