import Sequencer.Text.Quoted

/-!
# Texts of bytes

Texts that come from outside are bytes, which need not be well formed. A byte
that belongs to no character is a stray one: it is shown as the replacement
character, and quoted by its number.
-/

namespace Sequencer

structure RawText where
  bytes : List UInt8
  deriving DecidableEq, Repr

inductive Glyph where
  | char (c : Char)
  | stray (b : UInt8)
  deriving DecidableEq, Repr

namespace Glyph

def isTail (b : UInt8) : Bool := 0x80 ≤ b && b < 0xc0

/-- The number of bytes after a leading one, and the bits it holds itself. -/
def leading? (b : Nat) : Option (Nat × Nat) :=
  if b < 0x80 then some (0, b)
  else if 0xc2 ≤ b ∧ b < 0xe0 then some (1, b - 0xc0)
  else if 0xe0 ≤ b ∧ b < 0xf0 then some (2, b - 0xe0)
  else if 0xf0 ≤ b ∧ b < 0xf5 then some (3, b - 0xf0)
  else none

def leastCode : Nat → Nat
  | 0 => 0
  | 1 => 0x80
  | 2 => 0x800
  | _ => 0x10000

def isScalar (n : Nat) : Bool := n < 0xd800 || (0xe000 ≤ n && n < 0x110000)

def char? (b : UInt8) (rest : List UInt8) : Option (Char × Nat) := do
  let (count, start) ← leading? b.toNat
  let tail := rest.take count
  if tail.length < count ∨ !tail.all isTail then none
  let code := tail.foldl (fun n t => n * 64 + (t.toNat - 0x80)) start
  if code < leastCode count ∨ !isScalar code then none
  return (Char.ofNat code, count)

def ofBytes : Nat → List UInt8 → List Glyph
  | fuel + 1, b :: rest =>
    match char? b rest with
    | some (c, count) => .char c :: ofBytes fuel (rest.drop count)
    | none => .stray b :: ofBytes fuel rest
  | _, _ => []

def replacement : Char := Char.ofNat 0xfffd

def shown : Glyph → Char
  | .char c => c
  | .stray _ => replacement

def quoted : Glyph → List Char
  | .char c => Text.quoteChar c
  | .stray b => ['\\', 'x'] ++ Text.hexDigits 2 b.toNat

def isStray : Glyph → Bool
  | .char _ => false
  | .stray _ => true

end Glyph

namespace RawText

def ofString (s : String) : RawText := ⟨s.toList.flatMap String.utf8EncodeChar⟩

instance : Coe String RawText := ⟨ofString⟩

def glyphs (t : RawText) : List Glyph := Glyph.ofBytes t.bytes.length t.bytes

def shown (t : RawText) : String := String.ofList (t.glyphs.map Glyph.shown)

def quoted (t : RawText) : String :=
  String.ofList (['"'] ++ t.glyphs.flatMap Glyph.quoted ++ ['"'])

def isWellFormed (t : RawText) : Bool := !t.glyphs.any Glyph.isStray

def isEmpty (t : RawText) : Bool := t.bytes.isEmpty

def octets (t : RawText) : List Char := t.bytes.map fun b => Char.ofNat b.toNat

def ofOctets (cs : List Char) : RawText := ⟨cs.map fun c => UInt8.ofNat c.toNat⟩

end RawText
end Sequencer
