import Sequencer.Text.RawText

/-!
# The characters of a YAML file

A file is decoded in portions, each when it is asked for. Bytes that are no
character, and characters that YAML does not allow, spoil the whole portion in
which they stand, but only for a reader who gets there. A byte order mark
tells the encoding.
-/

namespace Sequencer.Yaml

def isAllowed (n : Nat) : Bool :=
  n = 0x09 || n = 0x0a || n = 0x0d || (0x20 ≤ n && n ≤ 0x7e) || n = 0x85 ||
    (0xa0 ≤ n && n ≤ 0xfffd) || 0x10000 ≤ n

def byteOrderMark : Char := Char.ofNat 0xfeff

inductive Decoded where
  | char (c : Char) (rest : List UInt8)
  | cut
  | bad

def Decoded.ofCode (code : Nat) (rest : List UInt8) : Decoded :=
  if isAllowed code && Glyph.isScalar code then .char (Char.ofNat code) rest else .bad

inductive Encoding where
  | utf8 | utf16Little | utf16Big
  deriving DecidableEq

namespace Encoding

def announced? (b : Nat) : Option (Nat × Nat) :=
  if b < 0x80 then some (1, b)
  else if b < 0xc0 then none
  else if b < 0xe0 then some (2, b - 0xc0)
  else if b < 0xf0 then some (3, b - 0xe0)
  else if b < 0xf8 then some (4, b - 0xf0)
  else none

def nextUtf8 (b : UInt8) (rest : List UInt8) : Decoded :=
  match announced? b.toNat with
  | none => .bad
  | some (width, start) =>
    let tail := rest.take (width - 1)
    if tail.length < width - 1 then .cut
    else if !tail.all Glyph.isTail then .bad
    else
      let code := tail.foldl (fun n t => n * 64 + (t.toNat - 0x80)) start
      if code < Glyph.leastCode (width - 1) then .bad else .ofCode code (rest.drop (width - 1))

def unit16 (little : Bool) (a b : UInt8) : Nat :=
  if little then b.toNat * 256 + a.toNat else a.toNat * 256 + b.toNat

def nextUtf16 (little : Bool) : List UInt8 → Decoded
  | a :: b :: rest =>
    let first := unit16 little a b
    if 0xdc00 ≤ first ∧ first < 0xe000 then .bad
    else if 0xd800 ≤ first ∧ first < 0xdc00 then
      match rest with
      | c :: d :: rest =>
        let second := unit16 little c d
        if 0xdc00 ≤ second ∧ second < 0xe000 then
          .ofCode (0x10000 + (first - 0xd800) * 1024 + (second - 0xdc00)) rest
        else .bad
      | _ => .cut
    else .ofCode first rest
  | _ => .cut

def next (e : Encoding) (b : UInt8) (rest : List UInt8) : Decoded :=
  match e with
  | .utf8 => nextUtf8 b rest
  | .utf16Little => nextUtf16 true (b :: rest)
  | .utf16Big => nextUtf16 false (b :: rest)

def detect : List UInt8 → Encoding × List UInt8
  | 0xff :: 0xfe :: rest => (.utf16Little, rest)
  | 0xfe :: 0xff :: rest => (.utf16Big, rest)
  | 0xef :: 0xbb :: 0xbf :: rest => (.utf8, rest)
  | bytes => (.utf8, bytes)

/-- The characters of a portion, and the bytes of a character that is cut off. -/
def portion? (e : Encoding) : Nat → List UInt8 → Option (List Char × List UInt8)
  | fuel + 1, b :: rest =>
    match e.next b rest with
    | .char c after => (portion? e fuel after).map fun r => (c :: r.1, r.2)
    | .cut => some ([], b :: rest)
    | .bad => none
  | _, bytes => some ([], bytes)

end Encoding

structure Source where
  chars : List Char
  portions : List Nat
  /-- The file ends after them; otherwise what follows cannot be read. -/
  sound : Bool

namespace Source

def portionSize : Nat := 512

def empty (sound : Bool) : Source := ⟨[], [], sound⟩

def decodeRest (e : Encoding) : Nat → List UInt8 → List UInt8 → Source
  | 0, _, _ => empty false
  | fuel + 1, held, rest =>
    if rest.isEmpty then empty held.isEmpty
    else
      let fresh := portionSize - held.length
      let raw := held ++ rest.take fresh
      match e.portion? raw.length raw with
      | none => empty false
      | some (chars, held) =>
        let more := decodeRest e fuel held (rest.drop fresh)
        ⟨chars ++ more.chars, chars.length :: more.portions, more.sound⟩

/-- The source of a file; an empty file is a line break. -/
def ofBytes (bytes : List UInt8) : Source :=
  let bytes := if bytes.isEmpty then [0x0a] else bytes
  let (e, first) := Encoding.detect (bytes.take portionSize)
  match e.portion? first.length first with
  | none => empty false
  | some (chars, held) =>
    let more := decodeRest e bytes.length held (bytes.drop portionSize)
    ⟨chars ++ more.chars, chars.length :: more.portions, more.sound⟩

end Source
end Sequencer.Yaml
