import Sequencer.Text.RawText

/-!
# Base 64

Three bytes are written as four characters, and a rest of one or two bytes is
filled up with padding. Reading ignores line breaks and nothing else.
-/

namespace Sequencer.Text.Base64

def alphabet : List Char :=
  "ABCDEFGHIJKLMNOPQRSTUVWXYZabcdefghijklmnopqrstuvwxyz0123456789+/".toList

def digit (n : Nat) : Char := alphabet.getD n 'A'

def value? (c : Char) : Option Nat := alphabet.findIdx? (· = c)

def encode : List UInt8 → List Char
  | a :: b :: c :: rest =>
    let n := a.toNat * 65536 + b.toNat * 256 + c.toNat
    digit (n / 262144) :: digit (n / 4096 % 64) :: digit (n / 64 % 64) :: digit (n % 64) :: encode rest
  | [a, b] =>
    let n := a.toNat * 1024 + b.toNat * 4
    [digit (n / 4096), digit (n / 64 % 64), digit (n % 64), '=']
  | [a] =>
    let n := a.toNat * 16
    [digit (n / 64), digit (n % 64), '=', '=']
  | [] => []

def bytes (count n : Nat) : List UInt8 :=
  [UInt8.ofNat (n / 65536), UInt8.ofNat (n / 256 % 256), UInt8.ofNat (n % 256)].take count

/-- Groups of four; padding ends the text, and the bits it stands for are ignored. -/
def decodeGroups? : List Char → Option (List UInt8)
  | [] => some []
  | [a, b, '=', '='] => do
    let n := (← value? a) * 262144 + (← value? b) * 4096
    return bytes 1 n
  | [a, b, c, '='] => do
    let n := (← value? a) * 262144 + (← value? b) * 4096 + (← value? c) * 64
    return bytes 2 n
  | a :: b :: c :: d :: rest => do
    let n := (← value? a) * 262144 + (← value? b) * 4096 + (← value? c) * 64 + (← value? d)
    return bytes 3 n ++ (← decodeGroups? rest)
  | _ => none

def decode? (s : String) : Option (List UInt8) :=
  decodeGroups? (s.toList.filter fun c => c ≠ '\n' ∧ c ≠ '\r')

end Sequencer.Text.Base64
