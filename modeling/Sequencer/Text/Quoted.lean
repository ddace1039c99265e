import Sequencer.Text.Printable

/-!
# Quoted text

The double-quoted form used in messages. Printable characters stand for
themselves; a quote, a backslash and the seven named controls have a
two-character escape; every other character is written by its number, with
two digits below U+0080, four in the basic plane and eight beyond it.
-/

namespace Sequencer.Text

def hexDigit (n : Nat) : Char :=
  match "0123456789abcdef".toList[n]? with
  | some c => c
  | none => '0'

def hexDigits : Nat → Nat → List Char
  | 0, _ => []
  | width + 1, n => hexDigits width (n / 16) ++ [hexDigit (n % 16)]

def quoteChar (c : Char) : List Char :=
  if c = '"' then ['\\', '"']
  else if c = '\\' then ['\\', '\\']
  else if isPrintable c then [c]
  else
    match c.toNat with
    | 7 => ['\\', 'a']
    | 8 => ['\\', 'b']
    | 9 => ['\\', 't']
    | 10 => ['\\', 'n']
    | 11 => ['\\', 'v']
    | 12 => ['\\', 'f']
    | 13 => ['\\', 'r']
    | n =>
      if n < 0x80 then ['\\', 'x'] ++ hexDigits 2 n
      else if n < 0x10000 then ['\\', 'u'] ++ hexDigits 4 n
      else ['\\', 'U'] ++ hexDigits 8 n

def quote (s : String) : String :=
  String.ofList (['"'] ++ s.toList.flatMap quoteChar ++ ['"'])

end Sequencer.Text
