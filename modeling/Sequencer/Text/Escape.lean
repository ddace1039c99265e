import Sequencer.Text.Grapheme

/-!
# Escape sequences

The states of a terminal while it reads a control sequence, byte by byte. A
terminal in the ground state shows what it reads; in any other state it
collects a command, parameters or a string.
-/

namespace Sequencer.Text

inductive EscapeState where
  | ground
  | escape | escapeIntermediate
  | controlEntry | controlParameter | controlIntermediate
  | deviceEntry | deviceParameter | deviceIntermediate | deviceString
  | systemCommand
  /-- A start of string, a privacy message or an application command. -/
  | otherString
  deriving DecidableEq, Repr

namespace EscapeState

def opened (b : Nat) : EscapeState :=
  if b < 0x20 ∨ b = 0x7f then escape
  else if b < 0x30 then escapeIntermediate
  else
    match Char.ofNat b with
    | '[' => controlEntry
    | ']' => systemCommand
    | 'P' => deviceEntry
    | 'X' | '^' | '_' => otherString
    | _ => ground

/-- In a control sequence: control characters are carried out on the way. -/
def inControl (state : EscapeState) (b : Nat) : EscapeState :=
  if b < 0x20 ∨ b = 0x7f then state
  else if b < 0x30 then controlIntermediate
  else if b < 0x40 ∧ state ≠ controlIntermediate then controlParameter
  else ground

def inDevice (state : EscapeState) (b : Nat) : EscapeState :=
  if state = deviceEntry ∧ 0x08 ≤ b ∧ b ≤ 0x0d then deviceString
  else if b < 0x20 ∨ b = 0x7f then state
  else if b < 0x30 then deviceIntermediate
  else if b < 0x40 ∧ state ≠ deviceIntermediate then deviceParameter
  else deviceString

/-- A byte of an encoded character, or a control code of one byte beyond ASCII. -/
def stepHigh (state : EscapeState) (b : Nat) : EscapeState :=
  if state = systemCommand ∨ state = deviceString then if b = 0x9c then ground else state
  else
    match b with
    | 0x90 => deviceEntry
    | 0x9b => controlEntry
    | 0x9d => systemCommand
    | 0x98 | 0x9e | 0x9f => otherString
    | _ => ground

def step (state : EscapeState) (b : Nat) : EscapeState :=
  if b = 0x1b then if state = deviceEntry then deviceString else escape
  else if b = 0x18 ∨ b = 0x1a then ground
  else if 0x80 ≤ b then state.stepHigh b
  else
    match state with
    | ground => ground
    | escape => opened b
    | escapeIntermediate => if b < 0x30 ∨ b = 0x7f then escapeIntermediate else ground
    | controlEntry | controlParameter | controlIntermediate => state.inControl b
    | deviceEntry | deviceParameter | deviceIntermediate => state.inDevice b
    | systemCommand => if b = 0x07 then ground else systemCommand
    | deviceString | otherString => state

def takesText (state : EscapeState) : Bool := state = systemCommand || state = deviceString

def stepAll (state : EscapeState) (c : Char) : EscapeState :=
  (String.utf8EncodeChar c).foldl (fun s b => s.step b.toNat) state

end EscapeState
end Sequencer.Text
