import Sequencer.Text.CellWidth

/-!
# The pen of a terminal

The attributes that a style sequence sets, and the shortest sequence that
sets them again. Links are kept beside the pen.
-/

namespace Sequencer.Text

/-- A parameter of a control sequence; `continues` when a colon follows it. -/
structure Parameter where
  value : Option Nat := none
  continues : Bool := false
  deriving DecidableEq, Repr

def Parameter.number (p : Parameter) : Nat := p.value.getD 0

inductive PenColour where
  | basic (index : Nat)
  | indexed (index : Nat)
  | direct (red green blue : Nat)
  deriving DecidableEq, Repr

/-- Line styles below the text: none, single, double, curly, dotted, dashed. -/
abbrev Underline := Nat

structure Pen where
  bold : Bool := false
  faint : Bool := false
  italic : Bool := false
  slowBlink : Bool := false
  rapidBlink : Bool := false
  reverse : Bool := false
  conceal : Bool := false
  strikethrough : Bool := false
  underline : Underline := 0
  foreground : Option PenColour := none
  background : Option PenColour := none
  underlineColour : Option PenColour := none
  deriving DecidableEq, Repr

namespace Pen

def isPlain (p : Pen) : Bool := p == {}

def leavesBlank (p : Pen) : Bool := !p.reverse && p.background.isNone && p.underline == 0

def escape : Char := Char.ofNat 27

def sequenceOf (codes : List String) : List Char :=
  escape :: '[' :: (";".intercalate codes).toList ++ ['m']

def reset : List Char := sequenceOf []

def colourCode (base : Nat) : PenColour → String
  | .basic i => toString (if i < 8 then base + i else base + 60 + (i - 8))
  | .indexed i => toString (base + 8) ++ ";5;" ++ toString i
  | .direct r g b =>
    toString (base + 8) ++ ";2;" ++ toString r ++ ";" ++ toString g ++ ";" ++ toString b

def underlineColourCode : PenColour → String
  | .basic i => "58;5;" ++ toString i
  | c => colourCode 50 c

def codes (p : Pen) : List String :=
  let attributes :=
    [(p.bold, "1"), (p.faint, "2"), (p.italic, "3"), (p.slowBlink, "5"), (p.rapidBlink, "6"),
     (p.reverse, "7"), (p.conceal, "8"), (p.strikethrough, "9")]
  (attributes.filter (·.1)).map (·.2) ++
    (if p.underline = 0 then []
     else if p.underline = 1 then ["4"]
     else ["4:" ++ toString p.underline]) ++
    (p.foreground.map (colourCode 30)).toList ++
    (p.background.map (colourCode 40)).toList ++
    (p.underlineColour.map underlineColourCode).toList

def sequence (p : Pen) : List Char := sequenceOf p.codes

/-- A colour after its selector and how many parameters it takes; the parts
are separated alike, by colons or by semicolons. -/
def readColour (selector : Parameter) : List Parameter → Option (Option PenColour × Nat)
  | kind :: rest =>
    match kind.number, rest with
    | 0, _ => some (none, 1)
    | 1, _ => some (some (.direct 0 0 0), 1)
    | 5, i :: _ =>
      if selector.continues = kind.continues ∧ !i.continues then
        some (some (.indexed (i.number % 256)), 2)
      else none
    | 2, a :: b :: c :: more =>
      let direct (r g b : Parameter) := PenColour.direct (r.number % 256) (g.number % 256) (b.number % 256)
      if selector.continues && kind.continues && a.continues && b.continues then
        if c.continues then
          match more with
          | d :: _ => if d.continues then none else some (some (direct b c d), 5)
          | [] => none
        else some (some (direct a b c), 4)
      else if selector.continues || kind.continues || a.continues || b.continues || c.continues then
        none
      else some (some (direct a b c), 4)
    | _, _ => none
  | [] => none

/-- One parameter of a style sequence, given those after it; the number tells
how many of them it uses. -/
def apply (p : Pen) (first : Parameter) (rest : List Parameter) : Pen × Nat :=
  let coloured (set : Option PenColour → Pen) : Pen × Nat :=
    match readColour first rest with
    | some (some c, n) => (set (some c), n)
    | some (none, n) => (p, n)
    | none => (p, 0)
  match first.number with
  | 0 => ({}, 0)
  | 1 => ({ p with bold := true }, 0)
  | 2 => ({ p with faint := true }, 0)
  | 3 => ({ p with italic := true }, 0)
  | 4 =>
    match first.continues, rest with
    | true, style :: _ =>
      if style.number < 6 then ({ p with underline := style.number }, 1) else (p, 0)
    | _, _ => ({ p with underline := 1 }, 0)
  | 5 => ({ p with slowBlink := true }, 0)
  | 6 => ({ p with rapidBlink := true }, 0)
  | 7 => ({ p with reverse := true }, 0)
  | 8 => ({ p with conceal := true }, 0)
  | 9 => ({ p with strikethrough := true }, 0)
  | 22 => ({ p with bold := false, faint := false }, 0)
  | 23 => ({ p with italic := false }, 0)
  | 24 => ({ p with underline := 0 }, 0)
  | 25 => ({ p with slowBlink := false, rapidBlink := false }, 0)
  | 27 => ({ p with reverse := false }, 0)
  | 28 => ({ p with conceal := false }, 0)
  | 29 => ({ p with strikethrough := false }, 0)
  | 38 => coloured fun c => { p with foreground := c }
  | 39 => ({ p with foreground := none }, 0)
  | 48 => coloured fun c => { p with background := c }
  | 49 => ({ p with background := none }, 0)
  | 58 => coloured fun c => { p with underlineColour := c }
  | 59 => ({ p with underlineColour := none }, 0)
  | n =>
    if 30 ≤ n ∧ n ≤ 37 then ({ p with foreground := some (.basic (n - 30)) }, 0)
    else if 40 ≤ n ∧ n ≤ 47 then ({ p with background := some (.basic (n - 40)) }, 0)
    else if 90 ≤ n ∧ n ≤ 97 then ({ p with foreground := some (.basic (n - 90 + 8)) }, 0)
    else if 100 ≤ n ∧ n ≤ 107 then ({ p with background := some (.basic (n - 100 + 8)) }, 0)
    else (p, 0)

def applyAll (p : Pen) : Nat → List Parameter → Pen
  | fuel + 1, first :: rest =>
    let (p, used) := p.apply first rest
    p.applyAll fuel (rest.drop used)
  | _, _ => p

def styled (p : Pen) (parameters : List Parameter) : Pen :=
  if parameters.isEmpty then {} else p.applyAll parameters.length parameters

end Pen

structure Link where
  parameters : String := ""
  target : String := ""
  deriving DecidableEq, Repr

namespace Link

def isNone (l : Link) : Bool := l.parameters.isEmpty && l.target.isEmpty

def sequence (l : Link) : List Char :=
  [Pen.escape, ']', '8', ';'] ++ l.parameters.toList ++ [';'] ++ l.target.toList ++ [Char.ofNat 7]

def reset : List Char := sequence {}

/-- The link that a command of three fields sets; any other leaves it. -/
def read (l : Link) (data : List Char) : Link :=
  match (String.ofList data).splitOn ";" with
  | [_, parameters, target] => ⟨parameters, target⟩
  | _ => l

end Link
end Sequencer.Text
