import Sequencer.Text.Pen

/-!
# Wrapped text

Breaks a text into lines of a number of cells, at blanks and after hyphens
where it can and inside a word where it must. Control sequences take no cells;
a style that is on at a break is switched off before it and on again after it.
-/

namespace Sequencer.Text

inductive Effect where
  | plain
  | style (parameters : List Parameter)
  | link (data : List Char)
  deriving DecidableEq, Repr

/-- A part of a text that is never divided: a cluster, a control character or
a control sequence. -/
structure Fragment where
  text : List Char
  cells : Nat := 0
  effect : Effect := .plain

namespace Fragment

/-- The characters of a control string up to its end, and what follows. Only
a system command may end with a bell; a cancelling character is not part of it. -/
def stringBody (bell : Bool) : List Char → List Char × List Char × List Char
  | [] => ([], [], [])
  | c :: rest =>
    if c.toNat = 0x07 ∧ bell then ([], [c], rest)
    else if c.toNat = 0x18 ∨ c.toNat = 0x1a then ([], [], c :: rest)
    else if c.toNat = 0x1b then
      match rest with
      | '\\' :: after => ([], [c, '\\'], after)
      | _ => ([], [], c :: rest)
    else if (String.utf8EncodeChar c).contains 0x9c then ([], [c], rest)
    else
      let (body, finish, after) := stringBody bell rest
      (c :: body, finish, after)

def commandNumber (body : List Char) : Option Nat :=
  let digits := body.takeWhile Char.isDigit
  if digits.isEmpty then none
  else some (digits.foldl (fun n c => 10 * n + (c.toNat - '0'.toNat)) 0)

def controlString (head : List Char) (bell : Bool) (cs : List Char) : Fragment × List Char :=
  let (body, finish, after) := stringBody bell cs
  let effect := if bell ∧ commandNumber body = some 8 then Effect.link body else .plain
  (⟨head ++ body ++ finish, 0, effect⟩, after)

def isParameterMark (c : Char) : Bool := c.isDigit || c = ';' || c = ':'

/-- The parameters of a control sequence. A last one without a number counts
only after a separator. -/
def parameters (marks : List Char) : List Parameter :=
  let rec go : List Char → Parameter → List Parameter → List Parameter
    | [], current, done =>
      if done.isEmpty ∧ current.value.isNone then [] else (current :: done).reverse
    | c :: rest, current, done =>
      if c = ':' then go rest {} ({ current with continues := true } :: done)
      else if c = ';' then go rest {} (current :: done)
      else go rest { current with value := some (10 * current.number + (c.toNat - '0'.toNat)) } done
  go marks {} []

/-- A control sequence after its two opening characters. One that is broken
off ends before the character that does not fit. -/
def control (head : List Char) (device : Bool) (cs : List Char) : Fragment × List Char :=
  let isPrivate (c : Char) : Bool := '<' ≤ c && c ≤ '?'
  let isIntermediate (c : Char) : Bool := ' ' ≤ c && c ≤ '/'
  let marks := cs.takeWhile isPrivate
  let rest := cs.dropWhile isPrivate
  let numbers := rest.takeWhile isParameterMark
  let rest := rest.dropWhile isParameterMark
  let middle := rest.takeWhile isIntermediate
  let rest := rest.dropWhile isIntermediate
  let read := head ++ marks ++ numbers ++ middle
  match rest with
  | [] => (⟨read, 0, .plain⟩, [])
  | c :: after =>
    if '@' ≤ c ∧ c ≤ '~' then
      if device then controlString (read ++ [c]) false after
      else if c = 'm' ∧ marks.isEmpty ∧ middle.isEmpty then
        (⟨read ++ [c], 0, .style (parameters numbers)⟩, after)
      else (⟨read ++ [c], 0, .plain⟩, after)
    else (⟨read, 0, .plain⟩, rest)

def escaped (cs : List Char) : Fragment × List Char :=
  let escape := Pen.escape
  match cs with
  | [] => (⟨[escape], 0, .plain⟩, [])
  | '[' :: rest => control [escape, '['] false rest
  | 'P' :: rest => control [escape, 'P'] true rest
  | ']' :: rest => controlString [escape, ']'] true rest
  | 'X' :: rest => controlString [escape, 'X'] false rest
  | '^' :: rest => controlString [escape, '^'] false rest
  | '_' :: rest => controlString [escape, '_'] false rest
  | _ =>
    let isIntermediate (c : Char) : Bool := ' ' ≤ c && c ≤ '/'
    let middle := cs.takeWhile isIntermediate
    match cs.dropWhile isIntermediate with
    | [] => (⟨escape :: middle, 0, .plain⟩, [])
    | c :: after =>
      if '0' ≤ c ∧ c ≤ '~' then (⟨escape :: middle ++ [c], 0, .plain⟩, after)
      else (⟨escape :: middle, 0, .plain⟩, c :: after)

def take (c : Char) (rest : List Char) : Fragment × List Char :=
  if c = Pen.escape then escaped rest
  else if c.toNat < 0x80 then (⟨[c], charCells c, .plain⟩, rest)
  else
    let (cluster, after) := takeCluster c rest
    (⟨cluster, clusterCells cluster, .plain⟩, after)

def split : Nat → List Char → List Fragment
  | fuel + 1, c :: rest =>
    let (fragment, after) := take c rest
    fragment :: split fuel after
  | _, _ => []

end Fragment

/-- A text while it is wrapped: the finished part, the blanks and the word
that are not placed yet, and how far the current line goes. The three texts
are kept backwards. -/
structure Wrapping where
  done : List Char := []
  space : List Char := []
  word : List Char := []
  wordCells : Nat := 0
  column : Nat := 0
  pen : Pen := {}
  link : Link := {}
  placedPen : Pen := {}
  placedLink : Link := {}

namespace Wrapping

def write (w : Wrapping) (cs : List Char) : Wrapping := { w with done := cs.reverse ++ w.done }

def placeSpace (w : Wrapping) : Wrapping :=
  { w with done := w.space ++ w.done, column := w.column + w.space.length, space := [] }

def placeWord (w : Wrapping) : Wrapping :=
  if w.word.isEmpty then w
  else
    let w := { w with placedPen := w.pen, placedLink := w.link }.placeSpace
    { w with done := w.word ++ w.done, column := w.column + w.wordCells, word := [], wordCells := 0 }

def breakLine (w : Wrapping) : Wrapping :=
  let penOff := if w.placedPen.isPlain then [] else Pen.reset
  let penOn := if w.placedPen.isPlain then [] else w.placedPen.sequence
  let linkOff := if w.placedLink.isNone then [] else Link.reset
  let linkOn := if w.placedLink.isNone then [] else w.placedLink.sequence
  { w.write (penOff ++ linkOff ++ ['\n'] ++ linkOn ++ penOn) with column := 0, space := [] }

def settleSpace (w : Wrapping) (limit : Nat) : Wrapping :=
  if w.wordCells ≠ 0 then w
  else if limit < w.column + w.space.length then { w with column := 0, space := [] }
  else { w with done := w.space ++ w.done, space := [] }

def pushToSpace (w : Wrapping) (c : Char) : Wrapping :=
  let w := w.placeWord
  { w with space := c :: w.space }

def pushToWord (w : Wrapping) (f : Fragment) : Wrapping :=
  { w with word := f.text.reverse ++ w.word, wordCells := w.wordCells + f.cells }

/-- Adds to the word; a word as long as a line is placed first, and a line
that the word would overrun is broken before it. -/
def extendWord (w : Wrapping) (limit : Nat) (f : Fragment) : Wrapping :=
  let w := if limit < w.wordCells + f.cells then w.placeWord else w
  let w := w.pushToWord f
  if limit < w.column + w.wordCells + w.space.length then w.breakLine else w

def affected (w : Wrapping) : Effect → Wrapping
  | .plain => w
  | .style parameters => { w with pen := w.pen.styled parameters }
  | .link data => { w with link := w.link.read data }

def pushHyphen (w : Wrapping) (limit : Nat) (f : Fragment) : Wrapping :=
  let w := w.placeSpace
  if w.column + w.wordCells + f.cells ≤ limit then
    let w := w.placeWord
    { w.write f.text with column := w.column + f.cells }
  else w.extendWord limit f

def push (w : Wrapping) (limit : Nat) (f : Fragment) : Wrapping :=
  match f.text with
  | ['\t'] => w.pushToSpace '\t'
  | ['\n'] => (w.settleSpace limit).placeWord.breakLine
  | [' '] => if w.pen.leavesBlank then w.pushToSpace ' ' else w.extendWord limit f
  | ['-'] => w.pushHyphen limit f
  | _ => if f.cells = 0 then (w.affected f.effect).pushToWord f else w.extendWord limit f

def finish (w : Wrapping) (limit : Nat) : List Char :=
  let w := (w.settleSpace limit).placeWord
  w.done.reverse ++ (if w.placedLink.isNone then [] else Link.reset) ++
    (if w.placedPen.isPlain then [] else Pen.reset)

end Wrapping

def wrap (limit : Nat) (s : String) : String :=
  if limit = 0 then s
  else
    let w := (Fragment.split s.length s.toList).foldl (fun w f => w.push limit f) ({} : Wrapping)
    String.ofList (w.finish limit)

end Sequencer.Text
