import Sequencer.Qasm.Token

/-!
# Matching token sequences

Grammar elements match, are absent, or fail. Options, repetitions and
alternatives run on a branch of the cursor and may be undone, but only while
the branch is at most two tokens ahead: a branch that failed further on fails
the whole element. Beside its place a cursor carries the deepest failure met,
which is what a program with left-over tokens reports.

A repetition goes on for as long as its element is found: the limit that the
parser library puts on the number of rounds is left out.
-/

namespace Sequencer.Qasm

inductive SyntaxError where
  | lexical (error : LexError)
  | unexpected (token : Token)
  | badInteger (pos : Position) (spelling : String) (error : Decimal.NumberError)
  | badDecimal (pos : Position) (spelling : String) (error : Decimal.NumberError)

namespace SyntaxError

def pos : SyntaxError → Position
  | .lexical error => error.pos
  | .unexpected token => token.pos
  | .badInteger pos _ _ => pos
  | .badDecimal pos _ _ => pos

def shown (token : Token) : String :=
  if token.kind = .endOfText then "<EOF>" else token.value

def message : SyntaxError → String
  | .lexical error => error.message
  | .unexpected token => "unexpected token " ++ Text.quote (shown token)
  | .badInteger _ spelling error =>
    "failed to conform: strconv.ParseInt: parsing " ++ Text.quote spelling ++ ": " ++ error.message
  | .badDecimal _ spelling error =>
    "failed to conform: strconv.ParseFloat: parsing " ++ Text.quote spelling ++ ": " ++ error.message

end SyntaxError

structure Cursor where
  rest : List Token
  finish : Position
  used : Nat := 0
  depth : Nat := 0
  deepest : Option SyntaxError := none

namespace Cursor

/-- How many tokens an undone branch may be ahead. -/
def lookahead : Nat := 2

def current (c : Cursor) : Token :=
  match c.rest with
  | token :: _ => token
  | [] => ⟨.endOfText, "", c.finish, c.finish⟩

def accept (c branch : Cursor) : Cursor :=
  if c.depth ≤ branch.depth then branch
  else { branch with depth := c.depth, deepest := c.deepest }

def note (c : Cursor) (error : SyntaxError) : Cursor :=
  if c.depth ≤ c.used then { c with deepest := some error, depth := c.used } else c

def record (c : Cursor) (error : SyntaxError) (branch : Cursor) : Cursor :=
  if c.depth < branch.depth then { c with depth := branch.depth, deepest := branch.deepest }
  else if c.depth ≤ branch.used then
    { c with depth := max branch.used branch.depth, deepest := some error }
  else c

/-- Whether the failure of a branch is final, and the cursor to go on with. -/
def stop (c : Cursor) (error : SyntaxError) (branch : Cursor) : Bool × Cursor :=
  let c := c.record error branch
  if c.used + lookahead < branch.used then (true, c.accept branch) else (false, c)

end Cursor

inductive Match (α : Type) where
  | found (value : α)
  | absent
  | failed (error : SyntaxError)

def Matcher (α : Type) : Type := Cursor → Match α × Cursor

namespace Matcher

variable {α β : Type}

/-- A sequence: absent when its first element is. Later elements are wrapped
in `required`. -/
def andThen (p : Matcher α) (q : α → Matcher β) : Matcher β := fun c =>
  match p c with
  | (.found a, c) => q a c
  | (.absent, c) => (.absent, c)
  | (.failed e, c) => (.failed e, c)

def done (a : α) : Matcher α := fun c => (.found a, c)

instance : Monad Matcher where
  pure := done
  bind := andThen

/-- An element that the sequence cannot do without once it has begun. -/
def required (p : Matcher α) : Matcher α := fun c =>
  match p c with
  | (.absent, c) => (.failed (.unexpected c.current), c)
  | r => r

def token (accepts : Token → Bool) : Matcher Token := fun c =>
  match c.rest with
  | t :: rest => if accepts t then (.found t, { c with rest := rest, used := c.used + 1 }) else (.absent, c)
  | [] => (.absent, c)

/-- A literal compares the value of the token, whatever its kind. -/
def literal (value : String) : Matcher Token := token fun t => t.value == value

def oneOf (values : List String) : Matcher Token := token fun t => values.contains t.value

def ofKind (kind : TokenKind) : Matcher Token := token fun t => t.kind == kind

def optional (p : Matcher α) : Matcher (Option α) := fun c =>
  match p c with
  | (.found a, branch) => (.found (some a), c.accept branch)
  | (.absent, _) => (.found none, c)
  | (.failed e, branch) =>
    match (c.note e).stop e branch with
    | (true, c) => (.failed e, c)
    | (false, c) => (.found none, c)

/-- Up to `fuel` rounds; a round consumes a token, so the number of tokens left is enough. -/
def rounds (p : Matcher α) : Nat → List α → Matcher (List α)
  | 0, acc => done acc.reverse
  | fuel + 1, acc => fun c =>
    match p c with
    | (.found a, branch) => rounds p fuel (a :: acc) (c.accept branch)
    | (.absent, _) => (.found acc.reverse, c)
    | (.failed e, branch) =>
      match (c.note e).stop e branch with
      | (true, c) => (.failed e, c)
      | (false, c) => (.found acc.reverse, c)

def many (p : Matcher α) : Matcher (List α) := fun c => rounds p (c.rest.length + 1) [] c

def further (best : Option (Nat × SyntaxError)) (used : Nat) (error : SyntaxError) :
    Option (Nat × SyntaxError) :=
  match best with
  | some (most, _) => if most ≤ used then some (used, error) else best
  | none => some (used, error)

def alternatives : List (Matcher α) → Option (Nat × SyntaxError) → Matcher α
  | [], best => fun c =>
    match best with
    | some (_, e) => (.failed e, c.note e)
    | none => (.absent, c)
  | p :: rest, best => fun c =>
    match p c with
    | (.found a, branch) => (.found a, c.accept branch)
    | (.absent, _) => alternatives rest best c
    | (.failed e, branch) =>
      match c.stop e branch with
      | (true, c) => (.failed e, c)
      | (false, c) => alternatives rest (further best branch.used e) c

def firstOf (choices : List (Matcher α)) : Matcher α := alternatives choices none

/-- A construct of the grammar. Its failure is noted; a value that cannot be
built from its tokens fails it at its end. -/
def construct (p : Matcher α) (build : α → Except SyntaxError β) : Matcher β := fun c =>
  match p c with
  | (.found a, c) =>
    match build a with
    | .ok b => (.found b, c)
    | .error e => (.failed e, c)
  | (.absent, c) => (.absent, c)
  | (.failed e, c) => (.failed e, c.note e)

def located (p : Matcher α) (build : Position → α → Except SyntaxError β) : Matcher β := fun c =>
  construct p (build c.current.pos) c

def commaList (p : Matcher α) : Matcher (List α) := do
  let first ← p
  let rest ← many do
    let _ ← literal ","
    required p
  return first :: rest

end Matcher
end Sequencer.Qasm
