import Kaleidoscope.Token.Lexer
import Kaleidoscope.Precedence

/-!
# The state of reading

A reader hands out tokens with one token of lookahead, and holds the precedences of the operators.
The lookahead is fetched only when something asks for it, so that nothing is read ahead of a form
that is complete. A token is used up only by an action that makes something of it. An action of type
`Read` keeps the state it has reached when it fails.
-/

namespace Kaleidoscope

/-- Where reading stands. -/
structure Reader where
  lexer : Lexer
  /-- The token that was looked at and not yet used. -/
  looked : Option Token := none
  precedences : Precedences := {}

/-- An action on a reader that gives a result or a fault. -/
abbrev Read := EStateM Fault Reader

namespace Reader

/-- A reader at the start of a source, with the built-in operators. -/
def ofBytes (source : List UInt8) : Reader :=
  { lexer := .ofBytes source }

/-- The reader moved to the start of another source; what was left of the old one is dropped. -/
def setSource (r : Reader) (source : List UInt8) : Reader :=
  { r with lexer := .ofBytes source, looked := none }

/-- An upper bound on the tokens and faults that are left before the end. -/
def size (r : Reader) : Nat :=
  match r.looked with
  | none | some .finish => r.lexer.size
  | some _ => r.lexer.size + 1

end Reader

namespace Read

/-- The current token. A lexical fault is used up when it is reported. -/
def peek : Read Token := fun r =>
  match r.looked with
  | some t => .ok t r
  | none =>
    match r.lexer.next with
    | (.ok t, lexer) => .ok t { r with lexer, looked := some t }
    | (.error cause, lexer) => .error (.lexical cause) { r with lexer }

/-- Uses up the current token. -/
def advance : Read Unit :=
  modify fun r => { r with looked := none }

/-- Uses up the current token if something can be made of it; else it stays where it is. -/
def accept {α : Type} (choose : Token → Option α) : Read (Option α) := do
  let chosen := choose (← peek)
  if chosen.isSome then advance
  return chosen

/-- Uses up the current token if it passes a test, and tells whether it did. -/
def acceptIf (test : Token → Bool) : Read Bool :=
  return (← accept fun t => if test t then some () else none).isSome

/-- Uses up the current token, of which something must be made. -/
def demand {α : Type} (choose : Token → Option α) (wanted : Expectation) : Read α := do
  match ← accept choose with
  | some a => return a
  | none => throw (.unexpected wanted)

/-- Uses up the current token, which must be the symbol. -/
def symbol (c : Char) (wanted : Expectation) : Read Unit :=
  demand (fun t => if t.isSymbol c then some () else none) wanted

/-- Uses up the current token, which must be the keyword. -/
def keyword (k : Keyword) (wanted : Expectation) : Read Unit :=
  demand (fun t => if t.isKeyword k then some () else none) wanted

end Read

end Kaleidoscope
