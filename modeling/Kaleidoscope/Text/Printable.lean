/-!
# Text without control sequences

A terminal takes control characters and escape sequences as commands. `printable` leaves them out of
a text that is quoted for a reader, all but the white space among them.
-/

namespace Kaleidoscope.Text

/-- Where a text stands with regard to escape sequences. -/
inductive Escape
  | outside
  /-- Directly after the character that starts an escape sequence. -/
  | opened
  /-- In an escape sequence that a single character will end. -/
  | short
  /-- In a control sequence: its parameters go on to a letter. -/
  | control
  /-- In a string to the terminal that the bell ends. -/
  | title
  /-- In another string to the terminal. -/
  | string
  deriving DecidableEq, Repr

/-- The control characters that are white space. -/
def isBreak (c : Char) : Bool :=
  c = '\t' || c = '\n' || c = '\x0c' || c = '\r'

/-- The control characters of ASCII. -/
def isControl (c : Char) : Bool :=
  c < ' ' || c = '\x7f'

namespace Escape

/-- How a character of a sequence that is neither a control character nor beyond ASCII goes on with
the sequence. -/
def follow (c : Char) : Escape → Escape
  | .opened =>
    if c ≤ '/' then .short
    else match c with
      | '[' => .control
      | ']' => .title
      | 'P' | 'X' | '^' | '_' => .string
      | _ => .outside
  | .short => if c ≤ '/' then .short else .outside
  | .control => if c ≤ '?' then .control else .outside
  | e => e

/-- Where a text stands after a character. The escape character starts a sequence anew, and two
other control characters end one. -/
def next (e : Escape) (c : Char) : Escape :=
  if c = '\x1b' then .opened
  else if c = '\x18' || c = '\x1a' then .outside
  else match e with
    | .outside => .outside
    | .title => if c = '\x07' then .outside else .title
    | .string => .string
    | e => if isBreak c then .outside else if isControl c || '~' < c then e else e.follow c

/-- The character is left in the text. White space in a sequence is left, and breaks it off; in a
string to the terminal it belongs to the string. -/
def keeps (e : Escape) (c : Char) : Bool :=
  match e with
  | .outside => isBreak c || !isControl c
  | .title | .string => false
  | _ => isBreak c

end Escape

/-- What is left of a text that starts at the given place. -/
def printableFrom : Escape → List Char → List Char
  | _, [] => []
  | e, c :: cs =>
    if e.keeps c then c :: printableFrom (e.next c) cs else printableFrom (e.next c) cs

/-- The text without control characters and escape sequences, but with white space. -/
def printable (text : String) : String :=
  String.ofList (printableFrom .outside text.toList)

end Kaleidoscope.Text
