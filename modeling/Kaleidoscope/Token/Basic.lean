/-!
# Tokens

The vocabulary of the language: nine keywords, names, numbers, and single symbols.
`Keyword.ofText?_text` says that the spellings of the keywords are different from each other.
-/

namespace Kaleidoscope

/-- A word with a meaning of its own. -/
inductive Keyword
  | define
  | declare
  | ifWord
  | thenWord
  | elseWord
  | forWord
  | inWord
  | unary
  | binary
  deriving DecidableEq, Repr

namespace Keyword

/-- The spelling of a keyword. -/
def text : Keyword → String
  | define => "def"
  | declare => "extern"
  | ifWord => "if"
  | thenWord => "then"
  | elseWord => "else"
  | forWord => "for"
  | inWord => "in"
  | unary => "unary"
  | binary => "binary"

/-- All keywords. -/
def all : List Keyword :=
  [define, declare, ifWord, thenWord, elseWord, forWord, inWord, unary, binary]

theorem mem_all (k : Keyword) : k ∈ all := by
  cases k <;> decide

/-- The keyword with the given spelling. -/
def ofText? (s : String) : Option Keyword :=
  all.find? (·.text = s)

/-- A keyword is recognized by its text. -/
theorem ofText?_text (k : Keyword) : ofText? k.text = some k := by
  cases k <;> decide

/-- A text that is recognized is that of the keyword. -/
theorem text_of_ofText? {s : String} {k : Keyword} (h : ofText? s = some k) : k.text = s := by
  simpa using List.find?_some h

end Keyword

/-- A unit of the language. -/
inductive Token
  | keyword (k : Keyword)
  | name (text : String)
  | number (value : Float)
  | symbol (c : Char)
  /-- The end of the source; it stands there for ever. -/
  | finish

/-- The token of a word: its keyword, or a name if it has no meaning of its own. -/
def Token.ofWord (s : String) : Token :=
  match Keyword.ofText? s with
  | some k => .keyword k
  | none => .name s

/-- The text of a name. -/
def Token.name? : Token → Option String
  | .name s => some s
  | _ => none

/-- The character of a symbol. -/
def Token.symbol? : Token → Option Char
  | .symbol c => some c
  | _ => none

/-- The token is the symbol. -/
def Token.isSymbol (c : Char) : Token → Bool
  | .symbol d => d = c
  | _ => false

/-- The token is the keyword. -/
def Token.isKeyword (k : Keyword) : Token → Bool
  | .keyword l => l = k
  | _ => false

@[simp] theorem Token.isSymbol_iff {c : Char} {t : Token} :
    t.isSymbol c = true ↔ t = .symbol c := by
  cases t <;> simp [Token.isSymbol]

@[simp] theorem Token.isKeyword_iff {k : Keyword} {t : Token} :
    t.isKeyword k = true ↔ t = .keyword k := by
  cases t <;> simp [Token.isKeyword]

end Kaleidoscope
