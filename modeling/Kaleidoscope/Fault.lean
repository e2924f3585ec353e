/-!
# What can go wrong

Every failure of reading, lowering or running is a value that names its cause; the wording stands in
one `message` function for each kind of cause.
-/

namespace Kaleidoscope

/-- What the grammar wanted where another token stood. -/
inductive Expectation
  | define
  | declare
  | functionName
  | unaryOperator
  | binaryOperator
  | parametersOpen
  | parametersClose
  | expression
  | groupClose
  | argumentEnd
  | thenWord
  | elseWord
  | loopVariable
  | loopEquals
  | loopEnd
  | loopBody
  deriving DecidableEq, Repr

/-- The wording of an unmet expectation. -/
def Expectation.message : Expectation → String
  | .define => "expected 'def'"
  | .declare => "expected 'extern'"
  | .functionName => "expected function name in prototype"
  | .unaryOperator => "expected unary operator"
  | .binaryOperator => "expected binary operator"
  | .parametersOpen => "expected '(' in prototype"
  | .parametersClose => "expected ')' in prototype"
  | .expression => "unknown token when expecting an expression"
  | .groupClose => "expected ')'"
  | .argumentEnd => "expected ')' or ',' in argument list"
  | .thenWord => "expected then"
  | .elseWord => "expected else"
  | .loopVariable => "expected identifier after for"
  | .loopEquals => "expected '=' after for"
  | .loopEnd => "expected ',' after for start value"
  | .loopBody => "expected 'in' after for"

/-- Why a text could not be cut into tokens. -/
inductive LexicalFault
  /-- A run of digits and points is no number; it starts that many bytes after the last token of its
  line. -/
  | badNumber (offset : Nat)
  /-- A line is not UTF-8. -/
  | badText
  deriving DecidableEq, Repr

/-- The wording of a lexical fault. -/
def LexicalFault.message : LexicalFault → String
  | .badNumber offset => s!"Parse error at {offset}\ninvalid float literal"
  | .badText => "stream did not contain valid UTF-8"

/-- How a function breaks the rules of its representation. Values are given by label. -/
inductive Defect
  | noBody
  | definedTwice (value : String)
  | noTerminator (block : String)
  | missingTarget (block : String)
  | undefinedValue (value : String)
  | phiNotAtTop (block : String)
  | notPredecessor (block : String)
  | unknownSlot (block : String)
  deriving DecidableEq, Repr

/-- The wording of a defect. -/
def Defect.message : Defect → String
  | .noBody => "function has no body"
  | .definedTwice value => s!"value {value} defined twice"
  | .noTerminator block => s!"block '{block}' has no terminator"
  | .missingTarget block => s!"block '{block}' branches to a missing block"
  | .undefinedValue value => s!"use of undefined value {value}"
  | .phiNotAtTop block => s!"phi not at top of block '{block}'"
  | .notPredecessor block => s!"phi in '{block}' names a block that is not a predecessor"
  | .unknownSlot block => s!"unknown stack slot in '{block}'"

/-- Why a run ended without a value. -/
inductive Stop
  /-- Calls are nested too deeply. -/
  | stackExhausted
  /-- A function was called with a wrong number of arguments. -/
  | wrongArguments (name : String) (wanted given : Nat)
  /-- A name is neither loaded nor provided by the host. -/
  | unresolved (name : String)
  /-- A join was reached from a block that it does not list. -/
  | unknownPredecessor (function block : String)
  /-- A block without terminator was run to its end. -/
  | fellOff (function block : String)
  /-- A value, slot or block lies outside the tables of its function. -/
  | outOfRange
  /-- The bound on the number of blocks that one call may visit is used up. -/
  | outOfFuel
  deriving DecidableEq, Repr

/-- The wording of an ended run. -/
def Stop.message : Stop → String
  | .stackExhausted => "call stack exhausted"
  | .wrongArguments name wanted given => s!"{name} expects {wanted} arguments, got {given}"
  | .unresolved name => s!"unresolved symbol: {name}"
  | .unknownPredecessor function block =>
    s!"{function}: phi in '{block}' reached from an unknown block"
  | .fellOff function block => s!"{function}: fell off block '{block}'"
  | .outOfRange => "index out of range"
  | .outOfFuel => "out of fuel"

/-- Why a file could not be opened. -/
inductive Unreadable
  | missing
  | notDirectory
  | isDirectory
  /-- The path, or a name in it, is longer than the system takes. -/
  | tooLong
  /-- A path with the character NUL is never handed to the system. -/
  | holdsNul
  | other (reason : String)
  deriving DecidableEq, Repr

/-- The wording of the system for a file that could not be opened. -/
def Unreadable.message : Unreadable → String
  | .missing => "No such file or directory (os error 2)"
  | .notDirectory => "Not a directory (os error 20)"
  | .isDirectory => "Is a directory (os error 21)"
  | .tooLong => "File name too long (os error 36)"
  | .holdsNul => "file name contained an unexpected NUL byte"
  | .other reason => reason

/-- Everything that a form, a run or an included file can fail with. -/
inductive Fault
  | lexical (cause : LexicalFault)
  | unexpected (wanted : Expectation)
  | invalidPrecedence
  | invalidOperands
  | unknownVariable (name : String)
  | unknownFunction (name : String)
  | argumentCount (wanted given : Nat)
  | redefinition (name : String)
  | signatureMismatch (name : String)
  | unknownUnaryOperator (op : Char)
  | unknownBinaryOperator (op : Char)
  | unverified (name : String) (defect : Defect)
  | stopped (cause : Stop)
  | unreadable (path : String) (cause : Unreadable)
  deriving DecidableEq, Repr

/-- The wording of a fault, as it is shown to the user. -/
def Fault.message : Fault → String
  | .lexical cause => s!"lexical error: {cause.message}"
  | .unexpected wanted => wanted.message
  | .invalidPrecedence => "invalid precedence: must be 1..100"
  | .invalidOperands => "invalid number of operands for operator"
  | .unknownVariable name => s!"unknown variable name: {name}"
  | .unknownFunction name => s!"unknown function referenced: {name}"
  | .argumentCount wanted given =>
    s!"incorrect number of arguments passed: expected {wanted}, found {given}"
  | .redefinition name => s!"function cannot be redefined: {name}"
  | .signatureMismatch name => s!"function redeclared with a different number of arguments: {name}"
  | .unknownUnaryOperator op => s!"unknown unary operator: {op}"
  | .unknownBinaryOperator op => s!"unknown binary operator: {op}"
  | .unverified name defect => s!"function failed verification: {name}: {defect.message}"
  | .stopped cause => s!"runtime error: {cause.message}"
  | .unreadable path cause => s!"couldn't read file: {path} ({cause.message})"

end Kaleidoscope
