import Kaleidoscope.Form.Basic
import Kaleidoscope.Expr.Reading

/-!
# Reading forms

A binary prototype declares its operator as soon as it is read, so that the body of its own
definition can use it; a body that cannot be read takes the operator back. After a fault the token
at which reading stopped is dropped, and the next form begins behind it.
-/

namespace Kaleidoscope

/-- What a token that begins a prototype announces. -/
inductive HeadOpening
  | function (name : String)
  | unary
  | binary

/-- What a token announces when it begins a prototype. -/
def HeadOpening.ofToken? : Token → Option HeadOpening
  | .name name => some (.function name)
  | .keyword .unary => some .unary
  | .keyword .binary => some .binary
  | _ => none

/-- The operator that can be declared with a token: a symbol of ASCII. -/
def declarable? (t : Token) : Option Char :=
  t.symbol?.filter fun c => c.toNat < 128

namespace Read

/-- The precedence of an operator that is being declared: a number from 1 to 100, cut to a whole
one. -/
def operatorPrecedence : Read Int := do
  match ← peek with
  | .number x =>
    if x < 1 || 100 < x then throw .invalidPrecedence
    advance
    return x.toUInt8.toNat
  | _ => return Precedences.unstated

/-- What a prototype declares. -/
def head : Read Head := do
  match ← demand HeadOpening.ofToken? .functionName with
  | .function name => return .function name
  | .unary => return .unary (← demand declarable? .unaryOperator)
  | .binary =>
    let op ← demand declarable? .binaryOperator
    return .binary op (← operatorPrecedence)

/-- The names at the front, at most as many as the bound says. -/
def namesWithin : Nat → Read (List String)
  | 0 => return []
  | n + 1 => do
    match ← accept Token.name? with
    | some name => return name :: (← namesWithin n)
    | none => return []

/-- All names at the front. -/
def names : Read (List String) := fun r => namesWithin (fuel r) r

/-- How many parameters a function must have, if its head says so. -/
def operands : Head → Option Nat
  | .function _ => none
  | .unary _ => some 1
  | .binary _ _ => some 2

/-- A function's head and its parameters in parentheses. -/
def prototype : Read Prototype := do
  let head ← head
  symbol '(' .parametersOpen
  let params ← names
  symbol ')' .parametersClose
  match operands head with
  | some n => if params.length ≠ n then throw .invalidOperands
  | none => pure ()
  return ⟨head, params⟩

/-- Makes a declared binary operator known, and tells how to take it back. -/
def declareOperator (proto : Prototype) : Read (Precedences → Precedences) := do
  match proto.head with
  | .binary op precedence =>
    match (← get).precedences.declare op precedence with
    | .error fault => throw fault
    | .ok (previous, precedences) =>
      modify fun r => { r with precedences }
      return (·.putBack op previous)
  | _ => return id

/-- A definition: its keyword, a prototype and a body. -/
def definition : Read Definition := do
  keyword .define .define
  let proto ← prototype
  let takeBack ← declareOperator proto
  try
    return ⟨proto, ← expression⟩
  catch fault =>
    modify fun r => { r with precedences := takeBack r.precedences }
    throw fault

/-- A declaration: its keyword and a prototype. -/
def declaration : Read Prototype := do
  keyword .declare .declare
  let proto ← prototype
  let _ ← declareOperator proto
  return proto

/-- A bare expression. -/
def bareExpression : Read Definition := do
  return .anonymous (← expression)

/-- The form that the current token begins; `none` at the end of the source. -/
def formAt : Token → Read (Option Form)
  | .finish => return none
  | .symbol ';' => do
    advance
    return some .separator
  | .keyword .define => return some (.definition (← definition))
  | .keyword .declare => return some (.declaration (← declaration))
  | _ => return some (.expression (← bareExpression))

/-- The next form; `none` at the end of the source. After a fault the current token is dropped. -/
def form : Read (Option Form) :=
  tryCatch (do formAt (← peek)) fun fault => do
    advance
    throw fault

end Read

end Kaleidoscope
