import Kaleidoscope.Expr.Basic
import Kaleidoscope.Reader

/-!
# Reading expressions

Expressions are read by recursive descent, and chains of binary operators by precedence climbing: a
stronger operator to the right takes the operand between, and operators of one precedence group to
the left. Every symbol of ASCII but the opening parenthesis begins a unary expression.

The functions that call each other take a bound on the depth of their calls. At the latest the third
call in a row uses up a token, so the bound that `fuel` computes from what is left of the source is
never reached.
-/

namespace Kaleidoscope

/-- What a token that begins a primary expression announces. -/
inductive Opening
  | name (text : String)
  | number (value : Float)
  | group
  | conditional
  | loop

/-- What a token announces when it begins a primary expression. -/
def Opening.ofToken? : Token → Option Opening
  | .name text => some (.name text)
  | .number value => some (.number value)
  | .symbol '(' => some .group
  | .keyword .ifWord => some .conditional
  | .keyword .forWord => some .loop
  | _ => none

/-- The unary operator that a token can stand for. -/
def unaryOperator? (t : Token) : Option Char :=
  t.symbol?.filter fun c => c.toNat < 128 && c ≠ '(' && c ≠ '.'

namespace Read

/-- Uses up the current token if it is a binary operator of at least the given precedence. -/
def binaryOperator (least : Int) : Read (Option (Char × Int)) := do
  let table := (← get).precedences
  accept fun t => (table.operator? t).filter fun found => least ≤ found.2

/-- The current token is a binary operator that binds more strongly. -/
def strongerFollows (precedence : Int) : Read Bool := do
  let t ← peek
  return ((← get).precedences.operator? t).any fun found => precedence < found.2

/-- The rest of an expression in parentheses. -/
def group (expression : Read Expr) : Read Expr := do
  let e ← expression
  symbol ')' .groupClose
  return e

/-- The rest of a name: nothing, or the arguments of a call. -/
def nameOrCall (name : String) (arguments : Read (List Expr)) : Read Expr := do
  if ← acceptIf (·.isSymbol '(') then
    if ← acceptIf (·.isSymbol ')') then return .call name []
    else return .call name (← arguments)
  else return .variable name

/-- The rest of a conditional. -/
def conditional (expression : Read Expr) : Read Expr := do
  let condition ← expression
  keyword .thenWord .thenWord
  let yes ← expression
  keyword .elseWord .elseWord
  let no ← expression
  return .conditional condition yes no

/-- The step of a loop, if a comma announces one. -/
def loopStep (expression : Read Expr) : Read (Option Expr) := do
  if ← acceptIf (·.isSymbol ',') then return some (← expression) else return none

/-- The rest of a loop. -/
def loop (expression : Read Expr) : Read Expr := do
  let var ← demand Token.name? .loopVariable
  symbol '=' .loopEquals
  let start ← expression
  symbol ',' .loopEnd
  let goOn ← expression
  let step ← loopStep expression
  keyword .inWord .loopBody
  let body ← expression
  return .loop var start goOn step body

/-- An expression that is no operator's. -/
def primary (expression : Read Expr) (arguments : Read (List Expr)) : Read Expr := do
  match ← demand Opening.ofToken? .expression with
  | .name text => nameOrCall text arguments
  | .number value => return .number value
  | .group => group expression
  | .conditional => conditional expression
  | .loop => loop expression

/-- The right operand of an operator: the one that follows it, with all operators that bind more
strongly. -/
def rightOperand (climb : Int → Expr → Read Expr) (precedence : Int) (operand : Expr) :
    Read Expr := do
  if ← strongerFollows precedence then climb (precedence + 1) operand else return operand

mutual

/-- A primary expression behind any number of unary operators. -/
def unaryWithin : Nat → Read Expr
  | 0 => throw (.unexpected .expression)
  | n + 1 => do
    match ← accept unaryOperator? with
    | some op => return .unary op (← unaryWithin n)
    | none => primary (expressionWithin n) (argumentsWithin n)

/-- The operators of at least the given precedence that follow a left operand, with their
operands. -/
def binaryWithin : Nat → Int → Expr → Read Expr
  | 0, _, _ => throw (.unexpected .expression)
  | n + 1, least, left => do
    match ← binaryOperator least with
    | none => return left
    | some (op, precedence) =>
      let operand ← unaryWithin n
      let right ← rightOperand (binaryWithin n) precedence operand
      binaryWithin n least (.binary op left right)

/-- A unary expression and all operators after it. -/
def expressionWithin : Nat → Read Expr
  | 0 => throw (.unexpected .expression)
  | n + 1 => do
    let left ← unaryWithin n
    binaryWithin n 0 left

/-- One or more arguments, separated by commas, up to and with the closing parenthesis. -/
def argumentsWithin : Nat → Read (List Expr)
  | 0 => throw (.unexpected .expression)
  | n + 1 => do
    let arg ← expressionWithin n
    if ← acceptIf (·.isSymbol ')') then return [arg]
    else
      symbol ',' .argumentEnd
      return arg :: (← argumentsWithin n)

end

/-- A bound on the depth of calls while the rest of the source is read. -/
def fuel (r : Reader) : Nat :=
  3 * r.size + 3

/-- A primary expression behind any number of unary operators. -/
def unary : Read Expr := fun r => unaryWithin (fuel r) r

/-- A unary expression and all operators after it. -/
def expression : Read Expr := fun r => expressionWithin (fuel r) r

end Read

end Kaleidoscope
