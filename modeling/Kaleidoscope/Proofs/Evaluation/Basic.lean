import Kaleidoscope.Form.Basic
import Kaleidoscope.Engine.Basic

/-!
# Evaluation

The meaning of an expression without any code: its value comes from the values of its parts. A
variable stands for its innermost binding, and a function is called by name. What runs writes to the
same text as in the engine and stops for the same reasons.

`Definition.callWithin` closes the circle: a call evaluates the body of the definition of its name.
A bound on the turns of each loop stands where the engine has its bound on blocks.
-/

namespace Kaleidoscope

open Engine (Run Caller Host)

/-- The values of the variables in scope. -/
abbrev Bindings := Dict String Float

/-- The bindings of parameters to arguments; of two parameters of one name the later one counts. -/
def Bindings.bind : Bindings → List String → List Float → Bindings
  | env, p :: ps, x :: xs => Bindings.bind (env.insert p x) ps xs
  | env, _, _ => env

namespace Expr

/-- The step of a loop, which is one if there is none. -/
def stepOrOne (step : Option Expr) : Expr :=
  step.getD (.number 1.0)

/-- Turn after turn, from value to value, as long as a turn asks for another. -/
def turns (turn : Float → Run (Float × Bool)) : Nat → Float → Run Unit
  | 0, _ => throw .outOfFuel
  | n + 1, x => do
    let (next, again) ← turn x
    if again then turns turn n next else return ()

/-- The value of a binary operation. -/
def operate (call : Caller) (op : Char) (x y : Float) : Run Float :=
  match op with
  | '+' => return x + y
  | '-' => return x - y
  | '*' => return x * y
  | '<' => return lessOrUnordered x y
  | _ => call (binaryName op) [x, y]

mutual

/-- The value of an expression. -/
def eval (call : Caller) (fuel : Nat) (env : Bindings) : Expr → Run Float
  | .number x => return x
  | .variable name =>
    match env.get? name with
    | some x => return x
    | none => throw .outOfRange
  | .unary op operand => do call (unaryName op) [← eval call fuel env operand]
  | .binary op left right => do
    let x ← eval call fuel env left
    let y ← eval call fuel env right
    operate call op x y
  | .conditional condition yes no => do
    let x ← eval call fuel env condition
    if isTruth x then eval call fuel env yes else eval call fuel env no
  | .loop var start goOn step body => do
    let first ← eval call fuel env start
    turns (fun x => do
      let _ ← eval call fuel (env.insert var x) body
      let growth ← evalStep call fuel (env.insert var x) step
      let again ← eval call fuel (env.insert var (x + growth)) goOn
      return (x + growth, isTruth again)) fuel first
    return 0.0
  | .call name args => do call name (← evalAll call fuel env args)

/-- The value of a step, which is one if there is none. -/
def evalStep (call : Caller) (fuel : Nat) (env : Bindings) : Option Expr → Run Float
  | some step => eval call fuel env step
  | none => return 1.0

/-- The values of expressions, from left to right. -/
def evalAll (call : Caller) (fuel : Nat) (env : Bindings) : List Expr → Run (List Float)
  | [] => return []
  | e :: es => do
    let x ← eval call fuel env e
    return x :: (← evalAll call fuel env es)

end

/-- All other operators are calls of the function that defines them. -/
theorem operate_of_ne {op : Char} (h₁ : op ≠ '+') (h₂ : op ≠ '-') (h₃ : op ≠ '*') (h₄ : op ≠ '<')
    (call : Caller) (x y : Float) : operate call op x y = call (binaryName op) [x, y] := by
  unfold operate
  split <;> first | rfl | contradiction

theorem evalStep_eq (call : Caller) (fuel : Nat) (env : Bindings) (step : Option Expr) :
    evalStep call fuel env step = eval call fuel env (stepOrOne step) := by
  cases step <;> simp [evalStep, eval, stepOrOne]

end Expr

/-- Calls a function by name, given the definitions, with so many nested calls allowed, this one
included. -/
def Definition.callWithin (definitions : Dict String Definition) (fuel : Nat) : Nat → Caller
  | 0, _, _ => throw .stackExhausted
  | depth + 1, name, args =>
    match definitions.get? name with
    | some d =>
      if d.proto.arity = args.length then
        Expr.eval (Definition.callWithin definitions fuel depth) fuel
          (Bindings.bind ∅ d.proto.params args) d.body
      else throw (.wrongArguments name d.proto.arity args.length)
    | none =>
      match Host.ofName? name with
      | some host => do
        modify (· ++ host.written args)
        return 0.0
      | none => throw (.unresolved name)

end Kaleidoscope
