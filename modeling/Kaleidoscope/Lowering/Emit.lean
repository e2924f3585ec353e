import Kaleidoscope.Form.Basic
import Kaleidoscope.Ssa.Builder
import Kaleidoscope.Lowering.Scope

/-!
# Emitting the code of expressions

Parameters and loop variables live in slots, and a scope says which slot a name stands for. A loop
binds its variable for its body, step and end only; however the loop ends, the name is then put back
to what it stood for before. A function that is called is declared in the module when it is first
needed, from the prototype that was last registered under its name.
-/

namespace Kaleidoscope

open Ssa

/-- The prototypes that were last registered under their names. -/
abbrev Registry := Dict String Prototype

/-- The module under construction, with the scope at the place where code goes. -/
structure Emitter where
  builder : Builder
  scope : Scope := ∅

/-- An action on an emitter that gives a result or a fault. -/
abbrev Emit := EStateM Fault Emitter

namespace Emit

/-- An operation of the builder that gives something. -/
def build {α : Type} (operation : Builder → α × Builder) : Emit α := fun st =>
  let (a, builder) := operation st.builder
  .ok a { st with builder }

/-- An operation of the builder. -/
def change (operation : Builder → Builder) : Emit Unit := fun st =>
  .ok () { st with builder := operation st.builder }

/-- The builder as it stands. -/
def builder : Emit Builder := fun st => .ok st.builder st

/-- Binds a name to a slot. -/
def bindName (name : String) (slot : SlotId) : Emit Unit := fun st =>
  .ok () { st with scope := st.scope.insert name slot }

/-- Carries out an action with a name bound to a slot. However the action ends, the name is then put
back to what it stood for before. -/
def withName {α : Type} (name : String) (slot : SlotId) (action : Emit α) : Emit α := fun st =>
  match action { st with scope := st.scope.insert name slot } with
  | .ok a after => .ok a { after with scope := after.scope.put name (st.scope.get? name) }
  | .error fault after =>
    .error fault { after with scope := after.scope.put name (st.scope.get? name) }

/-- The slot that a name stands for. -/
def slotOf (name : String) : Emit SlotId := fun st =>
  match st.scope.get? name with
  | some slot => .ok slot st
  | none => .error (.unknownVariable name) st

/-- The function with the given name in the module, declared from its registered prototype if need
be. -/
def callee? (registry : Registry) (name : String) : Emit (Option FuncId) := do
  match (← builder).find? name with
  | some f => return some f
  | none =>
    match registry.get? name with
    | some proto => return some (← build (Builder.declare proto.name proto.params))
    | none => return none

/-- The function that a call names, if it takes so many arguments. -/
def calleeOf (registry : Registry) (name : String) (given : Nat) : Emit FuncId := do
  match ← callee? registry name with
  | none => throw (.unknownFunction name)
  | some f =>
    let wanted := (← builder).arity f
    if wanted = given then return f else throw (.argumentCount wanted given)

/-- A call of an operator's function. -/
def operator (registry : Registry) (name : String) (unknown : Fault) (args : List ValueId)
    (label : String) : Emit ValueId := do
  match ← callee? registry name with
  | some f => build (Builder.call f args label)
  | none => throw unknown

/-- A binary operation: built in, or a call. -/
def binary (registry : Registry) (op : Char) (lhs rhs : ValueId) : Emit ValueId :=
  match op with
  | '+' => build (Builder.arith .add lhs rhs "addtmp")
  | '-' => build (Builder.arith .sub lhs rhs "subtmp")
  | '*' => build (Builder.arith .mul lhs rhs "multmp")
  | '<' => build (Builder.less lhs rhs)
  | _ => operator registry (binaryName op) (.unknownBinaryOperator op) [lhs, rhs] "binop"

/-- Ends the current block, which an expression may have left for another, with a branch. -/
def leave (dest : Place) : Emit Place := do
  change (Builder.branch dest)
  return (← builder).place

mutual

/-- Emits the code of an expression into the given function, at the place of the builder. -/
def expression (registry : Registry) (func : FuncId) : Expr → Emit ValueId
  | .number x => build (Builder.const x)
  | .variable name => do build (Builder.load (← slotOf name) name)
  | .unary op operand => do
    let src ← expression registry func operand
    operator registry (unaryName op) (.unknownUnaryOperator op) [src] "unop"
  | .binary op left right => do
    let lhs ← expression registry func left
    let rhs ← expression registry func right
    binary registry op lhs rhs
  | .conditional condition yes no => do
    let value ← expression registry func condition
    let truth ← build (Builder.nonzero value "ifcond")
    let yesPlace ← build (Builder.appendBlock func "then")
    let noPlace ← build (Builder.appendBlock func "else")
    let join ← build (Builder.appendBlock func "ifcont")
    change (Builder.select truth yesPlace noPlace)
    change (Builder.moveTo yesPlace)
    let yesValue ← expression registry func yes
    let yesEnd ← leave join
    change (Builder.moveTo noPlace)
    let noValue ← expression registry func no
    let noEnd ← leave join
    change (Builder.moveTo join)
    build (Builder.phi [(yesValue, yesEnd), (noValue, noEnd)] "iftmp")
  | .loop var start goOn step body => do
    let slot ← build (Builder.addSlot func var)
    let first ← expression registry func start
    change (Builder.store first slot)
    let top ← build (Builder.appendBlock func "loop")
    change (Builder.branch top)
    change (Builder.moveTo top)
    withName var slot do
      let _ ← expression registry func body
      let growth ← stepOf registry func step
      let current ← build (Builder.load slot var)
      let next ← build (Builder.arith .add current growth "nextvar")
      change (Builder.store next slot)
      let value ← expression registry func goOn
      let truth ← build (Builder.nonzero value "loopcond")
      let after ← build (Builder.appendBlock func "afterloop")
      change (Builder.select truth top after)
      change (Builder.moveTo after)
    build (Builder.const 0.0)
  | .call name args => do
    let f ← calleeOf registry name args.length
    let values ← expressions registry func args
    build (Builder.call f values "calltmp")

/-- Emits the step of a loop, which is one if there is none. -/
def stepOf (registry : Registry) (func : FuncId) : Option Expr → Emit ValueId
  | some step => expression registry func step
  | none => build (Builder.const 1.0)

/-- Emits the code of expressions from left to right. -/
def expressions (registry : Registry) (func : FuncId) : List Expr → Emit (List ValueId)
  | [] => return []
  | e :: es => do
    let value ← expression registry func e
    return value :: (← expressions registry func es)

end

/-- Gives every parameter a slot with its value; of two parameters of one name the later one
counts. -/
def parameters (func : FuncId) (index : Nat) : List String → Emit Unit
  | [] => return ()
  | name :: names => do
    let slot ← build (Builder.addSlot func name)
    change (Builder.store ⟨index⟩ slot)
    bindName name slot
    parameters func (index + 1) names

/-- Fills a declared function with the body of its definition, checks it and folds its constants. -/
def body (registry : Registry) (func : FuncId) (d : Definition) : Emit Unit := do
  let entry ← build (Builder.appendBlock func "entry")
  change (Builder.moveTo entry)
  parameters func 0 d.proto.params
  let value ← expression registry func d.body
  change (Builder.ret value)
  match (← builder).check func with
  | .ok _ => change (Builder.optimize func)
  | .error fault => throw fault

end Emit

end Kaleidoscope
