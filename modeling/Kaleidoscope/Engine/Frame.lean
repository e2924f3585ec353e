import Kaleidoscope.Ssa.Basic
import Kaleidoscope.Fault
import Kaleidoscope.Engine.Host

/-!
# Running the blocks of one call

A call has a frame: a table of values and a table of slots, all zero at first but for the arguments.
The instructions of a block run in order, joins included, and the terminator says which block is
next. What runs writes to a text, which is kept when the run stops without a value.

How a call instruction is carried out is a parameter here, and so is the bound on the number of
blocks visited.
-/

namespace Kaleidoscope.Engine

open Ssa

/-- A run: it adds to the text written so far, and gives a result or stops. -/
abbrev Run := EStateM Stop String

/-- How functions are called by name. -/
abbrev Caller := String → List Float → Run Float

/-- The values and slots of one call. -/
structure Frame where
  values : Array Float
  slots : Array Float

namespace Frame

/-- The frame at the start of a call; `none` if the table of values is too small for the
arguments. -/
def enter? (f : Func) (args : List Float) : Option Frame :=
  if args.length ≤ f.values.size then
    some {
      values := args.toArray ++ Array.replicate (f.values.size - args.length) 0.0
      slots := Array.replicate f.slots.size 0.0 }
  else none

/-- Reads a value. -/
def get (fr : Frame) (v : ValueId) : Run Float :=
  match fr.values[v.index]? with
  | some x => pure x
  | none => throw .outOfRange

/-- Writes a value. -/
def set (fr : Frame) (v : ValueId) (x : Float) : Run Frame :=
  if v.index < fr.values.size then pure { fr with values := fr.values.setIfInBounds v.index x }
  else throw .outOfRange

/-- Reads a slot. -/
def getSlot (fr : Frame) (s : SlotId) : Run Float :=
  match fr.slots[s.index]? with
  | some x => pure x
  | none => throw .outOfRange

/-- Writes a slot. -/
def setSlot (fr : Frame) (s : SlotId) (x : Float) : Run Frame :=
  if s.index < fr.slots.size then pure { fr with slots := fr.slots.setIfInBounds s.index x }
  else throw .outOfRange

/-- Reads a list of values. -/
def getAll (fr : Frame) : List ValueId → Run (List Float)
  | [] => pure []
  | v :: vs => do
    let x ← fr.get v
    return x :: (← fr.getAll vs)

end Frame

/-- The edge of a join that control came along. -/
def edgeFrom (source : Option BlockId) (incoming : List (ValueId × BlockId)) :
    Option (ValueId × BlockId) :=
  incoming.find? fun edge => some edge.2 = source

/-- Runs an instruction of a block that was reached from another. -/
def runInst (call : Caller) (f : Func) (source : Option BlockId) (label : String) (fr : Frame) :
    Inst → Run Frame
  | .const dst value => fr.set dst value
  | .load dst slot => do fr.set dst (← fr.getSlot slot)
  | .store slot src => do fr.setSlot slot (← fr.get src)
  | .arith op dst lhs rhs => do fr.set dst (op.eval (← fr.get lhs) (← fr.get rhs))
  | .less dst lhs rhs => do fr.set dst (lessOrUnordered (← fr.get lhs) (← fr.get rhs))
  | .nonzero dst src => do fr.set dst (truthOf (← fr.get src))
  | .call dst callee args => do fr.set dst (← call callee (← fr.getAll args))
  | .phi dst incoming =>
    match edgeFrom source incoming with
    | some edge => do fr.set dst (← fr.get edge.1)
    | none => throw (.unknownPredecessor f.name label)

/-- Runs the instructions of a block one after another. -/
def runInsts (call : Caller) (f : Func) (source : Option BlockId) (label : String) (fr : Frame) :
    List Inst → Run Frame
  | [] => pure fr
  | inst :: rest => do
    let fr ← runInst call f source label fr inst
    runInsts call f source label fr rest

/-- Runs from the start of a block to the end of the call. A branch on a value is taken unless it is
zero. -/
def runBlocks (call : Caller) (f : Func) : Nat → Option BlockId → BlockId → Frame → Run Float
  | 0, _, _, _ => throw .outOfFuel
  | fuel + 1, source, current, fr =>
    match f.blocks[current.index]? with
    | none => throw .outOfRange
    | some block => do
      let fr ← runInsts call f source block.label fr block.insts
      match block.term with
      | some (.ret value) => fr.get value
      | some (.branch dest) => runBlocks call f fuel (some current) dest fr
      | some (.select condition yes no) =>
        let x ← fr.get condition
        runBlocks call f fuel (some current) (if x != 0.0 then yes else no) fr
      | none => throw (.fellOff f.name block.label)

/-- Runs a function with a body. -/
def runFunc (call : Caller) (fuel : Nat) (f : Func) (args : List Float) : Run Float :=
  match Frame.enter? f args with
  | some fr => runBlocks call f fuel none ⟨0⟩ fr
  | none => throw .outOfRange

end Kaleidoscope.Engine
