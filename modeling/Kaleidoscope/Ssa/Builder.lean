import Kaleidoscope.Ssa.Verify
import Kaleidoscope.Ssa.Fold

/-!
# Building code

A builder holds the module under construction and the place where instructions go: the end of a
block. A function is handled by its number in the module, so that deleting one moves those behind
it. An operation that is given a number which no table has leaves the module as it is.
-/

namespace Kaleidoscope.Ssa

/-- A block of a function of the module. -/
structure Place where
  func : FuncId
  block : BlockId
  deriving DecidableEq, Repr

/-- A module under construction, with the place where instructions go. -/
structure Builder where
  module : Module
  place : Place := ⟨⟨0⟩, ⟨0⟩⟩

namespace Builder

/-- A builder of an empty module. -/
def empty (name : String) : Builder :=
  { module := { name } }

/-- The function with the given number. -/
def func? (b : Builder) (f : FuncId) : Option Func :=
  b.module.get? f

/-- The builder with one function changed. -/
def modifyFunc (b : Builder) (f : FuncId) (change : Func → Func) : Builder :=
  { b with module := { b.module with functions := b.module.functions.modify f.index change } }

/-- The builder with the block at the place changed. -/
def modifyBlock (b : Builder) (change : Block → Block) : Builder :=
  b.modifyFunc b.place.func fun f => { f with blocks := f.blocks.modify b.place.block.index change }

/-- The number of the function with the given name. -/
def find? (b : Builder) (name : String) : Option FuncId :=
  b.module.find? name

/-- The number of the function with the given name, which is declared if it is not there. -/
def declare (name : String) (params : List String) (b : Builder) : FuncId × Builder :=
  match b.find? name with
  | some f => (f, b)
  | none =>
    let functions := b.module.functions.push (.declare name params)
    (⟨b.module.functions.size⟩, { b with module := { b.module with functions } })

/-- The number of parameters of a function. -/
def arity (b : Builder) (f : FuncId) : Nat :=
  ((b.func? f).map Func.arity).getD 0

/-- The function has a body. -/
def hasBody (b : Builder) (f : FuncId) : Bool :=
  match b.func? f with
  | some func => !func.isDeclaration
  | none => false

/-- The builder without the function. -/
def delete (f : FuncId) (b : Builder) : Builder :=
  { b with module := { b.module with functions := b.module.functions.eraseIdxIfInBounds f.index } }

/-- Adds an empty block to a function. -/
def appendBlock (f : FuncId) (label : String) (b : Builder) : Place × Builder :=
  let index := ((b.func? f).map (·.blocks.size)).getD 0
  (⟨f, ⟨index⟩⟩, b.modifyFunc f fun func => { func with blocks := func.blocks.push { label } })

/-- Moves to the end of a block. -/
def moveTo (place : Place) (b : Builder) : Builder :=
  { b with place }

/-- Adds a slot to a function. -/
def addSlot (f : FuncId) (name : String) (b : Builder) : SlotId × Builder :=
  let index := ((b.func? f).map (·.slots.size)).getD 0
  (⟨index⟩, b.modifyFunc f fun func => { func with slots := func.slots.push name })

/-- Adds a value to the function at the place. -/
def newValue (name : String) (b : Builder) : ValueId × Builder :=
  let index := ((b.func? b.place.func).map (·.values.size)).getD 0
  (⟨index⟩, b.modifyFunc b.place.func fun func => { func with values := func.values.push name })

/-- Adds an instruction at the place. -/
def emit (inst : Inst) (b : Builder) : Builder :=
  b.modifyBlock fun block => { block with insts := block.insts ++ [inst] }

/-- Adds an instruction that defines a new value. -/
def define (name : String) (inst : ValueId → Inst) (b : Builder) : ValueId × Builder :=
  let (dst, b) := b.newValue name
  (dst, b.emit (inst dst))

/-- Sets the exit of the block at the place. -/
def terminate (term : Terminator) (b : Builder) : Builder :=
  b.modifyBlock fun block => { block with term := some term }

/-- Reads a slot. -/
def load (slot : SlotId) (name : String) : Builder → ValueId × Builder :=
  define name (.load · slot)

/-- Writes a slot. -/
def store (src : ValueId) (slot : SlotId) : Builder → Builder :=
  emit (.store slot src)

/-- A constant. -/
def const (value : Float) : Builder → ValueId × Builder :=
  define "" (.const · value)

/-- An arithmetic operation. -/
def arith (op : Arith) (lhs rhs : ValueId) (name : String) : Builder → ValueId × Builder :=
  define name (.arith op · lhs rhs)

/-- A comparison, which is one or zero. -/
def less (lhs rhs : ValueId) : Builder → ValueId × Builder :=
  define "booltmp" (.less · lhs rhs)

/-- The truth of a value, which is one or zero. -/
def nonzero (src : ValueId) (name : String) : Builder → ValueId × Builder :=
  define name (.nonzero · src)

/-- A call of a function of the module. -/
def call (f : FuncId) (args : List ValueId) (name : String) (b : Builder) : ValueId × Builder :=
  match b.func? f with
  | some func => b.define name (.call · func.name args)
  | none => b.newValue name

/-- A branch on a value. -/
def select (condition : ValueId) (yes no : Place) : Builder → Builder :=
  terminate (.select condition yes.block no.block)

/-- A branch. -/
def branch (dest : Place) : Builder → Builder :=
  terminate (.branch dest.block)

/-- A return. -/
def ret (value : ValueId) : Builder → Builder :=
  terminate (.ret value)

/-- A join, which goes behind the joins that the block begins with. -/
def phi (incoming : List (ValueId × Place)) (name : String) (b : Builder) : ValueId × Builder :=
  let (dst, b) := b.newValue name
  let inst := Inst.phi dst (incoming.map fun edge => (edge.1, edge.2.block))
  (dst, b.modifyBlock fun block =>
    { block with
      insts := block.insts.takeWhile Inst.isPhi ++ inst :: block.insts.dropWhile Inst.isPhi })

/-- Checks a function. -/
def check (b : Builder) (f : FuncId) : Except Fault Unit :=
  match b.func? f with
  | some func => func.check
  | none => .ok ()

/-- Folds the constants of a function. -/
def optimize (f : FuncId) (b : Builder) : Builder :=
  b.modifyFunc f Func.fold

/-- Hands over the module and begins an empty one of the same name. -/
def take (b : Builder) : Module × Builder :=
  (b.module, .empty b.module.name)

end Builder

end Kaleidoscope.Ssa
