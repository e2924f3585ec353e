import Kaleidoscope.Number

/-!
# Code in static single assignment form

A function is a list of blocks. An instruction of a block computes a value from other values, reads
or writes a slot of the function's own storage, or calls a function by name; a terminator says where
control goes next. A join (`phi`) takes its value from the block that control came from.

Values, slots and blocks are numbered within a function; the parameters are its first values. The
tables of a function hold the names that values and slots are shown with. Functions are collected in
a module.
-/

namespace Kaleidoscope.Ssa

/-- The number of a value within a function. The table of values stays below 2 ^ 32 entries. -/
structure ValueId where
  index : Nat
  deriving DecidableEq, Repr

/-- The number of a slot within a function. The table of slots stays below 2 ^ 32 entries. -/
structure SlotId where
  index : Nat
  deriving DecidableEq, Repr

/-- The number of a block within a function. The table of blocks stays below 2 ^ 32 entries. -/
structure BlockId where
  index : Nat
  deriving DecidableEq, Repr

/-- The number of a function within a module. The table of functions stays below 2 ^ 32 entries. -/
structure FuncId where
  index : Nat
  deriving DecidableEq, Repr

/-- The arithmetic of doubles. -/
inductive Arith
  | add
  | sub
  | mul
  deriving DecidableEq, Repr

/-- The result of an arithmetic operation. -/
def Arith.eval : Arith → Float → Float → Float
  | add, x, y => x + y
  | sub, x, y => x - y
  | mul, x, y => x * y

/-- An instruction. -/
inductive Inst
  | const (dst : ValueId) (value : Float)
  | load (dst : ValueId) (slot : SlotId)
  | store (slot : SlotId) (src : ValueId)
  | arith (op : Arith) (dst lhs rhs : ValueId)
  /-- One if the left side is less or the two are unordered, else zero. -/
  | less (dst lhs rhs : ValueId)
  /-- One if the value is neither zero nor no number, else zero. -/
  | nonzero (dst src : ValueId)
  | call (dst : ValueId) (callee : String) (args : List ValueId)
  | phi (dst : ValueId) (incoming : List (ValueId × BlockId))

/-- The value that an instruction defines. -/
def Inst.target : Inst → Option ValueId
  | .const dst _ | .load dst _ | .arith _ dst _ _ | .less dst _ _ | .nonzero dst _ | .call dst _ _
  | .phi dst _ => some dst
  | .store _ _ => none

/-- The values that an instruction uses, in order. -/
def Inst.operands : Inst → List ValueId
  | .const _ _ | .load _ _ => []
  | .store _ src | .nonzero _ src => [src]
  | .arith _ _ lhs rhs | .less _ lhs rhs => [lhs, rhs]
  | .call _ _ args => args
  | .phi _ incoming => incoming.map (·.1)

/-- The instruction is a join. -/
def Inst.isPhi : Inst → Bool
  | .phi _ _ => true
  | _ => false

/-- Where control goes at the end of a block. -/
inductive Terminator
  | branch (dest : BlockId)
  | select (condition : ValueId) (yes no : BlockId)
  | ret (value : ValueId)

/-- The blocks that control can go to. -/
def Terminator.successors : Terminator → List BlockId
  | .branch dest => [dest]
  | .select _ yes no => [yes, no]
  | .ret _ => []

/-- The value that a terminator uses. -/
def Terminator.operand : Terminator → Option ValueId
  | .branch _ => none
  | .select condition _ _ => some condition
  | .ret value => some value

/-- A straight run of instructions with its exit; the exit is missing while the block is being
built. -/
structure Block where
  label : String
  insts : List Inst := []
  term : Option Terminator := none

/-- A function: a declaration while it has no blocks. -/
structure Func where
  name : String
  params : List String
  blocks : Array Block := #[]
  /-- The names of all values, the parameters first. -/
  values : Array String
  /-- The names of all slots. -/
  slots : Array String := #[]

namespace Func

/-- A function without a body. -/
def declare (name : String) (params : List String) : Func :=
  { name, params, values := params.toArray }

/-- The function has no body. -/
def isDeclaration (f : Func) : Bool :=
  f.blocks.isEmpty

/-- The number of parameters. -/
def arity (f : Func) : Nat :=
  f.params.length

/-- All instructions, block by block. -/
def insts (f : Func) : List Inst :=
  f.blocks.toList.flatMap (·.insts)

/-- The first block ends with a branch that can go to the second. -/
def precedes (f : Func) (source dest : BlockId) : Bool :=
  match f.blocks[source.index]? with
  | some { term := some term, .. } => decide (dest ∈ term.successors)
  | _ => false

/-- The text of a value: a parameter by its name, another value by its name and number. -/
def valueLabel (f : Func) (v : ValueId) : String :=
  match f.values[v.index]? with
  | some name => if v.index < f.arity then s!"%{name}" else s!"%{name}{v.index}"
  | none => s!"%{v.index}"

/-- The text of a slot. -/
def slotLabel (f : Func) (s : SlotId) : String :=
  match f.slots[s.index]? with
  | some name => s!"%{name}.addr{s.index}"
  | none => s!"%slot{s.index}"

/-- The text of a block: its label. -/
def blockLabel (f : Func) (b : BlockId) : String :=
  match f.blocks[b.index]? with
  | some block => s!"%{block.label}"
  | none => s!"%block{b.index}"

end Func

/-- A collection of functions. -/
structure Module where
  name : String
  functions : Array Func := #[]

namespace Module

/-- The number of the function with the given name. -/
def find? (m : Module) (name : String) : Option FuncId :=
  (m.functions.findIdx? (·.name = name)).map .mk

/-- The function with the given number. -/
def get? (m : Module) (f : FuncId) : Option Func :=
  m.functions[f.index]?

end Module

end Kaleidoscope.Ssa
