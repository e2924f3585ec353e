import Kaleidoscope.Ssa.Basic
import Kaleidoscope.Fault

/-!
# Structural checks

A function is accepted if it has a body, defines no value twice, ends every block with a terminator
whose targets exist, uses only values that it defines somewhere, keeps the joins at the top of their
blocks with predecessors only, and stays within its slots. The checks run in a fixed order, and the
first defect found is reported.
-/

namespace Kaleidoscope.Ssa.Func

/-- The parameters as values. -/
def paramValues (f : Func) : List ValueId :=
  (List.range f.arity).map ValueId.mk

/-- The values defined by instructions, in order. -/
def targets (f : Func) : List ValueId :=
  f.insts.filterMap Inst.target

/-- All values that the function defines. -/
def definitions (f : Func) : List ValueId :=
  f.paramValues ++ f.targets

/-- The first value of the list that was seen before. -/
def firstRepeated (seen : List ValueId) : List ValueId → Option ValueId
  | [] => none
  | v :: vs => if v ∈ seen then some v else firstRepeated (v :: seen) vs

/-- The first of the values that is not among those defined. -/
def undefinedAmong (f : Func) (defined : List ValueId) (vs : List ValueId) : Option Defect :=
  (vs.find? fun v => decide (v ∉ defined)).map fun v => .undefinedValue (f.valueLabel v)

/-- The defect of a slot that is used in a block. -/
def slotDefect (f : Func) (label : String) (s : SlotId) : Option Defect :=
  if s.index < f.slots.size then none else some (.unknownSlot label)

/-- The defect of a join that stands at the top of a block, or after other instructions. -/
def phiDefect (f : Func) (i : BlockId) (label : String) (atTop : Bool)
    (incoming : List (ValueId × BlockId)) : Option Defect :=
  if !atTop then some (.phiNotAtTop label)
  else if incoming.all fun edge => f.precedes edge.2 i then none
  else some (.notPredecessor label)

/-- The first defect of the instructions of a block; `atTop` as long as only joins stand before
them. -/
def instsDefect (f : Func) (defined : List ValueId) (i : BlockId) (label : String) (atTop : Bool) :
    List Inst → Option Defect
  | [] => none
  | inst :: insts =>
    f.undefinedAmong defined inst.operands <|>
    match inst with
    | .phi _ incoming =>
      f.phiDefect i label atTop incoming <|> f.instsDefect defined i label atTop insts
    | .load _ slot | .store slot _ =>
      f.slotDefect label slot <|> f.instsDefect defined i label false insts
    | _ => f.instsDefect defined i label false insts

/-- The first defect of a block. -/
def blockDefect (f : Func) (defined : List ValueId) (i : BlockId) (b : Block) : Option Defect :=
  match b.term with
  | none => some (.noTerminator b.label)
  | some term =>
    if term.successors.all fun dest => dest.index < f.blocks.size then
      f.instsDefect defined i b.label true b.insts <|> f.undefinedAmong defined term.operand.toList
    else some (.missingTarget b.label)

/-- The first defect of a function. -/
def defect (f : Func) : Option Defect :=
  if f.isDeclaration then some .noBody
  else
    match firstRepeated f.paramValues.reverse f.targets with
    | some v => some (.definedTwice (f.valueLabel v))
    | none =>
      let defined := f.definitions
      f.blocks.toList.zipIdx.findSome? fun entry => f.blockDefect defined ⟨entry.2⟩ entry.1

/-- Accepts a function without defect. -/
def check (f : Func) : Except Fault Unit :=
  match f.defect with
  | none => .ok ()
  | some d => .error (.unverified f.name d)

end Kaleidoscope.Ssa.Func
