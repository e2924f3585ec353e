import Kaleidoscope.Ssa.Basic
import Kaleidoscope.Dict

/-!
# Constant folding

An operation whose operands are known constants becomes a constant itself. The blocks are passed
over from first to last, again and again, until a pass changes nothing; what is known is carried
from pass to pass. Every other pass turns at least one operation into a constant, so that there is a
bound on their number.
-/

namespace Kaleidoscope.Ssa

/-- The values that are known to be constants. -/
abbrev Known := Dict ValueId Float

/-- The constant that an operation on known operands gives. -/
def Inst.folded? (known : Known) : Inst → Option Float
  | .arith op _ lhs rhs => return op.eval (← known.get? lhs) (← known.get? rhs)
  | .less _ lhs rhs => return lessOrUnordered (← known.get? lhs) (← known.get? rhs)
  | .nonzero _ src => return truthOf (← known.get? src)
  | _ => none

/-- The instruction is a constant. -/
def Inst.isConst : Inst → Bool
  | .const _ _ => true
  | _ => false

/-- What a pass carries along: the known constants, and whether an instruction has changed. -/
structure Pass where
  known : Known := ∅
  changed : Bool := false

/-- Folds an instruction, and learns the constant that it is now. -/
def Pass.inst (pass : Pass) (i : Inst) : Inst × Pass :=
  match i with
  | .const dst value => (i, { pass with known := pass.known.insert dst value })
  | _ =>
    match i.target, i.folded? pass.known with
    | some dst, some value =>
      (.const dst value, { known := pass.known.insert dst value, changed := true })
    | _, _ => (i, pass)

/-- Folds the instructions one after another. -/
def Pass.insts (pass : Pass) : List Inst → List Inst × Pass
  | [] => ([], pass)
  | i :: rest =>
    let (i, pass) := pass.inst i
    let (rest, pass) := pass.insts rest
    (i :: rest, pass)

/-- Folds the blocks one after another. -/
def Pass.blocks (pass : Pass) : List Block → List Block × Pass
  | [] => ([], pass)
  | b :: rest =>
    let (insts, pass) := pass.insts b.insts
    let (rest, pass) := pass.blocks rest
    ({ b with insts } :: rest, pass)

/-- Passes over the blocks until one changes nothing, at most as often as the bound says. -/
def foldWithin (known : Known) : Nat → List Block → List Block
  | 0, blocks => blocks
  | n + 1, blocks =>
    let (blocks, pass) := ({ known } : Pass).blocks blocks
    if pass.changed then foldWithin pass.known n blocks else blocks

/-- The function with its constant operations folded. -/
def Func.fold (f : Func) : Func :=
  { f with blocks := (foldWithin ∅ (f.insts.length + 1) f.blocks.toList).toArray }

end Kaleidoscope.Ssa
