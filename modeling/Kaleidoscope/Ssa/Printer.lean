import Kaleidoscope.Ssa.Basic
import Kaleidoscope.Decimal.Shortest

/-!
# The text of code

Functions and modules are shown in a textual form: a line for each instruction, the slots at the top
of the first block, and constants in the shortest decimal form that reads back.
-/

namespace Kaleidoscope.Ssa

/-- The texts with a separator between them. -/
def commaSeparated (texts : List String) : String :=
  ", ".intercalate texts

/-- The mnemonic of an arithmetic operation. -/
def Arith.mnemonic : Arith → String
  | add => "fadd"
  | sub => "fsub"
  | mul => "fmul"

namespace Func

/-- The text of an instruction. -/
def instText (f : Func) : Inst → String
  | .const dst value => s!"{f.valueLabel dst} = double {Decimal.scientific value}"
  | .load dst slot => s!"{f.valueLabel dst} = load double, {f.slotLabel slot}"
  | .store slot src => s!"store double {f.valueLabel src}, {f.slotLabel slot}"
  | .arith op dst lhs rhs =>
    s!"{f.valueLabel dst} = {op.mnemonic} double {f.valueLabel lhs}, {f.valueLabel rhs}"
  | .less dst lhs rhs =>
    s!"{f.valueLabel dst} = uitofp (fcmp ult double {f.valueLabel lhs}, {f.valueLabel rhs})"
  | .nonzero dst src => s!"{f.valueLabel dst} = fcmp one double {f.valueLabel src}, 0.0"
  | .call dst callee args =>
    let texts := args.map fun v => s!"double {f.valueLabel v}"
    s!"{f.valueLabel dst} = call double @{callee}({commaSeparated texts})"
  | .phi dst incoming =>
    let texts := incoming.map fun i => s!"[ {f.valueLabel i.1}, {f.blockLabel i.2} ]"
    s!"{f.valueLabel dst} = phi double {commaSeparated texts}"

/-- The text of a block's exit. -/
def termText (f : Func) : Option Terminator → String
  | some (.branch dest) => s!"br label {f.blockLabel dest}"
  | some (.select condition yes no) =>
    s!"br i1 {f.valueLabel condition}, label {f.blockLabel yes}, label {f.blockLabel no}"
  | some (.ret value) => s!"ret double {f.valueLabel value}"
  | none => "; no terminator"

/-- The lines that reserve the slots of a function. -/
def slotLines (f : Func) : List String :=
  (List.range f.slots.size).map fun i => s!"{f.slotLabel ⟨i⟩} = alloca double"

/-- The text of a block, which begins with the given lines. -/
def blockText (f : Func) (first : List String) (b : Block) : String :=
  let lines := first ++ b.insts.map f.instText ++ [f.termText b.term]
  let body := lines.map fun line => s!"  {line}\n"
  b.label ++ ":\n" ++ String.join body

/-- The text of a function. -/
def text (f : Func) : String :=
  let params := commaSeparated (f.params.map fun p => s!"double %{p}")
  let blocks :=
    match f.blocks.toList with
    | [] => []
    | first :: more => f.blockText f.slotLines first :: more.map (f.blockText [])
  if f.isDeclaration then s!"declare double @{f.name}({params})\n"
  else s!"define double @{f.name}({params}) \x7b\n" ++ String.join blocks ++ "\x7d\n"

end Func

/-- The text of a module. -/
def Module.text (m : Module) : String :=
  s!"; ModuleID = '{m.name}'\n" ++ String.join (m.functions.toList.map fun f => "\n" ++ f.text)

end Kaleidoscope.Ssa
