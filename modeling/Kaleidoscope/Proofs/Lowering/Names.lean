import Kaleidoscope.Proofs.Expr.Induction
import Kaleidoscope.Ssa.Basic

/-!
# The names that code comes with

`Func.names` are the names that a function shows its values, its slots and its blocks with.
`Expr.names` are those that come with the code of an expression, in the order of their numbers: they
can be read off the expression, whatever function the code goes into and whatever is declared
meanwhile. A conditional brings blocks of the names `then`, `else` and `ifcont`, each conditional the
same ones.
-/

namespace Kaleidoscope

open Ssa

/-- Names of values, of slots and of blocks, in the order of their numbers. -/
structure Names where
  values : List String := []
  slots : List String := []
  blocks : List String := []

namespace Names

/-- The name of a value. -/
def value (name : String) : Names := { values := [name] }

/-- The name of a slot. -/
def slot (name : String) : Names := { slots := [name] }

/-- The name of a block. -/
def block (name : String) : Names := { blocks := [name] }

/-- The names of the second behind those of the first. -/
def append (m n : Names) : Names :=
  ⟨m.values ++ n.values, m.slots ++ n.slots, m.blocks ++ n.blocks⟩

instance : EmptyCollection Names := ⟨⟨[], [], []⟩⟩

instance : Append Names := ⟨append⟩

variable {l m n : Names} {name : String}

@[simp] theorem blocks_append : (m ++ n).blocks = m.blocks ++ n.blocks := rfl

@[simp] theorem blocks_empty : (∅ : Names).blocks = [] := rfl

theorem mk_append (vs ss bs : List String) (n : Names) :
    (⟨vs, ss, bs⟩ : Names) ++ n = ⟨vs ++ n.values, ss ++ n.slots, bs ++ n.blocks⟩ := rfl

theorem append_assoc (l m n : Names) : l ++ m ++ n = l ++ (m ++ n) := by
  show append (append l m) n = append l (append m n)
  simp only [append, List.append_assoc]

@[simp] theorem append_empty (m : Names) : m ++ ∅ = m := by
  show append m ⟨[], [], []⟩ = m
  simp only [append, List.append_nil]

end Names

/-- The names that a function shows its values, slots and blocks with. -/
def Ssa.Func.names (f : Func) : Names :=
  ⟨f.values.toList, f.slots.toList, f.blocks.toList.map (·.label)⟩

namespace Expr

/-- The name of the value of a binary operation. -/
def binaryLabel (op : Char) : String :=
  match op with
  | '+' => "addtmp"
  | '-' => "subtmp"
  | '*' => "multmp"
  | '<' => "booltmp"
  | _ => "binop"

mutual

/-- The names that come with the code of an expression. -/
def names : Expr → Names
  | .number _ => .value ""
  | .variable x => .value x
  | .unary _ e => e.names ++ .value "unop"
  | .binary op l r => l.names ++ r.names ++ .value (binaryLabel op)
  | .conditional c y n =>
    c.names ++ .value "ifcond" ++ .block "then" ++ .block "else" ++ .block "ifcont" ++ y.names ++
      n.names ++ .value "iftmp"
  | .loop var start goOn step body =>
    .slot var ++ start.names ++ .block "loop" ++ body.names ++ stepNames step ++ .value var ++
      .value "nextvar" ++ goOn.names ++ .value "loopcond" ++ .block "afterloop" ++ .value ""
  | .call _ args => namesOfAll args ++ .value "calltmp"

/-- The names that come with the code of a step. -/
def stepNames : Option Expr → Names
  | some step => step.names
  | none => .value ""

/-- The names that come with the code of expressions. -/
def namesOfAll : List Expr → Names
  | [] => ∅
  | e :: es => e.names ++ namesOfAll es

end

/-- A step that is left out brings the names of the number one. -/
theorem stepNames_eq (step : Option Expr) : stepNames step = (stepOrOne step).names := by
  cases step <;> simp [stepNames, names, stepOrOne]

end Expr

end Kaleidoscope
