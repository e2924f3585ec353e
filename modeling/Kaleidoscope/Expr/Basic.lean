/-!
# Expressions

The language has one kind of value, the double, and an expression is a tree. An operator that is not
built in stands for a call of the function whose name is made from its symbol.
-/

namespace Kaleidoscope

/-- An expression. -/
inductive Expr
  | number (value : Float)
  | variable (name : String)
  | unary (op : Char) (operand : Expr)
  | binary (op : Char) (left right : Expr)
  /-- The second part if the first is neither zero nor no number, else the third. -/
  | conditional (condition yes no : Expr)
  /-- The body again and again, with the variable growing by the step (one if there is none), as
  long as `goOn` holds after the step. -/
  | loop (var : String) (start goOn : Expr) (step : Option Expr) (body : Expr)
  | call (callee : String) (args : List Expr)

/-- The name of the function behind a unary operator. -/
def unaryName (op : Char) : String := "unary" ++ op.toString

/-- The name of the function behind a binary operator. -/
def binaryName (op : Char) : String := "binary" ++ op.toString

end Kaleidoscope
