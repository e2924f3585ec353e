import Kaleidoscope.Expr.Basic

/-!
# Prototypes, definitions and forms

A prototype names a function and its parameters, and a definition gives it a body. A source is a
sequence of forms: definitions, declarations of functions defined elsewhere, and bare expressions,
with separators between them.
-/

namespace Kaleidoscope

/-- What a prototype declares. -/
inductive Head
  | function (name : String)
  | unary (op : Char)
  | binary (op : Char) (precedence : Int)
  deriving DecidableEq, Repr

/-- The name of the declared function. -/
def Head.name : Head → String
  | .function name => name
  | .unary op => unaryName op
  | .binary op _ => binaryName op

/-- A function's head and parameters. -/
structure Prototype where
  head : Head
  params : List String
  deriving DecidableEq, Repr

/-- The name of the declared function. -/
def Prototype.name (proto : Prototype) : String := proto.head.name

/-- The number of arguments of the declared function. -/
def Prototype.arity (proto : Prototype) : Nat := proto.params.length

/-- A prototype with a body. -/
structure Definition where
  proto : Prototype
  body : Expr

/-- The name of the function that wraps a bare expression. -/
def anonymousName : String := "__anon_expr"

/-- A bare expression as the body of a function without parameters. -/
def Definition.anonymous (body : Expr) : Definition :=
  ⟨⟨.function anonymousName, []⟩, body⟩

/-- What a source is made of. -/
inductive Form
  | separator
  | definition (d : Definition)
  | declaration (proto : Prototype)
  | expression (d : Definition)

end Kaleidoscope
