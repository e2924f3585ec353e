import Kaleidoscope.Decimal.Binary64

/-!
# Decimal literals

A literal is a run of digits with at most one point and at least one digit. It stands for the double
nearest to the decimal number.
-/

namespace Kaleidoscope.Decimal

/-- The characters a literal is made of. -/
def isLiteralChar (c : Char) : Bool :=
  c.isDigit || c = '.'

/-- The number that a run of digits stands for. -/
def digitsValue (cs : List Char) : Nat :=
  cs.foldl (fun n c => 10 * n + (c.toNat - '0'.toNat)) 0

/-- The double that a literal stands for; `none` if the run of digits and points is no literal. -/
def literal? (cs : List Char) : Option Float :=
  let whole := cs.takeWhile Char.isDigit
  let places := (cs.dropWhile Char.isDigit).drop 1
  if (whole ++ places).isEmpty || !places.all Char.isDigit then none
  else some (nearest (digitsValue (whole ++ places)) (Nat.pow 10 places.length))

end Kaleidoscope.Decimal
