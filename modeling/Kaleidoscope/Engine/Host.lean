import Kaleidoscope.Decimal.Fixed

/-!
# Host functions

Two functions are provided to declarations that nothing defines: one writes a character, the other a
number. Both take their first argument, or zero if there is none, and return zero.
-/

namespace Kaleidoscope.Engine

/-- A function that the host provides. -/
inductive Host
  /-- Writes the character whose code point the number is, cut to a whole one and kept within a
  byte. -/
  | putchard
  /-- Writes the number with six places, and ends the line. -/
  | printd
  deriving DecidableEq, Repr

namespace Host

/-- The name that a declaration uses. -/
def name : Host → String
  | putchard => "putchard"
  | printd => "printd"

/-- The function with the given name. -/
def ofName? (s : String) : Option Host :=
  [putchard, printd].find? (·.name = s)

/-- What a call writes. -/
def written (host : Host) (args : List Float) : String :=
  let x := args.headD 0.0
  match host with
  | putchard => (Char.ofNat x.toUInt8.toNat).toString
  | printd => Decimal.fixed 6 x ++ "\n"

theorem ofName?_name (host : Host) : ofName? host.name = some host := by
  cases host <;> decide

end Host

end Kaleidoscope.Engine
