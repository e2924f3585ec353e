/-!
# Truth and order of numbers

The two operations of the language that turn numbers into truth values and back. A comparison with
something that is no number holds; such a value itself counts as false.
-/

namespace Kaleidoscope

/-- One for true and zero for false. -/
def ofTruth (b : Bool) : Float := if b then 1.0 else 0.0

/-- Less than, or one of the two is no number. -/
def lessOrUnordered (x y : Float) : Float := ofTruth (x < y || x.isNaN || y.isNaN)

/-- Neither zero nor something that is no number. -/
def isTruth (x : Float) : Bool := x != 0.0 && !x.isNaN

/-- One for a true value and zero for a false one. -/
def truthOf (x : Float) : Float := ofTruth (isTruth x)

end Kaleidoscope
