import Kaleidoscope.Decimal.Binary64

/-!
# Decimal text with fixed places

The exact value of a double, rounded to a number of decimal places with a half going to the even
neighbour. All digits before the point are written, and a zero keeps the sign of the double.
-/

namespace Kaleidoscope.Decimal

/-- The text, left-padded with zeros to a length. -/
def padZeros (length : Nat) (cs : List Char) : List Char :=
  List.replicate (length - cs.length) '0' ++ cs

/-- The text of a double with the given number of decimal places, at least one. -/
def fixed (places : Nat) (x : Float) : String :=
  match Double.ofFloat x with
  | .nan => "NaN"
  | .infinite negative => (if negative then "-" else "") ++ "inf"
  | .finite negative m q =>
    let scaled := scaleTwo (m * Nat.pow 10 places) 1 q
    let digits := padZeros (places + 1) (Nat.toDigits 10 (roundHalfEven scaled.1 scaled.2))
    let split := digits.length - places
    (if negative then "-" else "") ++
      String.ofList (digits.take split ++ '.' :: digits.drop split)

end Kaleidoscope.Decimal
