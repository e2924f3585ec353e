import Kaleidoscope.Decimal.Binary64

/-!
# Shortest decimal text

The text of a double has the fewest digits that read back as the same double. The reals that round
to a double form an interval around it; for one, two, … digits the two neighbours of the double on
the decimal grid of that many digits are tried, and the first grid with a hit wins. Of two hits the
nearer one is taken, and the greater one when both are equally near.
-/

namespace Kaleidoscope.Decimal

/-- A positive double with the interval of reals that round to it, all over one denominator. -/
structure Neighbourhood where
  low : Nat
  value : Nat
  high : Nat
  den : Nat
  /-- The ends of the interval round to the double too. -/
  closed : Bool

/-- The interval around `m * 2 ^ q`: half the way to the neighbours on both sides, of which the
lower one is nearer where the exponent changes. The ends belong to it when the significand is
even. -/
def Neighbourhood.of (m : Nat) (q : Int) : Neighbourhood :=
  let unit := scaleTwo 1 1 (q - 2)
  let below := if m = hidden ∧ leastExponent < q then 1 else 2
  ⟨(4 * m - below) * unit.1, 4 * m * unit.1, (4 * m + 2) * unit.1, unit.2, m % 2 = 0⟩

/-- The interval in units of `10 ^ k`. -/
def Neighbourhood.inUnits (s : Neighbourhood) (k : Int) : Neighbourhood :=
  let up := Nat.pow 10 (-k).toNat
  let down := Nat.pow 10 k.toNat
  { s with low := s.low * up, value := s.value * up, high := s.high * up, den := s.den * down }

/-- The whole number lies in the interval. -/
def Neighbourhood.holds (s : Neighbourhood) (d : Nat) : Bool :=
  if s.closed then s.low ≤ d * s.den && d * s.den ≤ s.high
  else s.low < d * s.den && d * s.den < s.high

/-- The whole number in the interval that is next to the value; the greater one of two equally
near. -/
def Neighbourhood.pick (s : Neighbourhood) : Option Nat :=
  let d := s.value / s.den
  match s.holds d, s.holds (d + 1) with
  | true, true => some (if s.value - d * s.den < (d + 1) * s.den - s.value then d else d + 1)
  | true, false => some d
  | false, true => some (d + 1)
  | false, false => none

/-- The number of decimal digits of a natural number; zero has none. -/
def digitCount (n : Nat) : Nat :=
  if n = 0 then 0 else (Nat.toDigits 10 n).length

/-- The exponent of the leading decimal digit of a positive quotient. -/
def leadingExponent (num den : Nat) : Int :=
  if den ≤ num then digitCount (num / den) - 1
  else -(digitCount ((den + num - 1) / num - 1) : Int)

/-- The digits, and the power of ten they count, of the shortest decimal that reads back as
`m * 2 ^ q`. -/
def shortest (m : Nat) (q : Int) : Nat × Int :=
  let s := Neighbourhood.of m q
  let leading := leadingExponent s.value s.den
  let hit := (List.range 17).findSome? fun (n : Nat) =>
    let k := leading - n
    (s.inUnits k).pick.map fun d => (d, k)
  hit.getD (s.value / s.den, 0)

/-- A list of digits without the zeros at its end. -/
def stripZeros (cs : List Char) : List Char :=
  (cs.reverse.dropWhile (· = '0')).reverse

/-- The text with one digit before the point and the exponent after `e`. -/
def exponential (d : Nat) (k : Int) : String :=
  let digits := Nat.toDigits 10 d
  let exponent := k + ((digits.length : Int) - 1)
  let tail := stripZeros (digits.drop 1)
  let point := if tail.isEmpty then [] else '.' :: tail
  String.ofList (digits.take 1 ++ point) ++ "e" ++ toString exponent

/-- The text of a double with the fewest digits that read back, in exponential form; only a number
and an infinity carry a sign. -/
def scientific (x : Float) : String :=
  match Double.ofFloat x with
  | .nan => "NaN"
  | .infinite negative => (if negative then "-" else "") ++ "inf"
  | .finite negative m q =>
    let (d, k) := if m = 0 then (0, 0) else shortest m q
    (if negative then "-" else "") ++ exponential d k

end Kaleidoscope.Decimal
