/-!
# Doubles as exact numbers

A finite double is an integer significand times a power of two. `Double.ofFloat` reads the three
fields of the bit pattern, and `nearest` goes the other way: it takes a quotient of natural numbers
to the double nearest to it, a half going to the even neighbour. Only natural numbers are computed
with.
-/

namespace Kaleidoscope.Decimal

/-- What a bit pattern of a double stands for. -/
inductive Double
  /-- No number. -/
  | nan
  /-- An infinity with its sign. -/
  | infinite (negative : Bool)
  /-- The number `significand * 2 ^ exponent` with its sign. -/
  | finite (negative : Bool) (significand : Nat) (exponent : Int)
  deriving DecidableEq, Repr

/-- The significand from which on a double is normal. -/
def hidden : Nat := Nat.pow 2 52

/-- The least exponent of a finite double. -/
def leastExponent : Int := -1074

/-- The number that a bit pattern stands for. -/
def Double.ofBits (bits : Nat) : Double :=
  let negative := decide (Nat.pow 2 63 ≤ bits)
  let field := bits / hidden % Nat.pow 2 11
  let fraction := bits % hidden
  if field = 2047 then
    if fraction = 0 then .infinite negative else .nan
  else if field = 0 then .finite negative fraction leastExponent
  else .finite negative (hidden + fraction) (leastExponent + (field - 1 : Nat))

/-- The number that a double stands for. -/
def Double.ofFloat (x : Float) : Double :=
  .ofBits x.toBits.toNat

/-- The quotient rounded to the nearest whole number, a half to the even neighbour. -/
def roundHalfEven (num den : Nat) : Nat :=
  let q := num / den
  let r := num % den
  if 2 * r < den then q else if den < 2 * r then q + 1 else q + q % 2

/-- A quotient times a power of two, again as a quotient. -/
def scaleTwo (num den : Nat) (k : Int) : Nat × Nat :=
  (num * Nat.pow 2 k.toNat, den * Nat.pow 2 (-k).toNat)

/-- The exponent with which the quotient has a significand of 53 bits, but no less than the least
one. -/
def exponentOf (num den : Nat) : Int :=
  let guess : Int := (Nat.log2 num : Int) - Nat.log2 den - 53
  let scaled := scaleTwo num den (-guess)
  max leastExponent (if scaled.2 * Nat.pow 2 53 ≤ scaled.1 then guess + 1 else guess)

/-- The bits of the infinity above all finite doubles. -/
def infinityBits : Nat := 2047 * hidden

/-- The bits of the double nearest to a quotient: too large a quotient gives the infinity. The
exponent field counts from the least exponent, and a significand that needs one more bit carries
into it. -/
def nearestBits (num den : Nat) : Nat :=
  if num = 0 then 0
  else
    let q := exponentOf num den
    let scaled := scaleTwo num den (-q)
    min infinityBits ((q - leastExponent).toNat * hidden + roundHalfEven scaled.1 scaled.2)

/-- The double nearest to a quotient, a half going to the even neighbour. -/
def nearest (num den : Nat) : Float :=
  .ofBits (nearestBits num den).toUInt64

end Kaleidoscope.Decimal
