/-!
# The likeness of two words

Each character of a word is paired with the first equal character of the other word that is not
paired yet and is not too far away. The likeness grows with the share of both words that is paired,
and shrinks with the pairs that cross. It is 1 for equal words and 0 for words with no pair.
-/

namespace Kaleidoscope.Text

/-- The position of the partner of the character at position `i`: an equal character within reach
that is not taken. -/
def partner? (reach : Nat) (other : List Char) (taken : List Nat) (i : Nat) (c : Char) :
    Option Nat :=
  (List.range other.length).find? fun j =>
    i ≤ j + reach && j ≤ i + reach && other[j]? = some c && !taken.contains j

/-- The positions of the partners of the characters from position `i` on, in their order. -/
def partnersFrom (reach : Nat) (other : List Char) (taken : List Nat) (i : Nat) :
    List Char → List Nat
  | [] => []
  | c :: cs =>
    match partner? reach other taken i c with
    | some j => j :: partnersFrom reach other (j :: taken) (i + 1) cs
    | none => partnersFrom reach other taken (i + 1) cs

/-- The positions of the partners of the characters of a word in another word. A partner is less
than half of the longer word away. -/
def partners (word other : List Char) : List Nat :=
  partnersFrom (max word.length other.length / 2 - 1) other [] 0 word

/-- The number of paired characters that are not at the same place among the paired ones of the
other word. -/
def crossed (other : List Char) (paired : List Nat) : Nat :=
  let inOrder := (List.range other.length).filter paired.contains
  (paired.zip inOrder).countP fun (j, k) => other[j]? ≠ other[k]?

/-- How like two words are, from 0 to 1: the mean of the shares of both words that are paired and of
the share of the pairs that do not cross. -/
def likeness (word other : List Char) : Float :=
  let paired := partners word other
  if word.isEmpty && other.isEmpty then 1
  else if paired.isEmpty then 0
  else
    let count := Float.ofNat paired.length
    let straight := Float.ofNat (paired.length - crossed other paired / 2)
    (count / Float.ofNat word.length + count / Float.ofNat other.length + straight / count) / 3

end Kaleidoscope.Text
