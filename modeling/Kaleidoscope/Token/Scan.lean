import Kaleidoscope.Token.Basic
import Kaleidoscope.Text.Blank
import Kaleidoscope.Decimal.Literal

/-!
# The token at the front of a line

White space is skipped; then the longest run of digits and points is a number, a letter with the
letters and digits after it is a word, a `#` begins a comment that takes the rest of the line, and
any other character is a symbol. Letters and digits are those of ASCII.
-/

namespace Kaleidoscope

open Text (isBlank byteLength)

/-- What stands at the front of a line. -/
inductive Scan
  /-- Nothing but white space and perhaps a comment. -/
  | blank
  /-- A token, with the characters after it. -/
  | token (t : Token) (rest : List Char)
  /-- A run of digits and points that is no number, the given number of bytes into the text. -/
  | badNumber (offset : Nat)

/-- The front of a text that begins with neither white space nor the end; `offset` is how many bytes
were skipped before it. -/
def scanAt (offset : Nat) (c : Char) (rest : List Char) : Scan :=
  if c = '#' then .blank
  else if Decimal.isLiteralChar c then
    match Decimal.literal? (c :: rest.takeWhile Decimal.isLiteralChar) with
    | some x => .token (.number x) (rest.dropWhile Decimal.isLiteralChar)
    | none => .badNumber offset
  else if c.isAlpha then
    .token (.ofWord (String.ofList (c :: rest.takeWhile Char.isAlphanum)))
      (rest.dropWhile Char.isAlphanum)
  else .token (.symbol c) rest

/-- The front of a line, white space skipped. -/
def scan (cs : List Char) : Scan :=
  match cs.dropWhile isBlank with
  | [] => .blank
  | c :: rest => scanAt (byteLength (cs.takeWhile isBlank)) c rest

/-- The characters after a token are fewer. -/
theorem length_of_scanAt {offset : Nat} {c : Char} {rest : List Char} {t : Token}
    {after : List Char} (h : scanAt offset c rest = .token t after) :
    after.length ≤ rest.length := by
  unfold scanAt at h
  split at h
  · cases h
  · split at h
    · split at h
      · cases h; exact (List.dropWhile_sublist _).length_le
      · cases h
    · split at h <;> cases h
      · exact (List.dropWhile_sublist _).length_le
      · exact Nat.le_refl _

/-- A token has at least one character. -/
theorem length_of_scan {cs : List Char} {t : Token} {after : List Char}
    (h : scan cs = .token t after) : after.length < cs.length := by
  unfold scan at h
  split at h
  · cases h
  · next c rest hd =>
    have h1 := length_of_scanAt h
    have h2 := (List.dropWhile_sublist (l := cs) isBlank).length_le
    rw [hd, List.length_cons] at h2
    omega

theorem ne_nil_of_scan_badNumber {cs : List Char} {offset : Nat} (h : scan cs = .badNumber offset) :
    cs ≠ [] := by
  rintro rfl
  simp [scan] at h

end Kaleidoscope
