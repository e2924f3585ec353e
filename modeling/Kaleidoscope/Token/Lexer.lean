import Kaleidoscope.Token.Scan
import Kaleidoscope.Text.Line
import Kaleidoscope.Fault

/-!
# The token reader

Tokens are read out of a byte source, and a line is not touched before the tokens of the lines
before it have all been handed out. A line that is not UTF-8 is dropped whole and reported once; the
rest of a line after a malformed number is dropped too. At the end of the source the reader hands
out `Token.finish` for ever.

`size_next` says that every call makes the reader smaller until then.
-/

namespace Kaleidoscope

/-- A reader of tokens: what is left of the current line, and the lines after it. -/
structure Lexer where
  rest : List Char := []
  pending : List (List UInt8) := []

namespace Lexer

/-- A reader at the start of a source. -/
def ofBytes (source : List UInt8) : Lexer :=
  { pending := Text.lines source }

/-- The next token of a line and the lines after it, with the reader behind it. -/
def nextFrom (rest : List Char) : List (List UInt8) → Except LexicalFault Token × Lexer
  | [] =>
    match scan rest with
    | .token t after => (.ok t, ⟨after, []⟩)
    | .badNumber offset => (.error (.badNumber offset), ⟨[], []⟩)
    | .blank => (.ok .finish, ⟨[], []⟩)
  | line :: more =>
    match scan rest with
    | .token t after => (.ok t, ⟨after, line :: more⟩)
    | .badNumber offset => (.error (.badNumber offset), ⟨[], line :: more⟩)
    | .blank =>
      match Text.decode? line with
      | some cs => nextFrom cs more
      | none => (.error .badText, ⟨[], more⟩)

/-- The next token, or the fault that stands in its place, with the reader behind it. -/
def next (l : Lexer) : Except LexicalFault Token × Lexer :=
  nextFrom l.rest l.pending

/-- An upper bound on the tokens and faults that are left: every character and every line counts. -/
def size (l : Lexer) : Nat :=
  l.rest.length + l.pending.flatten.length + l.pending.length

/-- A call uses up a part of the text, or finds nothing more. -/
theorem size_nextFrom (rest : List Char) (pending : List (List UInt8)) :
    (nextFrom rest pending).2.size < (⟨rest, pending⟩ : Lexer).size ∨
      nextFrom rest pending = (.ok .finish, ⟨[], []⟩) := by
  induction pending generalizing rest with
  | nil =>
    unfold nextFrom
    split
    · next t after h => exact .inl (by have := length_of_scan h; simpa [size] using this)
    · next offset h =>
      have := List.length_pos_iff.2 (ne_nil_of_scan_badNumber h)
      exact .inl (by simpa [size] using this)
    · exact .inr rfl
  | cons line more ih =>
    unfold nextFrom
    split
    · next t after h => exact .inl (by have := length_of_scan h; simp [size]; omega)
    · next offset h =>
      exact .inl (by have := List.length_pos_iff.2 (ne_nil_of_scan_badNumber h); simp [size]; omega)
    · split
      · next cs hd =>
        have hl := Text.length_of_decode? hd
        rcases ih cs with h | h
        · refine .inl ?_
          simp only [size, List.flatten_cons, List.length_append, List.length_cons] at h ⊢
          omega
        · exact .inr h
      · exact .inl (by simp [size]; omega)

/-- Reading makes the reader smaller until the end, where nothing is left. -/
theorem size_next (l : Lexer) : l.next.2.size < l.size ∨ l.next = (.ok .finish, {}) :=
  size_nextFrom l.rest l.pending

end Lexer

end Kaleidoscope
