/-!
# Paths

A path is a sequence of names with slashes between them; one without a slash is a name
(`names_of_not_mem`). The lengths of names and paths are bounded, in bytes.
-/

namespace Kaleidoscope.Path

/-- The names in a path: the parts between slashes, any of which may be empty. -/
def names : List Char → List (List Char)
  | [] => [[]]
  | c :: cs =>
    if c = '/' then [] :: names cs
    else
      match names cs with
      | [] => [[c]]
      | name :: more => (c :: name) :: more

theorem names_of_not_mem {path : List Char} (h : '/' ∉ path) : names path = [path] := by
  induction path with
  | nil => rfl
  | cons c cs ih =>
    simp only [List.mem_cons, not_or] at h
    simp [names, Ne.symm h.1, ih h.2]

/-- The greatest number of bytes in a name. -/
def nameLimit : Nat := 255

/-- The greatest number of bytes in a path. -/
def pathLimit : Nat := 4095

end Kaleidoscope.Path
