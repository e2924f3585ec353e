/-!
# Lines of a byte source

A source of bytes is read one line at a time. Only the byte of `'\n'` ends a line, and a line keeps
it.
-/

namespace Kaleidoscope.Text

/-- The byte that ends a line. -/
def newline : UInt8 := 10

/-- The lines of a source; each but perhaps the last ends with a newline, and none is empty. -/
def lines : List UInt8 → List (List UInt8)
  | [] => []
  | b :: bs =>
    if b = newline then [b] :: lines bs
    else
      match lines bs with
      | [] => [[b]]
      | line :: more => (b :: line) :: more

/-- The characters of a line; `none` if its bytes are not UTF-8. -/
def decode? (line : List UInt8) : Option (List Char) :=
  (String.fromUTF8? line.toByteArray).map String.toList

/-- A character takes at least one byte. -/
theorem length_le_utf8Encode (cs : List Char) : cs.length ≤ cs.utf8Encode.size := by
  induction cs with
  | nil => simp
  | cons c cs ih =>
    have : 0 < c.utf8Size := Char.utf8Size_pos c
    rw [List.utf8Encode_cons, ByteArray.size_append, List.utf8Encode_singleton]
    simp
    omega

/-- A line has no more characters than bytes. -/
theorem length_of_decode? {line : List UInt8} {cs : List Char} (h : decode? line = some cs) :
    cs.length ≤ line.length := by
  unfold decode? String.fromUTF8? at h
  split at h
  · next hv =>
    simp only [Option.map_some, Option.some.injEq] at h
    subst h
    have := length_le_utf8Encode (String.fromUTF8 line.toByteArray hv).toList
    rw [String.utf8Encode_toList] at this
    simpa [String.fromUTF8] using this
  · simp at h

end Kaleidoscope.Text
