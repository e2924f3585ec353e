import Kaleidoscope.Text.Line
import Mathlib.Data.List.Basic

/-!
# Lines of characters

Only the character `'\n'` has the byte of a newline in its encoding, so a source that is UTF-8 is cut
into the lines of its characters. `Text.signs` is what a source is to a reader: its characters, and one
sign for each line that is not UTF-8.

What is said of all sources goes by induction over their lines (`onLines`).
-/

namespace Kaleidoscope.Text

/-- The bytes of characters in UTF-8. -/
def encode (cs : List Char) : List UInt8 :=
  cs.flatMap String.utf8EncodeChar

/-- What a line is to a reader: its characters, or a single sign if it is not UTF-8. -/
def lineSigns (line : List UInt8) : List (Option Char) :=
  match decode? line with
  | some cs => cs.map some
  | none => [none]

/-- What a source is to a reader, line by line. -/
def signs (source : List UInt8) : List (Option Char) :=
  (lines source).flatMap lineSigns

/-- Induction over the lines of a list: it is empty, or the last line, or a line that is ended and
what comes after it. -/
theorem onLines {α : Type} (x : α) {P : List α → Prop} (nil : P [])
    (last : ∀ line, line ≠ [] → x ∉ line → P line)
    (ended : ∀ line more, x ∉ line → P more → P (line ++ x :: more)) (l : List α) : P l := by
  by_cases hx : x ∈ l
  · obtain ⟨line, more, h, hl⟩ := List.eq_append_cons_of_mem hx
    have fewer : more.length < l.length := by
      simp only [h, List.length_append, List.length_cons]
      omega
    exact h ▸ ended line more hl (onLines x nil last ended more)
  · by_cases hl : l = []
    · exact hl ▸ nil
    · exact last l hl hx
termination_by l.length

section Cutting

variable {line bs : List UInt8}

theorem lines_last (hl : line ≠ []) (hn : newline ∉ line) : lines line = [line] := by
  induction line with
  | nil => exact absurd rfl hl
  | cons b bs ih =>
    obtain ⟨hb, hbs⟩ := not_or.1 (mt List.mem_cons.2 hn)
    cases bs with
    | nil => simp [lines, Ne.symm hb]
    | cons b' bs =>
      have rest := ih (List.cons_ne_nil _ _) hbs
      rw [lines, if_neg (Ne.symm hb), rest]

/-- A line goes up to its newline and with it. -/
theorem lines_ended (hn : newline ∉ line) :
    lines (line ++ newline :: bs) = (line ++ [newline]) :: lines bs := by
  induction line with
  | nil => simp [lines]
  | cons b line ih =>
    obtain ⟨hb, hbs⟩ := not_or.1 (mt List.mem_cons.2 hn)
    simp only [List.cons_append, lines, if_neg (Ne.symm hb), ih hbs]

/-- A newline parts the lines before it from those after it. -/
theorem lines_append (a b : List UInt8) :
    lines (a ++ newline :: b) = lines (a ++ [newline]) ++ lines b := by
  induction a using onLines newline with
  | nil => simp [lines]
  | last line _ hn => rw [lines_ended hn, lines_ended hn, lines, List.singleton_append]
  | ended line more hn ih =>
    rw [List.append_assoc, List.append_assoc, List.cons_append, List.cons_append, lines_ended hn,
      lines_ended hn, ih, List.cons_append]

/-- The lines before a line are the lines of a source of their own. -/
theorem lines_of_prefix {source : List UInt8} :
    ∀ {earlier more}, lines source = earlier ++ line :: more → lines earlier.flatten = earlier := by
  induction source using onLines newline with
  | nil =>
    intro earlier more h
    simp [lines] at h
  | last last hl hn =>
    intro earlier more h
    rw [lines_last hl hn] at h
    cases earlier with
    | nil => rfl
    | cons first earlier => simp at h
  | ended first source hn ih =>
    intro earlier more h
    rw [lines_ended hn] at h
    cases earlier with
    | nil => rfl
    | cons _ earlier =>
      obtain ⟨rfl, rest⟩ := List.cons.inj h
      rw [List.flatten_cons, List.append_assoc, List.singleton_append, lines_ended hn, ih rest]

/-- A newline stands at the end of a line or not at all. -/
theorem of_mem_lines {source : List UInt8} (h : line ∈ lines source) :
    newline ∉ line ∨ ∃ body, newline ∉ body ∧ line = body ++ [newline] := by
  induction source using onLines newline with
  | nil => simp [lines] at h
  | last last hl hn =>
    rw [lines_last hl hn, List.mem_singleton] at h
    exact .inl (h ▸ hn)
  | ended first source hn ih =>
    rw [lines_ended hn, List.mem_cons] at h
    rcases h with rfl | h
    · exact .inr ⟨first, hn, rfl⟩
    · exact ih h

end Cutting

section Encoding

variable {line : List UInt8} {cs : List Char}

theorem encode_append (cs ds : List Char) : encode (cs ++ ds) = encode cs ++ encode ds :=
  List.flatMap_append

theorem encode_newline : encode ['\n'] = [newline] := by
  decide

theorem encode_ended (cs ds : List Char) :
    encode (cs ++ '\n' :: ds) = encode cs ++ newline :: encode ds := by
  rw [← List.singleton_append, encode_append, encode_append, encode_newline, List.singleton_append]

theorem encode_eq_nil (h : encode cs = []) : cs = [] := by
  cases cs with
  | nil => rfl
  | cons c cs =>
    have hc := (List.append_eq_nil_iff.1 h).1
    have := String.length_utf8EncodeChar c
    rw [hc] at this
    exact absurd this (Nat.ne_of_lt (Char.utf8Size_pos c))

/-- The bytes of a line are those of its characters. -/
theorem decode?_eq_some : decode? line = some cs ↔ line = encode cs := by
  constructor
  · intro h
    unfold decode? String.fromUTF8? at h
    split at h
    · next hv =>
      simp only [Option.map_some, Option.some.injEq] at h
      have same : cs.utf8Encode = line.toByteArray := by
        rw [← h, String.utf8Encode_toList]
        rfl
      simpa [List.utf8Encode, encode] using (congrArg ByteArray.data same).symm
    · simp at h
  · rintro rfl
    have hv : (encode cs).toByteArray.IsValidUTF8 := .intro cs rfl
    have same : String.fromUTF8 (encode cs).toByteArray hv = String.ofList cs :=
      String.toByteArray_inj.1 (by rw [String.toByteArray_ofList]; rfl)
    simp [decode?, String.fromUTF8?, hv, same]

/-- No byte of a character beyond ASCII is a newline. -/
theorem newline_ne_ofNat {n : Nat} (hl : 128 ≤ n) (hu : n < 256) : newline ≠ UInt8.ofNat n := by
  intro h
  have : 10 = n % 256 := congrArg UInt8.toNat h
  omega

/-- No other character has the byte of a newline in its encoding: the bytes of a longer encoding are
all 128 or more. -/
theorem newline_mem_utf8EncodeChar {c : Char} :
    newline ∈ String.utf8EncodeChar c ↔ c = '\n' := by
  constructor
  · intro h
    unfold String.utf8EncodeChar at h
    dsimp only at h
    split at h
    · have : 10 = c.val.toNat % 256 := congrArg UInt8.toNat (List.mem_singleton.1 h)
      have code : c.val.toNat = 10 := by omega
      exact Char.ext (UInt32.toNat_inj.1 code)
    · repeat' split at h
      all_goals
        simp (disch := omega) only [List.mem_cons, List.not_mem_nil, newline_ne_ofNat, or_false] at h
  · rintro rfl
    decide

/-- The bytes of characters have a newline if the characters do. -/
theorem newline_mem_encode : newline ∈ encode cs ↔ '\n' ∈ cs := by
  simp [encode, newline_mem_utf8EncodeChar]

/-- A newline after a line is a character of its own. -/
theorem decode?_ended (hn : newline ∉ line) :
    decode? (line ++ [newline]) = (decode? line).map (· ++ ['\n']) := by
  apply Option.ext
  intro cs
  rw [Option.map_eq_some_iff, decode?_eq_some]
  constructor
  · intro h
    have hc : '\n' ∈ cs := newline_mem_encode.1 (h ▸ by simp)
    obtain ⟨ds, more, rfl, -⟩ := List.eq_append_cons_of_mem hc
    rw [encode_ended] at h
    obtain ⟨h₁, -, h₂⟩ := (List.append_cons_inj_of_notMem hn List.not_mem_nil).1 h
    exact ⟨ds, decode?_eq_some.2 h₁, by rw [encode_eq_nil h₂.symm]⟩
  · rintro ⟨ds, hd, rfl⟩
    rw [encode_ended, ← decode?_eq_some.1 hd]
    rfl

/-- A source that is UTF-8 is its characters. -/
theorem signs_encode (text : List Char) : signs (encode text) = text.map some := by
  induction text using onLines '\n' with
  | nil => rfl
  | last line hl hn =>
    have he : encode line ≠ [] := mt encode_eq_nil hl
    rw [signs, lines_last he (mt newline_mem_encode.1 hn), List.flatMap_singleton, lineSigns,
      decode?_eq_some.2 rfl]
  | ended line more hn ih =>
    have hd : decode? (encode line ++ [newline]) = some (line ++ ['\n']) :=
      decode?_eq_some.2 (encode_ended line []).symm
    rw [encode_ended, signs, lines_ended (mt newline_mem_encode.1 hn), List.flatMap_cons, ← signs,
      ih, lineSigns, hd]
    simp

end Encoding

end Kaleidoscope.Text
