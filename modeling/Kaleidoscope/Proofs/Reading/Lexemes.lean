import Kaleidoscope.Proofs.Reading.OnePass

/-!
# Reading what was written

A text is written as lexemes with gaps between them: words, numbers and symbols, and white space and
comments. A gap may be empty, unless the two lexemes around it would run into each other: a word
into a word or a number, and a number into a number (`Lexeme.merges`). A gap may hold newlines, so
that the text may have any number of lines.

The token reader gives the lexemes back, one after another, and then the end of the source
(`Lexer.answer_written`). It takes the longest run of characters that can belong to a lexeme; a gap
begins with a character that cannot, and so does every lexeme that does not merge
(`Lexeme.continues_eq_false`). So each lexeme is cut where it was written (`tokenize_lexeme`).
-/

namespace Kaleidoscope

open Text (isBlank)
open Decimal (isLiteralChar)

/-- A token as it is written. -/
inductive Lexeme
  | word (first : Char) (rest : List Char) (letter : first.isAlpha)
    (letters : ∀ c ∈ rest, c.isAlphanum)
  /-- Digits, and perhaps a point with the digits behind it. -/
  | number (whole : List Char) (places : Option (List Char))
    (digits : ∀ c ∈ whole ++ places.getD [], c.isDigit) (any : whole ++ places.getD [] ≠ [])
  | symbol (c : Char) (visible : isBlank c = false) (plain : c.isAlphanum = false)
    (special : c ≠ '.' ∧ c ≠ '#')

/-- A piece of what may stand between lexemes. -/
inductive Gap
  | blank (c : Char) (white : isBlank c)
  /-- A comment, with the newline at its end. -/
  | comment (text : List Char) (line : '\n' ∉ text)

namespace Lexeme

/-- The characters of a lexeme. -/
def text : Lexeme → List Char
  | word first rest _ _ => first :: rest
  | number whole places _ _ => whole ++ (places.map ('.' :: ·)).getD []
  | symbol c _ _ _ => [c]

/-- The token that a lexeme stands for; a number is the double nearest to its decimal value. -/
def token : Lexeme → Token
  | word first rest _ _ => .ofWord (String.ofList (first :: rest))
  | number whole places _ _ =>
    let places := places.getD []
    .number (Decimal.nearest (Decimal.digitsValue (whole ++ places)) (Nat.pow 10 places.length))
  | symbol c _ _ _ => .symbol c

/-- Without a gap between them, the first would take characters of the second. -/
def merges : Lexeme → Lexeme → Bool
  | word _ _ _ _, word _ _ _ _ | word _ _ _ _, number _ _ _ _ => true
  | number _ _ _ _, number _ _ _ _ => true
  | _, _ => false

/-- The lexeme would take the character if it came next. -/
def continues : Lexeme → Char → Bool
  | word _ _ _ _, c => c.isAlphanum
  | number _ _ _ _, c => isLiteralChar c
  | symbol _ _ _ _, _ => false

end Lexeme

/-- The characters of a piece of a gap. -/
def Gap.text : Gap → List Char
  | blank c _ => [c]
  | comment text _ => '#' :: text ++ ['\n']

/-- A text as it is written: a gap, and lexemes with a gap behind each of them, which is not empty
if the lexeme would merge with the next. -/
structure Written where
  before : List Gap
  parts : List (Lexeme × List Gap)
  parted : parts.IsChain fun x y => x.1.merges y.1 → x.2 ≠ []

/-- The characters of lexemes with their gaps. -/
def partsText (parts : List (Lexeme × List Gap)) : List Char :=
  parts.flatMap fun part => part.1.text ++ part.2.flatMap Gap.text

/-- The characters of a text. -/
def Written.text (w : Written) : List Char :=
  w.before.flatMap Gap.text ++ partsText w.parts

/-- The tokens of a text. -/
def Written.tokens (w : Written) : List Token :=
  w.parts.map (·.1.token)

section Characters

variable {c : Char}

/-- The visible characters of ASCII are no white space. -/
theorem isBlank_eq_false_of_visible (h : 0x20 < c.toNat) (h' : c.toNat < 0x7F) :
    isBlank c = false := by
  rw [← Bool.not_eq_true, Text.isBlank_iff]
  simp only [Text.blankRanges, List.mem_cons, List.not_mem_nil, or_false]
  rintro ⟨r, hr, low, high⟩
  rcases hr with rfl | rfl | rfl | rfl | rfl | rfl | rfl | rfl | rfl | rfl
  all_goals
    simp only at low high
    omega

theorem isAlpha_iff :
    c.isAlpha ↔ (65 ≤ c.toNat ∧ c.toNat ≤ 90) ∨ (97 ≤ c.toNat ∧ c.toNat ≤ 122) := by
  show (decide (c.val ≥ 'A'.val ∧ c.val ≤ 'Z'.val) ||
    decide (c.val ≥ 'a'.val) && decide (c.val ≤ 'z'.val)) = true ↔ _
  simp only [Bool.or_eq_true, Bool.and_eq_true, decide_eq_true_eq, ge_iff_le,
    UInt32.le_iff_toNat_le]
  rfl

theorem isDigit_iff : c.isDigit ↔ 48 ≤ c.toNat ∧ c.toNat ≤ 57 := by
  show (decide (c.val ≥ '0'.val) && decide (c.val ≤ '9'.val)) = true ↔ _
  simp only [Bool.and_eq_true, decide_eq_true_eq, ge_iff_le, UInt32.le_iff_toNat_le]
  rfl

theorem isAlphanum_iff : c.isAlphanum ↔ c.isAlpha ∨ c.isDigit :=
  Bool.or_eq_true _ _ ▸ Iff.rfl

theorem isBlank_eq_false_of_isAlphanum (h : c.isAlphanum) : isBlank c = false := by
  rw [isAlphanum_iff, isAlpha_iff, isDigit_iff] at h
  exact isBlank_eq_false_of_visible (by omega) (by omega)

theorem isLiteralChar_iff : isLiteralChar c ↔ c.isDigit ∨ c = '.' := by
  simp [isLiteralChar]

/-- No letter belongs to a number. -/
theorem isLiteralChar_eq_false_of_isAlpha (h : c.isAlpha) : isLiteralChar c = false := by
  rw [← Bool.not_eq_true, isLiteralChar_iff]
  rintro (digit | rfl)
  · rw [isAlpha_iff] at h
    rw [isDigit_iff] at digit
    omega
  · cases h

/-- A character that is no part of a word, and no point, is no part of a number. -/
theorem isLiteralChar_eq_false (h : c.isAlphanum = false) (hp : c ≠ '.') :
    isLiteralChar c = false := by
  rw [← Bool.not_eq_true, isLiteralChar_iff]
  rintro (digit | point)
  · exact Bool.eq_false_iff.1 h (isAlphanum_iff.2 (.inr digit))
  · exact hp point

/-- What can begin a word or a number is no white space, and begins no comment. -/
theorem begins_lexeme (h : c.isAlphanum ∨ c = '.') :
    c ≠ '\n' ∧ ¬ isBlank c = true ∧ c ≠ '#' := by
  have dark : isBlank c = false := by
    rcases h with h | rfl
    · exact isBlank_eq_false_of_isAlphanum h
    · decide
  refine ⟨?_, Bool.eq_false_iff.1 dark, ?_⟩
  · rintro rfl
    cases dark
  · rintro rfl
    exact absurd h (by decide)

/-- A run ends with the last character that satisfies the test. -/
theorem run_append {p : Char → Bool} {cs more : List Char} (hc : ∀ c ∈ cs, p c)
    (hm : ∀ c ∈ more.head?, p c = false) :
    (cs ++ more).takeWhile p = cs ∧ (cs ++ more).dropWhile p = more := by
  rw [List.takeWhile_append_of_pos hc, List.dropWhile_append_of_pos hc]
  cases more with
  | nil => simp
  | cons c more => simp [hm c rfl]

end Characters

section Gaps

theorem Gap.text_ne_nil (g : Gap) : g.text ≠ [] := by
  cases g <;> simp [text]

/-- A gap is skipped. -/
theorem tokenize_gap (g : Gap) (skipped : Nat) (more : List Char) :
    ∃ skipped', tokenize skipped ((g.text ++ more).map some) =
      tokenize skipped' (more.map some) := by
  cases g with
  | blank c white =>
    rw [Gap.text, List.singleton_append, List.map_cons, tokenize]
    by_cases hn : c = '\n'
    · exact ⟨0, if_pos hn⟩
    · rw [if_neg hn, if_pos white]
      exact ⟨_, rfl⟩
  | comment text line =>
    have rest : dropLine ((text ++ '\n' :: more).map some) = ('\n' :: more).map some := by
      rw [dropLine, behind_map, (run_append (fun c hc => ?_) fun c hc => ?_).2]
      · simpa using fun he : c = '\n' => line (he ▸ hc)
      · cases hc
        decide
    have start : (Gap.comment text line).text ++ more = '#' :: (text ++ '\n' :: more) := by
      simp [Gap.text]
    rw [start, List.map_cons, tokenize, if_neg (by decide), if_neg (by decide), if_pos rfl, rest,
      List.map_cons, tokenize, if_pos rfl]
    exact ⟨0, rfl⟩

/-- Gaps give no tokens; they only count for the place of a later fault. -/
theorem tokenize_gaps (gaps : List Gap) : ∀ (skipped : Nat) (more : List Char), ∃ skipped',
    tokenize skipped ((gaps.flatMap Gap.text ++ more).map some) =
      tokenize skipped' (more.map some) := by
  induction gaps with
  | nil => exact fun skipped _ => ⟨skipped, rfl⟩
  | cons g gaps ih =>
    intro skipped more
    rw [List.flatMap_cons, List.append_assoc]
    obtain ⟨first, hfirst⟩ := tokenize_gap g skipped (gaps.flatMap Gap.text ++ more)
    obtain ⟨rest, hrest⟩ := ih first more
    exact ⟨rest, hfirst.trans hrest⟩

end Gaps

namespace Lexeme

variable {l m : Lexeme} {c : Char} {more : List Char}

theorem text_ne_nil (l : Lexeme) : l.text ≠ [] := by
  cases l with
  | number whole places _ any =>
    intro h
    obtain ⟨rfl, hp⟩ := List.append_eq_nil_iff.1 h
    cases places with
    | none => exact any rfl
    | some places => cases hp
  | _ => simp [text]

/-- What is written of a number is a literal, with the value of the number. -/
theorem literal?_text {whole : List Char} {places : Option (List Char)}
    (digits : ∀ c ∈ whole ++ places.getD [], c.isDigit) (any : whole ++ places.getD [] ≠ []) :
    Decimal.literal? (whole ++ (places.map ('.' :: ·)).getD []) =
      some (Decimal.nearest (Decimal.digitsValue (whole ++ places.getD []))
        (Nat.pow 10 (places.getD []).length)) := by
  have point : ∀ c ∈ ((places.map ('.' :: ·)).getD []).head?, Char.isDigit c = false := by
    cases places with
    | none => simp
    | some places => simp
  have behindPoint : ((places.map ('.' :: ·)).getD []).drop 1 = places.getD [] := by
    cases places with
    | none => rfl
    | some places => rfl
  obtain ⟨front, rest⟩ := run_append (fun c hc => digits c (List.mem_append_left _ hc)) point
  have decimals : (places.getD []).all Char.isDigit = true :=
    List.all_eq_true.2 fun c hc => digits c (List.mem_append_right _ hc)
  have some_digit : (whole ++ places.getD []).isEmpty = false := by simpa using any
  simp only [Decimal.literal?, front, rest, behindPoint, decimals, some_digit]
  rfl

/-- A number is written in characters of literals only. -/
theorem isLiteralChar_of_mem {whole : List Char} {places : Option (List Char)}
    (digits : ∀ c ∈ whole ++ places.getD [], c.isDigit)
    (hc : c ∈ whole ++ (places.map ('.' :: ·)).getD []) : isLiteralChar c := by
  have digit : c ∈ whole ++ places.getD [] → isLiteralChar c := fun h => by
    simp [isLiteralChar, digits c h]
  rcases List.mem_append.1 hc with hc | hc
  · exact digit (List.mem_append_left _ hc)
  · cases places with
    | none => cases hc
    | some places =>
      rcases List.mem_cons.1 hc with rfl | hc
      · decide
      · exact digit (List.mem_append_right _ hc)

/-- A lexeme is cut where it ends, if what follows does not continue it. -/
theorem tokenize_lexeme (l : Lexeme) (skipped : Nat)
    (h : ∀ c ∈ more.head?, l.continues c = false) :
    tokenize skipped ((l.text ++ more).map some) = .ok l.token :: tokenize 0 (more.map some) := by
  cases l with
  | word first rest letter letters =>
    obtain ⟨newline, blank, comment⟩ := begins_lexeme (.inl (isAlphanum_iff.2 (.inl letter)))
    obtain ⟨run, behind⟩ := run_append letters h
    rw [text, List.cons_append, List.map_cons, tokenize, if_neg newline, if_neg blank,
      if_neg comment, if_neg (Bool.eq_false_iff.1 (isLiteralChar_eq_false_of_isAlpha letter)),
      if_pos letter, runOf_map, behind_map, run, behind]
    rfl
  | number whole places digits any =>
    have nonempty := text_ne_nil (.number whole places digits any)
    have value := literal?_text digits any
    have literals : ∀ c ∈ whole ++ (places.map ('.' :: ·)).getD [], isLiteralChar c :=
      fun c hc => isLiteralChar_of_mem digits hc
    rw [text] at nonempty ⊢
    obtain ⟨first, rest, front⟩ := List.exists_cons_of_ne_nil nonempty
    rw [front] at value literals
    rw [List.forall_mem_cons] at literals
    obtain ⟨newline, blank, comment⟩ := begins_lexeme
      ((isLiteralChar_iff.1 literals.1).imp_left fun digit => isAlphanum_iff.2 (.inr digit))
    obtain ⟨run, behind⟩ := run_append literals.2 h
    rw [front, List.cons_append, List.map_cons, tokenize, if_neg newline, if_neg blank,
      if_neg comment, if_pos literals.1, runOf_map, behind_map, run, behind, value]
    rfl
  -- the branches for white space, comments, numbers and words are ruled out one by one
  | symbol c visible plain special =>
    have letter : ¬ c.isAlpha = true := fun ha =>
      Bool.eq_false_iff.1 plain (isAlphanum_iff.2 (.inl ha))
    have newline : c ≠ '\n' := by
      rintro rfl
      cases visible
    rw [text, List.singleton_append, List.map_cons, tokenize, if_neg newline,
      if_neg (Bool.eq_false_iff.1 visible), if_neg special.2,
      if_neg (Bool.eq_false_iff.1 (isLiteralChar_eq_false plain special.1)), if_neg letter]
    rfl

/-- A lexeme does not continue one that it does not merge with. -/
theorem continues_eq_false (h : l.merges m = false) :
    ∀ c ∈ m.text.head?, l.continues c = false := by
  intro c hc
  cases l with
  | symbol => rfl
  | word =>
    cases m with
    | symbol d _ plain _ =>
      cases hc
      exact plain
    | _ => cases h
  | number =>
    cases m with
    | word first _ letter _ =>
      cases hc
      exact isLiteralChar_eq_false_of_isAlpha letter
    | number => cases h
    | symbol d _ plain special =>
      cases hc
      exact isLiteralChar_eq_false plain special.1

/-- Neither does a gap. -/
theorem continues_gap (l : Lexeme) (g : Gap) : ∀ c ∈ g.text.head?, l.continues c = false := by
  intro c hc
  have outside : c.isAlphanum = false ∧ c ≠ '.' := by
    cases g with
    | blank d white =>
      cases hc
      refine ⟨?_, ?_⟩
      · rw [← Bool.not_eq_true]
        intro word
        rw [isBlank_eq_false_of_isAlphanum word] at white
        cases white
      · rintro rfl
        exact absurd white (by decide)
    | comment text _ =>
      cases hc
      decide
  cases l with
  | word => exact outside.1
  | number => exact isLiteralChar_eq_false outside.1 outside.2
  | symbol => rfl

end Lexeme

section Parts

variable {l : Lexeme} {gaps : List Gap} {parts : List (Lexeme × List Gap)}

theorem partsText_cons (part : Lexeme × List Gap) : partsText (part :: parts) =
    part.1.text ++ (part.2.flatMap Gap.text ++ partsText parts) := by
  rw [partsText, List.flatMap_cons, List.append_assoc]
  rfl

/-- What comes behind a lexeme does not continue it. -/
theorem continues_behind (h : ((l, gaps) :: parts).IsChain fun x y => x.1.merges y.1 → x.2 ≠ []) :
    ∀ c ∈ (gaps.flatMap Gap.text ++ partsText parts).head?, l.continues c = false := by
  cases gaps with
  | cons g gaps =>
    rw [List.flatMap_cons, List.append_assoc, List.head?_append_of_ne_nil _ g.text_ne_nil]
    exact l.continues_gap g
  | nil =>
    cases parts with
    | nil => simp [partsText]
    | cons part parts =>
      have apart : l.merges part.1 = false := by
        rw [← Bool.not_eq_true]
        exact fun merges => (List.isChain_cons_cons.1 h).1 merges rfl
      rw [List.flatMap_nil, List.nil_append, partsText_cons,
        List.head?_append_of_ne_nil _ part.1.text_ne_nil]
      exact Lexeme.continues_eq_false apart

/-- The tokens of lexemes with their gaps. -/
theorem tokenize_parts (h : parts.IsChain fun x y => x.1.merges y.1 → x.2 ≠ []) :
    ∀ skipped, tokenize skipped ((partsText parts).map some) =
      parts.map fun x => .ok x.1.token := by
  induction parts with
  | nil => simp [partsText, tokenize]
  | cons part parts ih =>
    intro skipped
    obtain ⟨l, gaps⟩ := part
    obtain ⟨skipped', behind⟩ := tokenize_gaps gaps 0 (partsText parts)
    rw [partsText_cons, l.tokenize_lexeme skipped (continues_behind h), behind, ih h.of_cons,
      List.map_cons]

/-- By induction on the lexemes, each of which is cut where the gap or the next lexeme begins. -/
theorem Written.tokenize_text (w : Written) :
    tokenize 0 (w.text.map some) = w.tokens.map .ok := by
  obtain ⟨skipped, start⟩ := tokenize_gaps w.before 0 (partsText w.parts)
  rw [Written.text, start, tokenize_parts w.parted, Written.tokens, List.map_map]
  rfl

end Parts

/-- **Reading undoes writing.** The calls of the reader of a written text give the tokens of its
lexemes, one after another and without a fault, and then the end for ever, however the gaps divide
the text into lines. -/
theorem Lexer.answer_written (w : Written) (n : Nat) :
    (ofBytes (Text.encode w.text)).answer n = (w.tokens.map .ok).getD n (.ok .finish) := by
  rw [answer_eq, items_eq (inLines_ofBytes _), ← w.tokenize_text, ← Text.signs_encode w.text,
    tokenize_signs]
  simp [ofBytes, tokenize]

/-- A number may stand right before a word, and a symbol right before and behind anything. -/
example : Written.text {
    before := [.comment [' ', 'f'] (by simp)]
    parts := [
      (.number ['2'] (some []) (by simp) (by simp), []),
      (.word 'x' ['1'] (by decide) (by simp), []),
      (.symbol '<' (by decide) (by decide) (by decide), []),
      (.number [] (some ['5']) (by simp) (by simp),
        [.blank '\n' (by decide), .comment [] (by simp)]),
      (.number ['3'] none (by simp) (by simp), [])]
    parted := by simp [Lexeme.merges] } = "# f\n2.x1<.5\n#\n3".toList := by
  decide

end Kaleidoscope
