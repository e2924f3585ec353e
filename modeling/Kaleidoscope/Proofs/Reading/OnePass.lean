import Kaleidoscope.Proofs.Reading.Stream
import Kaleidoscope.Proofs.Text.Lines

/-!
# Tokens in one pass

`tokenize` cuts a whole text into tokens in one pass, without lines in between: white space and
comments are skipped, and where a line or a number is malformed stands one fault. The token reader,
which takes one line at a time and only when it needs it, hands out the same tokens and faults, and
then the end of the source for ever (`Lexer.onePass`).

A call of the reader goes on in the current line, or in the first later line that has anything, or
finds nothing more (`Lexer.Advances`). In the one-pass text the items of the lines follow each other
(`tokenize_ended`), as no token goes past the end of its line.
-/

namespace Kaleidoscope

open Text (isBlank byteLength newline lineSigns signs)
open Decimal (isLiteralChar)

/-- The characters that satisfy the test, up to the first sign that does not. -/
def runOf (p : Char → Bool) (text : List (Option Char)) : List Char :=
  (text.takeWhile (·.any p)).filterMap id

/-- What comes after these characters. -/
def behind (p : Char → Bool) (text : List (Option Char)) : List (Option Char) :=
  text.dropWhile (·.any p)

/-- A text without the rest of its first line. -/
def dropLine (text : List (Option Char)) : List (Option Char) :=
  behind (· ≠ '\n') text

theorem length_behind (p : Char → Bool) (text : List (Option Char)) :
    (behind p text).length ≤ text.length :=
  (List.dropWhile_sublist _).length_le

/-- The tokens of a text, with a fault in the place of each malformed number and of each sign that is
no character. White space that was `skipped` before the text is counted in bytes. -/
def tokenize (skipped : Nat) : List (Option Char) → List Item
  | [] => []
  | none :: text => .error .badText :: tokenize 0 text
  | some c :: text =>
    if c = '\n' then tokenize 0 text
    else if isBlank c then tokenize (skipped + c.utf8Size) text
    else if c = '#' then tokenize 0 (dropLine text)
    else if isLiteralChar c then
      match Decimal.literal? (c :: runOf isLiteralChar text) with
      | some x => .ok (.number x) :: tokenize 0 (behind isLiteralChar text)
      | none => .error (.badNumber skipped) :: tokenize 0 (dropLine text)
    else if c.isAlpha then
      .ok (.ofWord (String.ofList (c :: runOf Char.isAlphanum text))) ::
        tokenize 0 (behind Char.isAlphanum text)
    else .ok (.symbol c) :: tokenize 0 text
termination_by text => text.length
decreasing_by
  all_goals
    simp only [List.length_cons]
    first
    | omega
    | exact Nat.lt_succ_of_le (length_behind _ _)

section Boundaries

variable {p : Char → Bool} {text more : List (Option Char)}

/-- A run that newlines do not belong to ends at the newline, whatever is behind it. -/
theorem runOf_append (hp : p '\n' = false) :
    runOf p (text ++ some '\n' :: more) = runOf p text := by
  unfold runOf
  congr 1
  induction text with
  | nil => simp [hp]
  | cons c text ih =>
    rw [List.cons_append, List.takeWhile_cons, List.takeWhile_cons, ih]

theorem behind_append (hp : p '\n' = false) :
    behind p (text ++ some '\n' :: more) = behind p text ++ some '\n' :: more := by
  unfold behind
  induction text with
  | nil => simp [hp]
  | cons c text ih =>
    rw [List.cons_append, List.dropWhile_cons, List.dropWhile_cons, ih]
    split
    · rfl
    · rfl

theorem dropLine_append : dropLine (text ++ some '\n' :: more) = dropLine text ++ some '\n' :: more :=
  behind_append (by decide)

/-- No token goes past the end of a line. -/
theorem tokenize_ended (skipped : Nat) (text more : List (Option Char)) :
    tokenize skipped (text ++ some '\n' :: more) = tokenize skipped text ++ tokenize 0 more := by
  fun_induction tokenize skipped text with
  | case1 skipped => rw [List.nil_append, List.nil_append, tokenize, if_pos rfl]
  | case2 skipped text ih => rw [List.cons_append, tokenize, ih, List.cons_append]
  | case3 skipped text ih => rw [List.cons_append, tokenize, if_pos rfl, ih]
  | case4 skipped c text hn hb ih => rw [List.cons_append, tokenize, if_neg hn, if_pos hb, ih]
  | case5 skipped text hn hb ih =>
    rw [List.cons_append, tokenize, if_neg hn, if_neg hb, if_pos rfl, dropLine_append, ih]
  -- a run stops at the newline at the latest, whatever comes after it
  | case6 skipped c text hn hb hc hl x hx ih =>
    rw [List.cons_append, tokenize, if_neg hn, if_neg hb, if_neg hc, if_pos hl,
      runOf_append (by decide), behind_append (by decide), hx]
    dsimp only
    rw [ih, List.cons_append]
  | case7 skipped c text hn hb hc hl hx ih =>
    rw [List.cons_append, tokenize, if_neg hn, if_neg hb, if_neg hc, if_pos hl,
      runOf_append (by decide), dropLine_append, hx]
    dsimp only
    rw [ih, List.cons_append]
  | case8 skipped c text hn hb hc hl ha ih =>
    rw [List.cons_append, tokenize, if_neg hn, if_neg hb, if_neg hc, if_neg hl, if_pos ha,
      runOf_append (by decide), behind_append (by decide), ih, List.cons_append]
  | case9 skipped c text hn hb hc hl ha ih =>
    rw [List.cons_append, tokenize, if_neg hn, if_neg hb, if_neg hc, if_neg hl, if_neg ha, ih,
      List.cons_append]

/-- The tokens and faults of one line. -/
def lineItems (line : List UInt8) : List Item :=
  tokenize 0 (lineSigns line)

/-- A line that is text is cut into tokens; one that is not gives one fault. -/
theorem lineItems_of_some {line : List UInt8} {cs : List Char} (h : Text.decode? line = some cs) :
    lineItems line = tokenize 0 (cs.map some) := by
  simp only [lineItems, lineSigns, h]

theorem lineItems_of_none {line : List UInt8} (h : Text.decode? line = none) :
    lineItems line = [.error .badText] := by
  simp only [lineItems, lineSigns, h, tokenize]

/-- A newline at the end of a line adds nothing. -/
theorem lineItems_ended {line : List UInt8} (hn : newline ∉ line) :
    lineItems (line ++ [newline]) = lineItems line := by
  have ended := Text.decode?_ended hn
  cases hd : Text.decode? line with
  | none =>
    rw [hd] at ended
    rw [lineItems_of_none hd, lineItems_of_none ended]
  | some cs =>
    rw [hd] at ended
    rw [lineItems_of_some hd, lineItems_of_some ended, List.map_append, List.map_singleton,
      tokenize_ended, tokenize, List.append_nil]

/-- The items of a line that is ended come before those of the text after it. -/
theorem tokenize_lineSigns {line : List UInt8} (hn : newline ∉ line) (text : List (Option Char)) :
    tokenize 0 (lineSigns (line ++ [newline]) ++ text) = lineItems line ++ tokenize 0 text := by
  rw [lineSigns, Text.decode?_ended hn]
  cases hd : Text.decode? line with
  | none =>
    rw [lineItems_of_none hd]
    simp [tokenize]
  | some cs =>
    rw [lineItems_of_some hd]
    simp [tokenize_ended]

/-- The items of a text are those of its lines. -/
theorem tokenize_signs (source : List UInt8) :
    tokenize 0 (signs source) = (Text.lines source).flatMap lineItems := by
  induction source using Text.onLines newline with
  | nil => simp [signs, Text.lines, tokenize]
  | last line hl hn =>
    rw [signs, Text.lines_last hl hn, List.flatMap_singleton, List.flatMap_singleton, lineItems]
  | ended line more hn ih =>
    rw [signs, Text.lines_ended hn, List.flatMap_cons, List.flatMap_cons, ← signs, ← ih,
      lineItems_ended hn, tokenize_lineSigns hn]

/-- The items before a newline, and those after it. -/
theorem lineItems_append (a b : List UInt8) :
    (Text.lines (a ++ newline :: b)).flatMap lineItems =
      (Text.lines a).flatMap lineItems ++ (Text.lines b).flatMap lineItems := by
  rw [Text.lines_append, List.flatMap_append]
  congr 1
  induction a using Text.onLines newline with
  | nil =>
    have blank : lineItems [newline] = [] := by
      rw [lineItems_of_some (Text.decode?_eq_some.2 Text.encode_newline.symm)]
      simp [tokenize]
    simp [Text.lines, blank]
  | last line hl hn =>
    rw [Text.lines_ended hn, Text.lines_last hl hn, List.flatMap_cons, lineItems_ended hn]
    rfl
  | ended line more hn ih =>
    rw [List.append_assoc, List.cons_append, Text.lines_ended hn, Text.lines_ended hn,
      List.flatMap_cons, List.flatMap_cons, ih]

end Boundaries

/-- A newline stands at the end or not at all. -/
inductive OneLine : List Char → Prop
  | nil : OneLine []
  | newline : OneLine ['\n']
  | cons {c : Char} {cs : List Char} : c ≠ '\n' → OneLine cs → OneLine (c :: cs)

/-- What the front of a line says of the items of the line. -/
def Scan.items : Scan → List Item
  | .blank => []
  | .token t rest => .ok t :: tokenize 0 (rest.map some)
  | .badNumber offset => [.error (.badNumber offset)]

/-- The front of a line from which so much white space has been skipped. -/
def scanFrom (skipped : Nat) (cs : List Char) : Scan :=
  match cs.dropWhile isBlank with
  | [] => .blank
  | c :: rest => scanAt (skipped + byteLength (cs.takeWhile isBlank)) c rest

section Lines

variable {p : Char → Bool} {cs : List Char} {c : Char}

/-- In a text without faults, a run is what one would take from the list of characters. -/
theorem runOf_map (p : Char → Bool) (cs : List Char) : runOf p (cs.map some) = cs.takeWhile p := by
  rw [runOf, List.takeWhile_map]
  simp [Function.comp_def]

theorem behind_map (p : Char → Bool) (cs : List Char) :
    behind p (cs.map some) = (cs.dropWhile p).map some := by
  rw [behind, List.dropWhile_map]
  simp [Function.comp_def]

theorem OneLine.dropWhile (h : OneLine cs) (p : Char → Bool) : OneLine (cs.dropWhile p) := by
  induction h with
  | nil => exact .nil
  | newline =>
    rw [List.dropWhile_cons]
    split
    · exact .nil
    · exact .newline
  | cons hc h ih =>
    rw [List.dropWhile_cons]
    split
    · exact ih
    · exact .cons hc h

theorem oneLine_of_not_mem (h : '\n' ∉ cs) : OneLine cs := by
  induction cs with
  | nil => exact .nil
  | cons c cs ih =>
    obtain ⟨hc, hcs⟩ := not_or.1 (mt List.mem_cons.2 h)
    exact .cons (Ne.symm hc) (ih hcs)

theorem oneLine_ended (h : '\n' ∉ cs) : OneLine (cs ++ ['\n']) := by
  induction cs with
  | nil => exact .newline
  | cons c cs ih =>
    obtain ⟨hc, hcs⟩ := not_or.1 (mt List.mem_cons.2 h)
    exact .cons (Ne.symm hc) (ih hcs)

/-- Nothing is left of a line that is dropped. -/
theorem OneLine.tokenize_dropLine (h : OneLine cs) : tokenize 0 (dropLine (cs.map some)) = [] := by
  rw [dropLine, behind_map]
  induction h with
  | nil => simp [tokenize]
  | newline => simp [tokenize]
  | cons hc _ ih => rwa [List.dropWhile_cons_of_pos (by simpa using hc)]

/-- What is left of a line behind a token is at most one line. -/
theorem OneLine.of_scanAt {offset : Nat} {t : Token} {rest : List Char} (h : OneLine cs)
    (hs : scanAt offset c cs = .token t rest) : OneLine rest := by
  unfold scanAt at hs
  split at hs
  · cases hs
  · split at hs
    · split at hs
      · cases hs
        exact h.dropWhile _
      · cases hs
    · split at hs
      · cases hs
        exact h.dropWhile _
      · cases hs
        exact h

/-- What is left behind a token is the rest of the line. -/
theorem OneLine.of_scan {t : Token} {rest : List Char} (h : OneLine cs)
    (hs : scan cs = .token t rest) : OneLine rest := by
  have front := h.dropWhile isBlank
  unfold scan at hs
  split at hs
  · cases hs
  · next c cs hc =>
    rw [hc] at front
    cases front with
    | newline => exact OneLine.nil.of_scanAt hs
    | cons _ front => exact front.of_scanAt hs

theorem scanFrom_zero (cs : List Char) : scanFrom 0 cs = scan cs := by
  simp only [scanFrom, Nat.zero_add]
  rfl

/-- White space at the front is counted in bytes. -/
theorem scanFrom_blank (hb : isBlank c = true) (skipped : Nat) (cs : List Char) :
    scanFrom skipped (c :: cs) = scanFrom (skipped + c.utf8Size) cs := by
  simp only [scanFrom, List.dropWhile_cons_of_pos hb, List.takeWhile_cons_of_pos hb, byteLength,
    Nat.add_assoc]

theorem scanFrom_visible (hb : ¬ isBlank c = true) (skipped : Nat) (cs : List Char) :
    scanFrom skipped (c :: cs) = scanAt skipped c cs := by
  simp only [scanFrom, List.dropWhile_cons_of_neg hb, List.takeWhile_cons_of_neg hb, byteLength,
    Nat.add_zero]

/-- The items of one line begin with its front. -/
theorem OneLine.tokenize_eq (h : OneLine cs) (skipped : Nat) :
    tokenize skipped (cs.map some) = (scanFrom skipped cs).items := by
  induction h generalizing skipped with
  | nil => simp [tokenize, scanFrom, Scan.items]
  | newline =>
    rw [scanFrom_blank (by decide)]
    simp [tokenize, scanFrom, Scan.items]
  | @cons c cs hn h ih =>
    rw [List.map_cons, tokenize, if_neg hn]
    by_cases hb : isBlank c = true
    · rw [if_pos hb, ih, scanFrom_blank hb]
    · rw [if_neg hb, scanFrom_visible hb, scanAt]
      simp only [runOf_map, behind_map, h.tokenize_dropLine]
      split
      · rfl
      · split
        · cases Decimal.literal? (c :: cs.takeWhile isLiteralChar) with
          | some x => rfl
          | none => rfl
        · split
          · rfl
          · rfl

end Lines

namespace Lexer

/-- What is left of the current line is at most one line, and so is each line that is not yet read. -/
structure InLines (l : Lexer) : Prop where
  rest : OneLine l.rest
  pending : ∀ line ∈ l.pending, ∀ cs, Text.decode? line = some cs → OneLine cs

/-- A call goes on in the current line, or in the first later line that has anything, or there is
nothing more. -/
inductive Advances (l : Lexer) : Item → Lexer → Prop
  | here {item : Item} {rest : List Char} : item ≠ .ok .finish →
    tokenize 0 (l.rest.map some) = item :: tokenize 0 (rest.map some) →
    Advances l item ⟨rest, l.pending⟩
  | later {item : Item} {rest : List Char} {blank more : List (List UInt8)} {line : List UInt8} :
    item ≠ .ok .finish → l.pending = blank ++ line :: more →
    tokenize 0 (l.rest.map some) = [] → blank.flatMap lineItems = [] →
    lineItems line = item :: tokenize 0 (rest.map some) → Advances l item ⟨rest, more⟩
  | finish : tokenize 0 (l.rest.map some) = [] → l.pending.flatMap lineItems = [] →
    Advances l (.ok .finish) {}

/-- A source is taken apart into lines at its newlines. -/
theorem inLines_ofBytes (source : List UInt8) : (ofBytes source).InLines where
  rest := .nil
  pending line h cs hd := by
    have bytes := Text.decode?_eq_some.1 hd
    rcases Text.of_mem_lines h with hn | ⟨body, hn, rfl⟩
    · exact oneLine_of_not_mem (mt Text.newline_mem_encode.2 (bytes ▸ hn))
    · rw [Text.decode?_ended hn, Option.map_eq_some_iff] at hd
      obtain ⟨ds, hd, rfl⟩ := hd
      rw [Text.decode?_eq_some.1 hd] at hn
      exact oneLine_ended (mt Text.newline_mem_encode.2 hn)

variable {l : Lexer}

/-- The front of the current line, if it has anything. -/
theorem advances_scan {rest : List Char} {pending : List (List UInt8)}
    (h : InLines ⟨rest, pending⟩) :
    (∀ {t after}, scan rest = .token t after →
      Advances ⟨rest, pending⟩ (.ok t) ⟨after, pending⟩ ∧ InLines ⟨after, pending⟩) ∧
    (∀ {offset}, scan rest = .badNumber offset →
      Advances ⟨rest, pending⟩ (.error (.badNumber offset)) ⟨[], pending⟩ ∧ InLines ⟨[], pending⟩) ∧
    (scan rest = .blank → tokenize 0 (rest.map some) = []) := by
  have items := h.rest.tokenize_eq 0
  rw [scanFrom_zero] at items
  refine ⟨fun {t after} hs => ?_, fun {offset} hs => ?_, fun hs => ?_⟩
  · rw [hs] at items
    refine ⟨.here ?_ items, h.rest.of_scan hs, h.pending⟩
    exact fun he => ne_finish_of_scan hs (Except.ok.inj he)
  · rw [hs] at items
    refine ⟨.here (by simp) ?_, .nil, h.pending⟩
    rw [items, List.map_nil, tokenize, Scan.items]
  · rw [items, hs, Scan.items]

/-- What a call hands out, with the reader behind it. -/
theorem advances_nextFrom (pending : List (List UInt8)) :
    ∀ {rest}, InLines ⟨rest, pending⟩ →
      Advances ⟨rest, pending⟩ (nextFrom rest pending).1 (nextFrom rest pending).2 ∧
        InLines (nextFrom rest pending).2 := by
  induction pending with
  | nil =>
    intro rest h
    obtain ⟨token, badNumber, blank⟩ := advances_scan h
    unfold nextFrom
    split
    · next hs => exact token hs
    · next hs => exact badNumber hs
    · next hs => exact ⟨.finish (blank hs) rfl, .nil, h.pending⟩
  | cons line more ih =>
    intro rest h
    obtain ⟨token, badNumber, blank⟩ := advances_scan h
    obtain ⟨hline, hmore⟩ := List.forall_mem_cons.1 h.pending
    unfold nextFrom
    split
    · next hs => exact token hs
    · next hs => exact badNumber hs
    · next hs =>
      cases hd : Text.decode? line with
      | none =>
        refine ⟨.later (by simp) (List.nil_append _).symm (blank hs) rfl ?_, .nil, hmore⟩
        rw [lineItems_of_none hd, List.map_nil, tokenize]
      | some cs =>
        obtain ⟨advances, inLines⟩ := @ih cs ⟨hline cs hd, hmore⟩
        refine ⟨?_, inLines⟩
        have first := lineItems_of_some hd
        dsimp only
        generalize (nextFrom cs more).1 = item, (nextFrom cs more).2 = after at advances ⊢
        -- the item comes from this line, or from a later one with nothing in between
        cases advances with
        | here hi items =>
          exact .later hi (List.nil_append _).symm (blank hs) rfl (first.trans items)
        | @later _ _ gap after next hi hp hr hb items =>
          have further : line :: more = (line :: gap) ++ next :: after :=
            congrArg (line :: ·) hp
          refine .later hi further (blank hs) ?_ items
          rw [List.flatMap_cons, first, hr, hb, List.nil_append]
        | finish hr hp =>
          refine .finish (blank hs) ?_
          rw [List.flatMap_cons, first, hr, hp, List.nil_append]

/-- A call advances in the line or to a later one, and the reader keeps holding lines. -/
theorem advances_next (h : l.InLines) : Advances l l.next.1 l.next.2 ∧ l.next.2.InLines :=
  advances_nextFrom l.pending h

/-- What is left is what is left of the current line, and then the lines that are not yet read. -/
theorem items_eq (h : l.InLines) :
    l.items = tokenize 0 (l.rest.map some) ++ l.pending.flatMap lineItems := by
  induction hn : l.size using Nat.strongRecOn generalizing l with
  | _ n ih =>
    subst hn
    obtain ⟨advances, inLines⟩ := advances_next h
    obtain ⟨item, after, hnext⟩ : ∃ item after, l.next = (item, after) := ⟨_, _, rfl⟩
    rw [hnext] at advances inLines
    have rest : item ≠ .ok .finish → l.items = item :: after.items := items_of_next hnext
    have ih : item ≠ .ok .finish → after.items =
        tokenize 0 (after.rest.map some) ++ after.pending.flatMap lineItems :=
      fun hi => ih _ (size_of_next hnext hi) inLines rfl
    cases advances with
    | here hi items => rw [rest hi, ih hi, items, List.cons_append]
    | later hi hp hr hb items =>
      rw [rest hi, ih hi, hr, hp, List.flatMap_append, List.flatMap_cons, hb, items]
      rfl
    | finish hr hp => rw [items_of_finish hnext, hr, hp, List.append_nil]

/-- The reader after so many calls. -/
def after : Nat → Lexer → Lexer
  | 0, l => l
  | n + 1, l => after n l.next.2

/-- What the call after so many calls hands out. -/
def answer (l : Lexer) (n : Nat) : Item :=
  (l.after n).next.1

/-- The calls hand out what is left, and then the end for ever. -/
theorem answer_eq (n : Nat) : ∀ l : Lexer, l.answer n = l.items.getD n (.ok .finish) := by
  induction n with
  | zero =>
    intro l
    obtain ⟨item, after, hnext⟩ : ∃ item after, l.next = (item, after) := ⟨_, _, rfl⟩
    have first : l.answer 0 = item := congrArg Prod.fst hnext
    by_cases hi : item = .ok .finish
    · subst hi
      rw [first, items_of_finish hnext]
      rfl
    · rw [first, items_of_next hnext hi]
      rfl
  | succ n ih =>
    intro l
    obtain ⟨item, after, hnext⟩ : ∃ item after, l.next = (item, after) := ⟨_, _, rfl⟩
    have next : l.answer (n + 1) = after.answer n := by
      rw [answer, Lexer.after, hnext, answer]
    by_cases hi : item = .ok .finish
    · subst hi
      rw [next, ih, eq_of_next_finish hnext, items_empty, items_of_finish hnext]
      rfl
    · rw [next, ih, items_of_next hnext hi]
      rfl

/-- The first answer, and then those of the reader that it leaves. -/
theorem answers_succ {item : Item} {after : Lexer} (h : l.next = (item, after)) (n : Nat) :
    (List.range (n + 1)).map l.answer = item :: (List.range n).map after.answer := by
  have later : l.answer ∘ Nat.succ = after.answer := by
    funext k
    rw [Function.comp_apply, answer, Lexer.after, h, answer]
  rw [List.range_succ_eq_map, List.map_cons, List.map_map, later]
  exact congrArg (· :: _) (congrArg Prod.fst h)

/-- A call that reads a line comes after those that have handed out all of the lines before it. -/
theorem reads (n : Nat) : ∀ {l : Lexer}, l.InLines →
    (l.after (n + 1)).pending = (l.after n).pending ∨
      ∃ earlier line, l.pending = earlier ++ line :: (l.after (n + 1)).pending ∧
        (List.range n).map l.answer =
          tokenize 0 (l.rest.map some) ++ earlier.flatMap lineItems := by
  induction n with
  | zero =>
    intro l h
    obtain ⟨advances, -⟩ := advances_next h
    change l.next.2.pending = l.pending ∨ ∃ earlier line, l.pending =
      earlier ++ line :: l.next.2.pending ∧ [] = _
    generalize l.next.1 = item, l.next.2 = after at advances ⊢
    cases advances with
    | here => exact .inl rfl
    | later _ hp hr hb _ => exact .inr ⟨_, _, hp, by rw [hr, hb, List.append_nil]⟩
    | finish hr hp =>
      -- the lines that are read to the end are blank, and the last of them comes after the others
      rcases List.eq_nil_or_concat' l.pending with none | ⟨earlier, line, some⟩
      · exact .inl none.symm
      · rw [some, List.flatMap_append, List.append_eq_nil_iff] at hp
        exact .inr ⟨earlier, line, some, by rw [hr, hp.1, List.append_nil]⟩
  | succ n ih =>
    intro l h
    obtain ⟨advances, inLines⟩ := advances_next h
    obtain ⟨item, after, hnext⟩ : ∃ item after, l.next = (item, after) := ⟨_, _, rfl⟩
    rw [answers_succ hnext]
    simp only [Lexer.after, hnext] at advances inLines ih ⊢
    rcases ih inLines with same | ⟨earlier, line, hpending, answers⟩
    · exact .inl same
    refine .inr ?_
    rw [answers]
    cases advances with
    | here _ items => exact ⟨earlier, line, hpending, by rw [items, List.cons_append]⟩
    | @later _ _ blank more first _ hp hr hb items =>
      refine ⟨blank ++ first :: earlier, line, ?_, ?_⟩
      · rw [hp, List.append_assoc, List.cons_append]
        exact congrArg (blank ++ first :: ·) hpending
      · rw [hr, List.flatMap_append, List.flatMap_cons, hb, items]
        rfl
    -- behind the end no line is left that could be read
    | finish => simp at hpending

/-- **The token reader reads in one pass.** The answers to its calls are the items of the text, cut
in one pass, and then the end of the source for ever; of a text that is UTF-8 this is its characters.
A newline parts the items before it from those after it. A line is read by a call only when the calls
before it have handed out everything that the lines before it hold. -/
theorem onePass (source : List UInt8) :
    (∀ n, (ofBytes source).answer n = (tokenize 0 (signs source)).getD n (.ok .finish)) ∧
      (∀ text, signs (Text.encode text) = text.map some) ∧
      (∀ more, tokenize 0 (signs (source ++ newline :: more)) =
        tokenize 0 (signs source) ++ tokenize 0 (signs more)) ∧
      ∀ n, ((ofBytes source).after (n + 1)).pending = ((ofBytes source).after n).pending ∨
        ∃ earlier line, Text.lines source =
            earlier ++ line :: ((ofBytes source).after (n + 1)).pending ∧
          (List.range n).map (ofBytes source).answer = tokenize 0 (signs earlier.flatten) := by
  have inLines := inLines_ofBytes source
  refine ⟨fun n => ?_, Text.signs_encode, fun more => ?_, fun n => ?_⟩
  · rw [answer_eq, items_eq inLines, tokenize_signs]
    simp [ofBytes, tokenize]
  · rw [tokenize_signs, tokenize_signs, tokenize_signs, lineItems_append]
  · rcases reads n inLines with same | ⟨earlier, line, hp, answers⟩
    · exact .inl same
    · refine .inr ⟨earlier, line, hp, ?_⟩
      rw [answers, tokenize_signs, Text.lines_of_prefix hp]
      simp [ofBytes, tokenize]

end Lexer

end Kaleidoscope
