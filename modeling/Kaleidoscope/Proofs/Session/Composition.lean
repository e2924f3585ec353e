import Kaleidoscope.Proofs.Reading.Continuing
import Kaleidoscope.Proofs.Reading.OnePass
import Kaleidoscope.Proofs.Session.Progress
import Kaleidoscope.Proofs.Session.Store

/-!
# Sources compose

A session may go through two sources one after the other, or through one that is put together from
them. Where the first ends with a separator this makes no difference.

A newline parts the items of the whole into those of the two sources (`Lexer.items_append`), and a
step does not depend on what there is behind the tokens that it uses (`Session.Longer.step`). A form
that is read at the end of its source may look at the end, but then it is the last step, and no
separator follows. The separator itself is used up without a look behind it, so that nothing of the
first source is left in the reader when it moves on.

Main statement: `Session.finishes_append`.
-/

namespace Kaleidoscope

open Text (newline)

/-- A newline parts the items. -/
theorem Lexer.items_append (a b : List UInt8) :
    (Lexer.ofBytes (a ++ newline :: b)).items =
      (Lexer.ofBytes a).items ++ (Lexer.ofBytes b).items := by
  rw [items_eq (inLines_ofBytes _), items_eq (inLines_ofBytes a), items_eq (inLines_ofBytes b)]
  simpa [Lexer.ofBytes, tokenize] using lineItems_append a b

/-- What a step shows: its result, and the log and the precedences after it. -/
structure Shown where
  result : Except Fault Outcome
  log : String
  precedences : Precedences

/-- What a step comes to; `none` at the end of the source. -/
def came : EStateM.Result Fault Session (Option Outcome) → Option (Except Fault Outcome)
  | .ok outcome _ => outcome.map .ok
  | .error e _ => some (.error e)

instance (result : Option (Except Fault Outcome)) : Decidable (result = some (.ok .skipped)) :=
  match result with
  | some (.ok .skipped) => isTrue rfl
  | some (.ok (.definition _)) | some (.ok (.declaration _)) | some (.ok (.value _)) =>
    isFalse (by simp)
  | some (.error _) | none => isFalse (by simp)

namespace Session

/-- What the next step comes to; `none` at the end of the source. -/
def result? (fuel : Nat) (s : Session) : Option (Except Fault Outcome) :=
  came (Act.step fuel s)

/-- The session after the next step. -/
def next (fuel : Nat) (s : Session) : Session :=
  left (Act.step fuel s)

/-- What the next step shows when it comes to the result. -/
def view (fuel : Nat) (s : Session) (result : Except Fault Outcome) : Shown :=
  ⟨result, (s.next fuel).log, (s.next fuel).reader.precedences⟩

/-- Step by step the session comes to the end of its source, with what the steps show. -/
inductive Finishes (fuel : Nat) : Session → List Shown → Session → Prop
  | finish {s : Session} : s.result? fuel = none → Finishes fuel s [] (s.next fuel)
  | step {s t : Session} {result : Except Fault Outcome} {views : List Shown} :
    s.result? fuel = some result → Finishes fuel (s.next fuel) views t →
    Finishes fuel s (s.view fuel result :: views) t

/-- The sessions are the same, but the second has more to read. -/
structure Longer (more : List Item) (s s' : Session) : Prop where
  reader : s.reader.Longer more s'.reader
  same : s' = { s with reader := s'.reader }

section Steps

variable {fuel : Nat} {more : List Item} {s s' t : Session} {result : Except Fault Outcome}
  {views : List Shown}

theorem came_moved (r : Reader) (result : EStateM.Result Fault Session (Option Outcome)) :
    came (moved r result) = came result := by
  cases result <;> rfl

/-- At the end of its source the session has finished. -/
theorem result?_of_over (h : s.reader.Over) (fuel : Nat) : s.result? fuel = none := by
  obtain ⟨r, hp⟩ := Read.peek_of_over h
  rw [result?, step_of_form_ok (Read.form_finish.2 hp)]
  rfl

/-- A form that is handled comes to something, be it a fault. -/
theorem came_handle_ne_none (fuel : Nat) (f : Form) (s : Session) :
    came (Act.handle fuel (some f) s) ≠ none := by
  cases h : Act.form fuel f s with
  | ok o t => simp [handle_of_ok h, came]
  | error e t => simp [handle_of_error h, came]

/-- The last step leaves everything as it was, with the end of the source in view. -/
theorem finish_of_result? (h : s.result? fuel = none) :
    ∃ r, Read.peek s.reader = .ok .finish r ∧ s.next fuel = { s with reader := r } := by
  cases hf : Read.form s.reader with
  | error e r =>
    rw [result?, step_of_form_error hf] at h
    cases h
  | ok x r =>
    cases x with
    | none =>
      refine ⟨r, Read.form_finish.1 hf, ?_⟩
      rw [next, step_of_form_ok hf]
      rfl
    | some f =>
      rw [result?, step_of_form_ok hf] at h
      exact absurd h (came_handle_ne_none fuel f _)

/-- A step that skips a separator does nothing else. -/
theorem skip_of_result? (h : s.result? fuel = some (.ok .skipped)) :
    ∃ r, Read.form s.reader = .ok (some .separator) r ∧ s.next fuel = { s with reader := r } := by
  cases hf : Read.form s.reader with
  | error e r =>
    rw [result?, step_of_form_error hf] at h
    cases h
  | ok x r =>
    rw [result?, step_of_form_ok hf] at h
    cases x with
    | none => cases h
    | some f =>
      cases hh : Act.form fuel f { s with reader := r } with
      | error e t =>
        rw [handle_of_error hh] at h
        cases h
      | ok o t =>
        rw [handle_of_ok hh] at h
        cases h
        cases comesTo_of_form hh
        refine ⟨r, rfl, ?_⟩
        rw [next, step_of_form_ok hf]
        rfl

/-- A step is the same step when there is more behind it, unless the session comes to the end of its
source. -/
theorem Longer.step (h : s.Longer more s') (fuel : Nat) :
    (s'.result? fuel = s.result? fuel ∧ (s.next fuel).Longer more (s'.next fuel)) ∨
      more ≠ [] ∧ (s.next fuel).reader.Over := by
  have read := Read.ignores_form.alongside h.reader
  generalize hf : Read.form s.reader = result, hf' : Read.form s'.reader = result' at read
  cases read with
  | @ok x r r' longer =>
    have handled : Act.step fuel s' = moved r' (Act.step fuel s) := by
      rw [step_of_form_ok hf', step_of_form_ok hf, h.same]
      exact readsNothing_handle fuel x r' { s with reader := r }
    refine .inl ⟨?_, ?_, ?_⟩
    · rw [result?, result?, handled, came_moved]
    · rw [next, next, reader_step, reader_step, hf, hf']
      exact longer
    · rw [next, next, handled, left_moved]
  | @error e r r' longer =>
    refine .inl ⟨?_, ?_, ?_⟩
    · rw [result?, result?, step_of_form_error hf', step_of_form_error hf]
      rfl
    · rw [next, next, step_of_form_error hf', step_of_form_error hf]
      exact longer
    · rw [next, next, step_of_form_error hf', step_of_form_error hf, h.same]
      rfl
  | ended hm ends =>
    refine .inr ⟨hm, ?_⟩
    rw [next, reader_step, hf]
    exact ends

/-- A session that has more to read shows the same. -/
theorem Longer.view (h : (s.next fuel).Longer more (s'.next fuel)) :
    s'.view fuel result = s.view fuel result := by
  rw [Session.view, Session.view, h.reader.precedences, h.same]

/-- A separator is skipped without a look at what is behind it. -/
theorem Longer.skip (h : s.Longer more s') (hs : s.result? fuel = some (.ok .skipped)) :
    s'.result? fuel = some (.ok .skipped) ∧ (s.next fuel).Longer more (s'.next fuel) ∧
      (s.next fuel).reader.looked = none := by
  obtain ⟨r, hf, hn⟩ := skip_of_result? hs
  obtain ⟨looked, r', hf', longer⟩ := Read.form_separator hf h.reader
  have handled : Act.step fuel s' = .ok (some .skipped) { s' with reader := r' } := by
    rw [step_of_form_ok hf']
    rfl
  have hn' : s'.next fuel = { s' with reader := r' } := by rw [next, handled]; rfl
  refine ⟨by rw [result?, handled]; rfl, ⟨?_, ?_⟩, ?_⟩
  · rw [hn, hn']
    exact longer
  · rw [hn, hn', h.same]
  · rw [hn]
    exact looked

end Steps

section Runs

variable {fuel : Nat} {more : List Item} {s s' t : Session} {views : List Shown}

/-- Every session comes to the end of its source. The induction is on what is left. -/
theorem exists_finishes (fuel : Nat) (s : Session) : ∃ views t, s.Finishes fuel views t := by
  induction hn : s.reader.items.length using Nat.strongRecOn generalizing s with
  | ind n ih =>
    cases hr : s.result? fuel with
    | none => exact ⟨[], _, .finish hr⟩
    | some result =>
      obtain ⟨run, takes⟩ := takes_step fuel s
      have more := takes.ne_nil fun t ht => by
        rw [result?, ht] at hr
        cases hr
      have less : (s.next fuel).reader.items.length < n := by
        have := List.length_pos_iff.2 more
        rw [← hn, takes.items, List.length_append]
        exact Nat.lt_add_of_pos_left this
      obtain ⟨views, t, finishes⟩ := ih _ less (s.next fuel) rfl
      exact ⟨_, t, .step hr finishes⟩

/-- What a session shows depends on its reader only through what that has left. -/
theorem Finishes.longer (h : s.Finishes fuel views t) :
    ∀ {s'}, s.Longer [] s' → s'.Finishes fuel views t := by
  induction h with
  | @finish s hr =>
    intro s' longer
    rcases longer.step fuel with ⟨result, after⟩ | ⟨hm, -⟩
    · obtain ⟨r, hp, hn⟩ := finish_of_result? hr
      have same : s'.next fuel = s.next fuel := by
        have reader := after.reader.finish (by rw [hn]; exact (Read.peek_ok hp).1)
        rw [after.same, reader]
      exact same ▸ .finish (result.trans hr)
    · exact absurd rfl hm
  | @step s t result views hr _ ih =>
    intro s' longer
    rcases longer.step fuel with ⟨result', after⟩ | ⟨hm, -⟩
    · rw [← after.view]
      exact .step (result'.trans hr) (ih after)
    · exact absurd rfl hm

/-- Where a session has come to the end of its source, it goes on with another one as a session does
that has that source behind it. -/
theorem Longer.setSource {b : List UInt8} (h : s.Longer (Lexer.ofBytes b).items s')
    (hr : s.result? fuel = none) (looked : s.reader.looked = none) :
    ((s.next fuel).setSource b).Longer [] s' := by
  obtain ⟨r, hp, hn⟩ := finish_of_result? hr
  have nothing : s.reader.lexer.items = [] := by
    have items : s.reader.items = [] := by
      rw [← Read.items_of_peek hp, Read.items_of_looked_finish (Read.peek_ok hp).1]
    simpa only [Reader.items, looked] using items
  rw [hn]
  refine ⟨⟨h.reader.looked.trans looked, ?_, ?_, fun hf => by cases hf⟩, h.same⟩
  · exact h.reader.precedences.trans (Read.peek_precedences hp).symm
  · rw [h.reader.items, nothing, List.append_nil]
    rfl

/-- A session that shows anything is not at its end. -/
theorem Finishes.result?_ne_none (h : s.Finishes fuel views t) (hv : views ≠ []) :
    s.result? fuel ≠ none := by
  cases h with
  | finish => exact absurd rfl hv
  | step hr => simp [hr]

/-- From the steps of a session to those of one that has another source behind its own. The induction
is on the steps: after each but the last the first session has not come to its end. -/
theorem Finishes.append {b : List UInt8} {shown : Shown} (hs : shown.result = .ok .skipped)
    (views : List Shown) : ∀ {s s' : Session}, s.Finishes fuel (views ++ [shown]) t →
      s.Longer (Lexer.ofBytes b).items s' → ∃ later u, (t.setSource b).Finishes fuel later u ∧
        s'.Finishes fuel (views ++ shown :: later) u := by
  induction views with
  | nil =>
    intro s s' finishes longer
    rw [List.nil_append] at finishes
    cases finishes with
    | @step _ _ result _ hr rest =>
      cases rest with
      | finish hn =>
        obtain rfl : result = .ok .skipped := hs
        obtain ⟨result', after, looked⟩ := longer.skip hr
        obtain ⟨later, u, finishes⟩ := exists_finishes fuel (((s.next fuel).next fuel).setSource b)
        refine ⟨later, u, finishes, ?_⟩
        rw [← after.view]
        exact .step result' (finishes.longer (after.setSource hn looked))
  | cons first views ih =>
    intro s s' finishes longer
    rw [List.cons_append] at finishes
    cases finishes with
    | step hr rest =>
      have goesOn := rest.result?_ne_none (by simp)
      rcases longer.step fuel with ⟨result, after⟩ | ⟨-, ends⟩
      · obtain ⟨later, u, finishes, whole⟩ := ih rest after
        refine ⟨later, u, finishes, ?_⟩
        rw [← after.view]
        exact .step (result.trans hr) whole
      · exact absurd (result?_of_over ends fuel) goesOn

/-- **Sources compose.** If the last step over a source skips a separator, then a session goes through
this source, and after it through another one, as it goes through both with a newline between them:
every step has the same result and leaves the same log and the same precedences, and the session at
the end is the same. -/
theorem finishes_append (fuel : Nat) (s : Session) (a b : List UInt8) {views : List Shown}
    {shown : Shown} {t : Session} (h : (s.setSource a).Finishes fuel (views ++ [shown]) t)
    (hs : shown.result = .ok .skipped) :
    ∃ later u, (t.setSource b).Finishes fuel later u ∧
      (s.setSource (a ++ newline :: b)).Finishes fuel (views ++ shown :: later) u :=
  Finishes.append hs views h ⟨⟨rfl, rfl, Lexer.items_append a b, fun hf => by cases hf⟩, rfl⟩

/-- An operator, and a separator behind its definition. -/
def declaring : List UInt8 :=
  "def binary| 5 (x y) x ;".toUTF8.data.toList

/-- An expression that needs the operator. -/
def applying : List UInt8 :=
  "1|2".toUTF8.data.toList

/-- An operator is declared at the end of one source and applied in the next. -/
theorem finishes_append_operator : ∃ views shown t,
    ((Session.ofBytes []).setSource declaring).Finishes 1 (views ++ [shown]) t ∧
      shown.result = .ok .skipped ∧ views.length = 1 ∧
      ∃ later u, (t.setSource applying).Finishes 1 later u ∧
        ((Session.ofBytes []).setSource (declaring ++ newline :: applying)).Finishes 1
          (views ++ shown :: later) u := by
  let start := (Session.ofBytes []).setSource declaring
  have first : (start.result? 1).isSome := by decide +kernel
  obtain ⟨result, hr⟩ := Option.isSome_iff_exists.1 first
  have skipped : (start.next 1).result? 1 = some (.ok .skipped) := by decide +kernel
  have last : (((start.next 1).next 1).result? 1).isNone := by decide +kernel
  have finishes : start.Finishes 1 ([start.view 1 result] ++ [(start.next 1).view 1 (.ok .skipped)])
      (((start.next 1).next 1).next 1) :=
    .step hr (.step skipped (.finish (Option.isNone_iff_eq_none.1 last)))
  exact ⟨_, _, _, finishes, rfl, rfl, finishes_append 1 _ declaring applying finishes rfl⟩

end Runs

end Session

end Kaleidoscope
