import Kaleidoscope.Proofs.Reading.Recovery
import Kaleidoscope.Proofs.Session.Handling

/-!
# The progress of a session

A session goes through its source from front to back. `Takes` says what one step takes from the
front of what is left: of a form that is read, whatever comes of it, the tokens that it is made of
(`Makes`), and of a form that cannot be read what was used up of it, what was reported, and the
token in view where reading stopped (`Read.Halts`). Only the end of the source takes nothing, and
ends the session.

`Loops` is the loop without a bound on the number of steps. `runAll_loops` puts the two together:
the steps divide what is left into stretches, none of them empty, so that there are no more steps
than tokens and lexical faults, and the bound of the loop is never reached.
-/

namespace Kaleidoscope

/-- What a step of the session takes from the front of what is left, and what comes of it. -/
inductive Session.Takes (fuel : Nat) (s : Session) :
    List Item → EStateM.Result Fault Session (Option Outcome) → Prop
  | finish {s' : Session} :
    s.reader.items = [] → s'.reader.items = [] → Takes fuel s [] (.ok none s')
  /-- The form was read: nothing but its own tokens is taken. -/
  | handled {ts : List Token} {f : Form} {o : Outcome} {s₁ s' : Session} :
    ts ≠ [] → Makes s.reader.precedences ts f →
    s.reader.items = ts.map .ok ++ s'.reader.items →
    Act.read s = .ok (some f) s₁ → Act.form fuel f s₁ = .ok o s' →
    Takes fuel s (ts.map .ok) (.ok (some o) s')
  /-- The form was read, and could not be lowered or run. -/
  | refused {ts : List Token} {f : Form} {e : Fault} {s₁ s' : Session} :
    ts ≠ [] → Makes s.reader.precedences ts f →
    s.reader.items = ts.map .ok ++ s'.reader.items →
    Act.read s = .ok (some f) s₁ → Act.form fuel f s₁ = .error e s' →
    Takes fuel s (ts.map .ok) (.error e s')
  /-- Reading the form stopped at `u`. The token in view there is dropped and nothing else, and the
  next step begins just behind it. -/
  | unread {used : List Token} {e : Fault} {u : Reader} {s' : Session} :
    Read.Halts s.reader used e u → Act.read s = .error e s' →
    s'.reader = { u with looked := none } → used.map .ok ++ (e.lost ++ u.inView) ≠ [] →
    s.reader.items = used.map .ok ++ (e.lost ++ u.inView) ++ s'.reader.items →
    Takes fuel s (used.map .ok ++ (e.lost ++ u.inView)) (.error e s')

/-- The session before a step; one with a prompt shows it. -/
def Session.prompted (prompt : Bool) (s : Session) : Session :=
  if prompt then s.write "ready> " else s

/-- The session that shows a fault. -/
def Session.faulted (e : Fault) (s : Session) : Session :=
  s.write s!"Error: {e.message}\n"

/-- The steps of a session up to the end of its source, with the stretches that they take and the
session at the end. -/
inductive Session.Loops (fuel : Nat) (prompt : Bool) :
    Session → List (List Item) → Session → Prop
  | finish {s s' : Session} :
    Act.step fuel (s.prompted prompt) = .ok none s' →
    (s.prompted prompt).Takes fuel [] (.ok none s') → Loops fuel prompt s [] s'
  | form {s s' t : Session} {o : Outcome} {run : List Item} {runs : List (List Item)} :
    Act.step fuel (s.prompted prompt) = .ok (some o) s' →
    (s.prompted prompt).Takes fuel run (.ok (some o) s') → Loops fuel prompt s' runs t →
    Loops fuel prompt s (run :: runs) t
  | fault {s s' t : Session} {e : Fault} {run : List Item} {runs : List (List Item)} :
    Act.step fuel (s.prompted prompt) = .error e s' →
    (s.prompted prompt).Takes fuel run (.error e s') →
    Loops fuel prompt (s'.faulted e) runs t → Loops fuel prompt s (run :: runs) t

section Steps

variable {fuel : Nat} {s s' : Session} {e : Fault} {run : List Item}

/-- Every step takes what it uses up from the front of what is left. -/
theorem takes_step (fuel : Nat) (s : Session) : ∃ run, s.Takes fuel run (Act.step fuel s) := by
  cases hf : Read.form s.reader with
  | error e r =>
    obtain ⟨used, u, halts, rfl, hne⟩ := Read.form_error hf
    rw [step_of_form_error hf]
    exact ⟨_, .unread halts (read_of_form_error hf) rfl hne halts.items_eq⟩
  | ok x r =>
    rw [step_of_form_ok hf]
    rcases Read.form_ok hf with ⟨form, ts, rfl, hne, makes, hi⟩ | ⟨rfl, hs, hr⟩
    · have same := (readsNothing_form fuel form).left { s with reader := r }
      cases hh : Act.form fuel form { s with reader := r } with
      | ok o t =>
        rw [hh] at same
        replace same : t.reader = r := same
        rw [handle_of_ok hh]
        exact ⟨_, .handled hne makes (by rw [same, hi]) (read_of_form_ok hf) hh⟩
      | error e t =>
        rw [hh] at same
        replace same : t.reader = r := same
        rw [handle_of_error hh]
        exact ⟨_, .refused hne makes (by rw [same, hi]) (read_of_form_ok hf) hh⟩
    · exact ⟨[], .finish hs hr⟩

variable {result : EStateM.Result Fault Session (Option Outcome)}

/-- What is not taken is left. -/
theorem Session.Takes.items (h : s.Takes fuel run result) :
    s.reader.items = run ++ (left result).reader.items := by
  cases h with
  | finish hs hs' => rw [hs, left, hs', List.append_nil]
  | handled _ _ hi => exact hi
  | refused _ _ hi => exact hi
  | unread _ _ _ _ hi => exact hi

/-- A step after which the session goes on takes something. -/
theorem Session.Takes.ne_nil (h : s.Takes fuel run result) (hr : ∀ t, result ≠ .ok none t) :
    run ≠ [] := by
  cases h with
  | finish => exact absurd rfl (hr _)
  | handled hne => simpa using hne
  | refused hne => simpa using hne
  | unread _ _ _ hne => exact hne

end Steps

section Loop

variable {fuel : Nat} {prompt : Bool} {s t : Session} {runs : List (List Item)}

/-- A prompt reads nothing. -/
theorem Session.items_prompted (prompt : Bool) (s : Session) :
    (s.prompted prompt).reader.items = s.reader.items := by
  unfold Session.prompted
  split <;> rfl

theorem length_itemsWithin (n : Nat) (l : Lexer) : (Lexer.itemsWithin n l).length ≤ n := by
  induction n generalizing l with
  | zero => exact Nat.le_refl _
  | succ n ih =>
    unfold Lexer.itemsWithin
    split
    · exact Nat.zero_le _
    · exact Nat.succ_le_succ (ih _)

/-- The size of a reader is a bound on what it has left. -/
theorem length_items_le (r : Reader) : r.items.length ≤ r.size := by
  have lexer : r.lexer.items.length ≤ r.lexer.size := length_itemsWithin _ _
  unfold Reader.items Reader.size
  cases r.looked with
  | none => exact lexer
  | some t => cases t <;> simp <;> omega

/-- The steps divide what is left. -/
structure Session.Divided (s : Session) (runs : List (List Item)) : Prop where
  items : runs.flatten = s.reader.items
  nonempty : ∀ run ∈ runs, run ≠ []
  bounded : runs.length ≤ s.reader.items.length

/-- A step takes the first stretch and leaves the others. -/
theorem Session.Divided.cons {s' : Session} {run : List Item} (h : s'.Divided runs)
    (hi : s.reader.items = run ++ s'.reader.items) (hne : run ≠ []) : s.Divided (run :: runs) where
  items := by rw [List.flatten_cons, h.items, hi]
  nonempty := List.forall_mem_cons.2 ⟨hne, h.nonempty⟩
  bounded := by
    have := List.length_pos_iff.2 hne
    have := h.bounded
    simp only [hi, List.length_append, List.length_cons]
    omega

section Turns

variable {n : Nat} {o : Outcome} {e : Fault}

theorem runWithin_of_finish (h : Act.step fuel (s.prompted prompt) = .ok none t) :
    s.runWithin fuel prompt (n + 1) = t := by
  unfold Session.prompted at h
  simp only [Session.runWithin, h]

/-- A step with an outcome is followed by the next step. -/
theorem runWithin_of_form (h : Act.step fuel (s.prompted prompt) = .ok (some o) t) :
    s.runWithin fuel prompt (n + 1) = t.runWithin fuel prompt n := by
  unfold Session.prompted at h
  simp only [Session.runWithin, h]

/-- A step with a fault is followed by the next step too, once the fault is shown. -/
theorem runWithin_of_fault (h : Act.step fuel (s.prompted prompt) = .error e t) :
    s.runWithin fuel prompt (n + 1) = (t.faulted e).runWithin fuel prompt n := by
  unfold Session.prompted at h
  simp only [Session.runWithin, h, Session.faulted]

end Turns

/-- With a bound that is greater than what is left, the loop comes to the end of the source. The
induction is on the bound: each step but the last takes something. -/
theorem runWithin_loops (fuel : Nat) (prompt : Bool) (n : Nat) :
    ∀ s : Session, s.reader.items.length < n →
      ∃ runs, s.Loops fuel prompt runs (s.runWithin fuel prompt n) ∧ s.Divided runs := by
  induction n with
  | zero => exact fun s h => absurd h (Nat.not_lt_zero _)
  | succ n ih =>
    intro s hs
    obtain ⟨run, takes⟩ := takes_step fuel (s.prompted prompt)
    have hi : s.reader.items = run ++ (left (Act.step fuel (s.prompted prompt))).reader.items := by
      rw [← s.items_prompted prompt, takes.items]
    -- what a step leaves is less than what there was
    have below : ∀ {t : Session}, s.reader.items = run ++ t.reader.items → run ≠ [] →
        t.reader.items.length < n := fun hi hne => by
      have := List.length_pos_iff.2 hne
      rw [hi, List.length_append] at hs
      omega
    cases hr : Act.step fuel (s.prompted prompt) with
    | ok o t =>
      rw [hr] at takes hi
      cases o with
      | none =>
        rw [runWithin_of_finish hr]
        cases takes with
        | finish hnone hnone' =>
          refine ⟨[], .finish hr (.finish hnone hnone'), ?_, by simp, Nat.zero_le _⟩
          rw [← s.items_prompted prompt, hnone]
          rfl
      | some o =>
        rw [runWithin_of_form hr]
        have hne := takes.ne_nil fun t h => by cases h
        obtain ⟨runs, loops, divided⟩ := ih t (below hi hne)
        exact ⟨run :: runs, .form hr takes loops, divided.cons hi hne⟩
    | error e t =>
      rw [hr] at takes hi
      rw [runWithin_of_fault hr]
      have hne := takes.ne_nil fun t h => by cases h
      obtain ⟨runs, loops, divided⟩ := ih (t.faulted e) (below hi hne)
      exact ⟨run :: runs, .fault hr takes loops, divided.cons hi hne⟩

/-- **The loop goes through the whole source.** Whatever the forms come to, every step takes a
stretch from the front of what is left, the stretches make up all of it, and there are no more steps
than tokens and lexical faults. A form that is read takes the tokens that it is made of. After a
form that cannot be read the next step begins just behind the token at which reading stopped, and of
what is taken this token alone is dropped unused. -/
theorem runAll_loops (fuel : Nat) (prompt : Bool) (s : Session) :
    ∃ runs, s.Loops fuel prompt runs (s.runAll fuel prompt) ∧ s.Divided runs :=
  runWithin_loops fuel prompt _ s (Nat.lt_succ_of_le (length_items_le s.reader))

end Loop

end Kaleidoscope
