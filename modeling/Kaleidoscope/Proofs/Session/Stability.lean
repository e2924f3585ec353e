import Kaleidoscope.Proofs.Engine.Extending
import Kaleidoscope.Proofs.Session.Store

/-!
# Results are stable

Calls are resolved by name when they are made. Nevertheless a run that came to a value, or to the end
of the stack, comes to the same at any later time and writes the same: a form leaves the engine as it
was, or makes it resolve one name more, which it did not resolve before. A definition of a name that
is defined is refused, and the function of a bare expression is of a new name and gone when the next
form is read (`Session.Sound.extends_step`). Only a name that was the host's must not be defined, since
then its calls go elsewhere.

Main statement: `Reachable.run_later`.
-/

namespace Kaleidoscope

open Ssa Engine

namespace Session

/-- The name that the next step defines. -/
def defines? (fuel : Nat) (s : Session) : Option String :=
  match Act.step fuel s with
  | .ok (some (.definition name)) _ => some name
  | _ => none

/-- The second session comes after the first: forms were handled, sources changed and logs taken, but
no function was defined under a name of the host's. -/
inductive Later (s : Session) : Session → Prop
  | refl : Later s s
  | source {t : Session} (source : List UInt8) : Later s t → Later s (t.setSource source)
  | log {t : Session} (log : String) : Later s t → Later s { t with log }
  | step {t : Session} (fuel : Nat) : Later s t → (∀ host : Host, t.defines? fuel ≠ some host.name) →
    Later s (left (Act.step fuel t))

end Session

section Steps

variable {s s' : Session} {p : Past} {d : Definition} {proto : Prototype}

/-- A definition makes the engine resolve a new name, or changes nothing of it. -/
theorem Session.Sound.extends_definition (h : s.Sound p)
    (free : ∀ host : Host, ∀ t, Act.definition d s ≠ .ok (.definition host.name) t) :
    s.engine.Extends (left (Act.definition d s)).engine := by
  cases hd : Lower.definition d s.lowering with
  | ok i l =>
    obtain ⟨log, he⟩ := definition_of_ok hd
    have defined := Lower.definition_ok h.tidy hd
    obtain ⟨f, -, -, -, symbols, -⟩ := symbols_add (e := s.engine) defined
    rw [he]
    refine .of_insert symbols (h.lookup_of_fresh defined.fresh) fun host hn => ?_
    rw [hn] at he
    exact free host _ he
  | error e l =>
    rw [definition_of_error hd]
    exact .refl _

/-- A bare expression leaves nothing of its own. -/
theorem Session.Sound.extends_expression (h : s.Sound p) (fuel : Nat) :
    s.engine.Extends (left (Act.expression fuel d s)).engine := by
  cases hd : Lower.definition d s.lowering with
  | ok i l =>
    have ended := expression_of_ok fuel hd
    split at ended <;> rw [ended] <;> exact .of_lookup (h.lookup_ended hd _)
  | error e l =>
    rw [expression_of_error fuel hd]
    exact .refl _

/-- Declaring changes nothing in the engine. -/
theorem engine_declaration (proto : Prototype) (s : Session) :
    (left (Act.declaration proto s)).engine = s.engine := by
  cases hd : Lower.declaration proto s.lowering with
  | ok i l =>
    obtain ⟨log, he⟩ := declaration_of_ok hd
    rw [he]
    rfl
  | error e l =>
    rw [declaration_of_error hd]
    rfl

/-- One form. -/
theorem Session.Sound.extends_form (h : s.Sound p) {fuel : Nat} {form : Form}
    (free : ∀ host : Host, ∀ t, Act.form fuel form s ≠ .ok (.definition host.name) t) :
    s.engine.Extends (left (Act.form fuel form s)).engine := by
  cases form with
  | separator => exact .refl _
  | definition d => exact h.extends_definition free
  | declaration proto => exact .of_lookup (congrArg _ (engine_declaration proto s))
  | expression d => exact h.extends_expression fuel

/-- A step only adds to what the engine resolves. -/
theorem Session.Sound.extends_step (h : s.Sound p) {fuel : Nat}
    (free : ∀ host : Host, s.defines? fuel ≠ some host.name) :
    s.engine.Extends (left (Act.step fuel s)).engine := by
  have same := read_same s
  cases hr : Act.read s with
  | error e s₁ =>
    rw [hr] at same
    rw [show Act.step fuel s = .error e s₁ from bind_of_error hr _]
    exact .of_lookup (congrArg _ same.2)
  | ok form s₁ =>
    rw [hr] at same
    cases form with
    | none =>
      rw [show Act.step fuel s = .ok none s₁ from bind_of_ok hr _]
      exact .of_lookup (congrArg _ same.2)
    | some form =>
      have free₁ : ∀ host : Host, ∀ t, Act.form fuel form s₁ ≠ .ok (.definition host.name) t := by
        intro host t hf
        apply free host
        rw [Session.defines?, step_of_read hr, hf]
      rw [left_step_of_read hr, ← same.2]
      exact (h.same same.1 same.2).extends_form free₁

end Steps

section Runs

variable {s s' : Session} {p : Past}

/-- However the session goes on, it only adds to what the engine resolves. -/
theorem Session.Later.extends (later : s.Later s') (h : Reachable s p) :
    (∃ p', Reachable s' p') ∧ s.engine.Extends s'.engine := by
  induction later with
  | refl => exact ⟨⟨p, h⟩, .refl _⟩
  | source source _ ih =>
    obtain ⟨⟨p', reachable⟩, extended⟩ := ih
    exact ⟨⟨p', reachable.source source⟩, extended⟩
  | log log _ ih =>
    obtain ⟨⟨p', reachable⟩, extended⟩ := ih
    exact ⟨⟨p', reachable.log log⟩, extended⟩
  | step fuel _ free ih =>
    obtain ⟨⟨p', reachable⟩, extended⟩ := ih
    exact ⟨⟨_, reachable.step fuel⟩, extended.trans (reachable.sound.extends_step free)⟩

/-- **Results are stable.** If a run of a session that has come about in whatever way did not stop at
a name that is not resolved, so in particular if it came to a value or to the end of the stack, then
the same run comes to the same in every later session, provided that no function was defined there
under a name of the host's. What it writes is the same too, whatever was written before. -/
theorem Reachable.run_later (h : Reachable s p) (later : s.Later s') {fuel : Nat}
    {name log out : String} {args : List Float} {outcome : Except Stop Float}
    (hr : s.engine.run fuel name args log = ending outcome (log ++ out))
    (resolved : ¬ Unresolved outcome) (log' : String) :
    s'.engine.run fuel name args log' = ending outcome (log' ++ out) :=
  (later.extends h).2.run hr resolved log'

/-- A function that writes, and what comes after it: one that calls it, another definition of its
name, which is refused, and a bare expression. -/
def writer : List UInt8 :=
  "extern printd(x) def f(x) printd(x) def g(x) f(x) def f(x) 2 g(1)".toUTF8.data.toList

/-- The session in which the function has just been defined. -/
def Session.wrote : Session :=
  left (Act.step 0 (left (Act.step 0 (.ofBytes writer))))

/-- The session in which the other definition of its name is refused. -/
def Session.rewriting : Session :=
  left (Act.step 0 .wrote)

/-- A run of the function that writes, once where it was just defined, and once behind the other
forms with their text before it. -/
theorem run_later_writer : ∃ p s', Reachable .wrote p ∧ Session.Later .wrote s' ∧
    s' = left (Act.step 1 (left (Act.step 0 .rewriting))) ∧
    Session.wrote.engine.run 1 "f" [1.0] "" = ending (.ok 0.0) ("" ++ "1.000000\n") ∧
    s'.engine.run 1 "f" [1.0] s'.log = ending (.ok 0.0) (s'.log ++ "1.000000\n") := by
  have reachable : Reachable .wrote _ := .step 0 (.step 0 (.start writer))
  have first : Session.wrote.defines? 0 = some "g" := by decide +kernel
  have second : Session.rewriting.defines? 0 = none := by decide +kernel
  have third : (left (Act.step 0 .rewriting)).defines? 1 = none := by decide +kernel
  have later : Session.Later .wrote (left (Act.step 1 (left (Act.step 0 .rewriting)))) := by
    refine .step 1 (.step 0 (.step 0 .refl fun host => ?_) fun host => ?_) fun host => ?_
    · rw [first]
      cases host <;> decide
    · show Session.rewriting.defines? 0 ≠ _
      rw [second]
      cases host <;> decide
    · show (left (Act.step 0 .rewriting)).defines? 1 ≠ _
      rw [third]
      cases host <;> decide
  have run : Session.wrote.engine.run 1 "f" [1.0] "" =
      ending (.ok 0.0) ("" ++ "1.000000\n") := by decide +kernel
  refine ⟨_, _, reachable, later, rfl, run, reachable.run_later later run ?_ _⟩
  rintro ⟨callee, he⟩
  cases he

end Runs

end Kaleidoscope
