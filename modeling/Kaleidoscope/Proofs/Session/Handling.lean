import Kaleidoscope.Proofs.Action
import Kaleidoscope.Session

/-!
# Handling a form reads nothing

A session reads a form and then handles it. What handling comes to does not depend on where the reader
stands, and the reader is left there (`readsNothing_form`). So what a step does to the reader is what
reading the form does to it (`reader_step`).
-/

namespace Kaleidoscope

variable {α β : Type}

/-- The result with the reader of the session in another place. -/
def moved (r : Reader) : EStateM.Result Fault Session α → EStateM.Result Fault Session α
  | .ok x s => .ok x { s with reader := r }
  | .error e s => .error e { s with reader := r }

theorem left_moved (r : Reader) (result : EStateM.Result Fault Session α) :
    left (moved r result) = { left result with reader := r } := by
  cases result <;> rfl

/-- The action reads nothing: it does the same wherever the reader stands, and leaves it there. -/
def ReadsNothing (a : Act α) : Prop :=
  ∀ r s, a { s with reader := r } = moved r (a s)

section Rules

variable {a : Act α} {f : α → Act β}

/-- Actions in a row read nothing if none of them does. -/
theorem ReadsNothing.bind (ha : ReadsNothing a) (hf : ∀ x, ReadsNothing (f x)) :
    ReadsNothing (a >>= f) := by
  intro r s
  have first := ha r s
  cases hx : a s with
  | ok x t =>
    rw [hx] at first
    rw [bind_of_ok hx, bind_of_ok first]
    exact hf x r t
  | error e t =>
    rw [hx] at first
    rw [bind_of_error hx, bind_of_error first]
    rfl

theorem ReadsNothing.catch {handler : Fault → Act α} (ha : ReadsNothing a)
    (hh : ∀ e, ReadsNothing (handler e)) : ReadsNothing (tryCatch a handler) := by
  intro r s
  have first := ha r s
  cases hx : a s with
  | ok x t =>
    rw [hx] at first
    rw [tryCatch_of_ok hx, tryCatch_of_ok first]
    rfl
  | error e t =>
    rw [hx] at first
    rw [tryCatch_of_error hx, tryCatch_of_error first]
    exact hh e r t

theorem ReadsNothing.left (ha : ReadsNothing a) (s : Session) :
    (left (a s)).reader = s.reader := by
  have same : a s = moved s.reader (a s) := ha s.reader s
  rw [same, left_moved]

end Rules

/-- Lowering knows nothing of the reader. -/
theorem readsNothing_lower (action : Lower α) : ReadsNothing (Act.lower action) := by
  intro r s
  unfold Act.lower
  dsimp only
  cases action s.lowering <;> rfl

/-- The engine knows nothing of the reader. -/
theorem readsNothing_run (fuel : Nat) (name : String) (args : List Float) :
    ReadsNothing (Act.run fuel name args) := by
  intro r s
  unfold Act.run
  dsimp only
  cases s.engine.run fuel name args s.log <;> rfl

theorem readsNothing_expression (fuel : Nat) (d : Definition) :
    ReadsNothing (Act.expression fuel d) := by
  unfold Act.expression
  refine (readsNothing_lower _).bind fun f => ReadsNothing.bind (fun _ _ => rfl) fun _ =>
    ReadsNothing.bind (fun _ _ => rfl) fun key => ?_
  refine ReadsNothing.bind ((readsNothing_run fuel _ _).catch fun e => ?_) fun x =>
    ReadsNothing.bind (fun _ _ => rfl) fun _ => fun _ _ => rfl
  exact fun _ _ => rfl

/-- Handling a form reads nothing. -/
theorem readsNothing_form (fuel : Nat) (form : Form) : ReadsNothing (Act.form fuel form) := by
  cases form with
  | separator => exact fun _ _ => rfl
  | definition d =>
    exact (readsNothing_lower _).bind fun f => ReadsNothing.bind (fun _ _ => rfl) fun _ _ _ => rfl
  | declaration proto => exact (readsNothing_lower _).bind fun f _ _ => rfl
  | expression d => exact readsNothing_expression fuel d

/-- Handles what was read. -/
def Act.handle (fuel : Nat) : Option Form → Act (Option Outcome)
  | none => return none
  | some f => return some (← form fuel f)

theorem readsNothing_handle (fuel : Nat) (read : Option Form) :
    ReadsNothing (Act.handle fuel read) := by
  cases read with
  | none => exact fun _ _ => rfl
  | some form => exact (readsNothing_form fuel form).bind fun _ _ _ => rfl

section Steps

variable {s t : Session} {r : Reader}

theorem handle_of_ok {fuel : Nat} {f : Form} {o : Outcome} (h : Act.form fuel f s = .ok o t) :
    Act.handle fuel (some f) s = .ok (some o) t :=
  bind_of_ok h _

theorem handle_of_error {fuel : Nat} {f : Form} {e : Fault} (h : Act.form fuel f s = .error e t) :
    Act.handle fuel (some f) s = .error e t :=
  bind_of_error h _

theorem read_of_form_ok {x : Option Form} (h : Read.form s.reader = .ok x r) :
    Act.read s = .ok x { s with reader := r } := by
  simp only [Act.read, h]

/-- A fault of reading is one of the step, with the reader where reading stopped. -/
theorem read_of_form_error {e : Fault} (h : Read.form s.reader = .error e r) :
    Act.read s = .error e { s with reader := r } := by
  simp only [Act.read, h]

/-- A step reads a form and then handles it. -/
theorem step_of_form_ok {x : Option Form} (h : Read.form s.reader = .ok x r) (fuel : Nat) :
    Act.step fuel s = Act.handle fuel x { s with reader := r } :=
  bind_of_ok (read_of_form_ok h) (Act.handle fuel)

/-- Where no form can be read, nothing is handled. -/
theorem step_of_form_error {e : Fault} (h : Read.form s.reader = .error e r) (fuel : Nat) :
    Act.step fuel s = .error e { s with reader := r } :=
  bind_of_error (read_of_form_error h) (Act.handle fuel)

/-- A step moves the reader as reading the form does. -/
theorem reader_step (fuel : Nat) (s : Session) :
    (left (Act.step fuel s)).reader = left (Read.form s.reader) := by
  cases hf : Read.form s.reader with
  | error e r =>
    rw [step_of_form_error hf]
    rfl
  | ok x r =>
    rw [step_of_form_ok hf]
    exact (readsNothing_handle fuel x).left { s with reader := r }

end Steps

end Kaleidoscope
