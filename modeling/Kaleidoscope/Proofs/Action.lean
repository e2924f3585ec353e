import Kaleidoscope.Fault

/-!
# Taking actions apart

Reading, lowering, running and sessions are actions of one kind: they change a state and give a
result or a fault. What a sequence of two actions did is what the first did and, unless that failed,
what the second did after it. `Keeps` is the rule by which actions are taken apart where this is not
enough. Of all actions only a run is stopped (`Fault.Static`).
-/

namespace Kaleidoscope

variable {ε σ α β : Type} {a : EStateM ε σ α} {f : α → EStateM ε σ β} {s t : σ} {x : α} {y : β}
  {e : ε}

/-- A sequence succeeds when both of its actions do, the second in the state that the first leaves.
-/
theorem bind_eq_ok : (a >>= f) s = .ok y t ↔ ∃ x u, a s = .ok x u ∧ f x u = .ok y t := by
  simp only [bind, EStateM.bind]
  cases a s <;> simp [and_assoc]

/-- A sequence fails when the first action does, or the second one after it. -/
theorem bind_eq_error :
    (a >>= f) s = .error e t ↔ a s = .error e t ∨ ∃ x u, a s = .ok x u ∧ f x u = .error e t := by
  simp only [bind, EStateM.bind]
  cases a s <;> simp [and_assoc]

theorem bind_of_ok (h : a s = .ok x t) (f : α → EStateM ε σ β) : (a >>= f) s = f x t := by
  simp only [bind, EStateM.bind, h]

theorem bind_of_error (h : a s = .error e t) (f : α → EStateM ε σ β) :
    (a >>= f) s = .error e t := by
  simp only [bind, EStateM.bind, h]

/-- A fault that is caught does not take back what was done before it. -/
theorem tryCatch_of_error {h : ε → EStateM ε σ α} (ha : a s = .error e t) :
    (tryCatch a h) s = h e t := by
  change EStateM.tryCatch a h s = h e t
  delta EStateM.tryCatch
  rw [ha]
  rfl

/-- A handler does nothing for an action that succeeds. -/
theorem tryCatch_of_ok (ha : a s = .ok x t) (h : ε → EStateM ε σ α) :
    (tryCatch a h) s = .ok x t := by
  change EStateM.tryCatch a h s = .ok x t
  delta EStateM.tryCatch
  rw [ha]

/-- The state that an action leaves, whether it fails or not. -/
def left : EStateM.Result ε σ α → σ
  | .ok _ s => s
  | .error _ s => s

/-- The result of an action, unless it fails. -/
def given? : EStateM.Result ε σ α → Option α
  | .ok x _ => some x
  | .error _ _ => none

theorem ok_of_given? (h : given? (a s) = some x) : ∃ t, a s = .ok x t := by
  cases ha : a s with
  | ok y t =>
    rw [ha] at h
    exact ⟨t, by rw [Option.some.inj h]⟩
  | error e t =>
    rw [ha] at h
    cases h

/-- What becomes of a result does not count for the state that is left. -/
theorem left_bind_pure (a : EStateM ε σ α) (g : α → β) (s : σ) :
    left ((a >>= fun x => pure (g x)) s) = left (a s) := by
  cases h : a s with
  | ok x t =>
    rw [bind_of_ok h]
    rfl
  | error e t =>
    rw [bind_of_error h]
    rfl

/-- Two sequences do the same if their second actions do so after every result of the first. -/
theorem bind_congr_ok {f g : α → EStateM ε σ β} (h : ∀ x t, a s = .ok x t → f x t = g x t) :
    (a >>= f) s = (a >>= g) s := by
  cases ha : a s with
  | ok x t => rw [bind_of_ok ha, bind_of_ok ha, h x t ha]
  | error e t => rw [bind_of_error ha, bind_of_error ha]

/-- Wherever `I` holds of the state it holds again after the action; a result satisfies `P`, and a
fault satisfies `F`. -/
structure Keeps (I : σ → Prop) (P : α → Prop) (F : ε → Prop) (a : EStateM ε σ α) : Prop where
  ok : ∀ {s x t}, I s → a s = .ok x t → I t ∧ P x
  error : ∀ {s e t}, I s → a s = .error e t → I t ∧ F e

section Rules

variable {I : σ → Prop} {P Q : α → Prop} {R : β → Prop} {F : ε → Prop}

theorem Keeps.left (h : Keeps I P F a) (hi : I s) : I (left (a s)) := by
  cases ha : a s with
  | ok x t => exact (h.ok hi ha).1
  | error e t => exact (h.error hi ha).1

theorem Keeps.mono (h : Keeps I P F a) (hpq : ∀ x, P x → Q x) : Keeps I Q F a where
  ok hi hr := ⟨(h.ok hi hr).1, hpq _ (h.ok hi hr).2⟩
  error hi hr := h.error hi hr

/-- In a sequence the second action need keep the invariant only for results that the first one
gives. -/
theorem Keeps.bind (ha : Keeps I P F a) (hf : ∀ x, P x → Keeps I R F (f x)) :
    Keeps I R F (a >>= f) where
  ok hi h := by
    obtain ⟨x, t, hx, hy⟩ := bind_eq_ok.1 h
    obtain ⟨ht, hp⟩ := ha.ok hi hx
    exact (hf x hp).ok ht hy
  error hi h := by
    rcases bind_eq_error.1 h with h | ⟨x, t, hx, hy⟩
    · exact ha.error hi h
    · obtain ⟨ht, hp⟩ := ha.ok hi hx
      exact (hf x hp).error ht hy

/-- Handling a fault keeps the invariant, as the action has kept it by the time it fails. -/
theorem Keeps.catch {handler : ε → EStateM ε σ α} (ha : Keeps I P F a)
    (hh : ∀ e, F e → Keeps I P F (handler e)) : Keeps I P F (tryCatch a handler) where
  ok := by
    intro s x t hi h
    cases hs : a s with
    | ok y u =>
      rw [tryCatch_of_ok hs] at h
      cases h
      exact ha.ok hi hs
    | error e u =>
      rw [tryCatch_of_error hs] at h
      obtain ⟨hu, he⟩ := ha.error hi hs
      exact (hh e he).ok hu h
  error := by
    intro s e t hi h
    cases hs : a s with
    | ok y u =>
      rw [tryCatch_of_ok hs] at h
      cases h
    | error e' u =>
      rw [tryCatch_of_error hs] at h
      obtain ⟨hu, he⟩ := ha.error hi hs
      exact (hh e' he).error hu h

theorem keeps_pure (h : P x) : Keeps I P F (pure x) where
  ok hi hr := by
    cases hr
    exact ⟨hi, h⟩
  error _ hr := nomatch hr

theorem keeps_throw (h : F e) : Keeps I P F (throw e) where
  ok _ hr := nomatch hr
  error hi hr := by
    cases hr
    exact ⟨hi, h⟩

theorem keeps_get : Keeps I (fun _ => True) F get where
  ok hi hr := by
    cases hr
    exact ⟨hi, trivial⟩
  error _ hr := nomatch hr

end Rules

/-- The fault is one of the form itself, and not one of its run. -/
def Fault.Static (e : Fault) : Prop :=
  ∀ cause, e ≠ .stopped cause

end Kaleidoscope
