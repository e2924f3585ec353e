import Kaleidoscope.Proofs.Evaluation.Basic

/-!
# Induction over expressions

An expression holds a list of arguments and an optional step, so that the recursor of its type
speaks of three kinds of things at once. `Expr.induct` is the principle that proofs use: one case
for each form, with the hypothesis for every part. For the step of a loop that has none it is the
hypothesis for the number one.
-/

namespace Kaleidoscope

/-- Induction over expressions, with the arguments of a call taken together and with a step that is
left out taken as the number one. -/
theorem Expr.induct {P : Expr → Prop}
    (number : ∀ x, P (.number x))
    (name : ∀ x, P (.variable x))
    (unary : ∀ op e, P e → P (.unary op e))
    (binary : ∀ op l r, P l → P r → P (.binary op l r))
    (conditional : ∀ c y n, P c → P y → P n → P (.conditional c y n))
    (loop : ∀ var start goOn step body, P start → P goOn → P (.stepOrOne step) → P body →
      P (.loop var start goOn step body))
    (call : ∀ f args, (∀ e ∈ args, P e) → P (.call f args)) (e : Expr) : P e := by
  refine @Expr.rec P (fun step => P (.stepOrOne step)) (fun args => ∀ e ∈ args, P e)
    number name unary binary conditional loop call ?_ ?_ ?_ ?_ e
  · exact number 1.0
  · exact fun a ha => ha
  · intro e h
    cases h
  · intro a as ha has e h
    rcases List.mem_cons.1 h with rfl | h
    · exact ha
    · exact has e h

end Kaleidoscope
