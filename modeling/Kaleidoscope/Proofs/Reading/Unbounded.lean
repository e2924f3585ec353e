import Kaleidoscope.Proofs.Reading.Bound

/-!
# Reading without a bound

The bound on the depth of calls is never reached, so that the reading functions satisfy the
equations of plain recursive descent: `unary_eq`, `binary_eq`, `expression_eq`, `arguments_eq`.
-/

namespace Kaleidoscope

namespace Read

/-- The operators of at least the given precedence that follow a left operand, with their
operands. -/
def binary (least : Int) (left : Expr) : Read Expr := fun r => binaryWithin (fuel r) least left r

/-- One or more arguments, separated by commas, up to and with the closing parenthesis. -/
def arguments : Read (List Expr) := fun r => argumentsWithin (fuel r) r

section Bounds

variable {n k : Nat}

/-- Three calls for each token that is left are enough, and one more: no call is cut off. -/
theorem agree_unary (h : 3 * k + 1 ≤ n) : Agree k (unaryWithin n) unary := fun r hr =>
  (agree_within n r.size (fuel r)).1 (by omega) (by unfold fuel; omega) r (Nat.le_refl _)

theorem agree_binary (h : 3 * k + 1 ≤ n) (least : Int) (left : Expr) :
    Agree k (binaryWithin n least left) (binary least left) := fun r hr =>
  (agree_within n r.size (fuel r)).2.1 (by omega) (by unfold fuel; omega) least left r
    (Nat.le_refl _)

/-- An expression calls for an operand, and so needs one call more. -/
theorem agree_expression (h : 3 * k + 2 ≤ n) : Agree k (expressionWithin n) expression :=
  fun r hr =>
    (agree_within n r.size (fuel r)).2.2.1 (by omega) (by unfold fuel; omega) r (Nat.le_refl _)

/-- Arguments call for an expression, and so need another one. -/
theorem agree_arguments (h : 3 * k + 3 ≤ n) : Agree k (argumentsWithin n) arguments := fun r hr =>
  (agree_within n r.size (fuel r)).2.2.2 (by omega) (by unfold fuel; omega) r (Nat.le_refl _)

/-- An operand uses up a token, so that what is read behind it has less left. -/
theorem uses_unary : Uses 1 unary := fun r => (uses_within (fuel r)).1 r

/-- A chain may be empty and use up nothing. -/
theorem uses_binary (least : Int) (left : Expr) : Uses 0 (binary least left) := fun r =>
  (uses_within (fuel r)).2.1 least left r

theorem uses_expression : Uses 1 expression := fun r => (uses_within (fuel r)).2.2.1 r

theorem uses_arguments : Uses 0 arguments := fun r => (uses_within (fuel r)).2.2.2 r

end Bounds

/-- A unary expression is a unary operator with its operand, or a primary expression. -/
theorem unary_eq : unary = (do
    match ← accept unaryOperator? with
    | some op => return .unary op (← unary)
    | none => primary expression arguments) := by
  funext r
  show unaryWithin (3 * r.size + 2 + 1) r = _
  rw [unaryWithin]
  simp only [Bind.bind, EStateM.bind]
  cases ho : accept unaryOperator? r with
  | error e t => rfl
  | ok o t =>
    have hs := accept_ok (by rfl) ho
    cases o with
    | some op =>
      simp only [Option.isSome_some, if_true] at hs
      exact Agree.bind (d := 1) (agree_unary (k := t.size) (by omega)) uses_unary
        (fun _ _ _ => .refl _ _) t (Nat.le_refl _)
    | none =>
      simp only [Option.isSome_none, Bool.false_eq_true, if_false, Nat.add_zero] at hs
      exact agree_primary (k := r.size) (fun j hj => agree_expression (by omega))
        (uses_expression.mono (Nat.zero_le _)) (fun j hj => agree_arguments (by omega))
        uses_arguments t hs

/-- Precedence climbing: an operator that is strong enough is taken with its right operand, and the
two become the left operand of the rest of the chain. -/
theorem binary_eq (least : Int) (left : Expr) : binary least left = (do
    match ← binaryOperator least with
    | none => return left
    | some (op, precedence) =>
      let operand ← unary
      let right ← rightOperand binary precedence operand
      binary least (.binary op left right)) := by
  funext r
  show binaryWithin (3 * r.size + 2 + 1) least left r = _
  rw [binaryWithin]
  simp only [Bind.bind, EStateM.bind]
  cases ho : binaryOperator least r with
  | error e t => rfl
  | ok o t =>
    have hs := uses_binaryOperator ho
    cases o with
    | none => rfl
    | some found =>
      obtain ⟨op, p⟩ := found
      simp only [Option.isSome_some, if_true] at hs
      refine Agree.bind (d := 1) (agree_unary (k := t.size) (by omega)) uses_unary
        (fun operand j hj => ?_) t (Nat.le_refl _)
      refine Agree.bind (d := 0) (agree_rightOperand (agree_binary (by omega)) _ _)
        (uses_rightOperand uses_binary _ _) fun right i hi => ?_
      exact agree_binary (by omega) _ _

theorem expression_eq : expression = (do
    let left ← unary
    binary 0 left) := by
  funext r
  show (unaryWithin (3 * r.size + 2) >>= binaryWithin (3 * r.size + 2) 0) r = _
  exact Agree.bind (d := 1) (agree_unary (by omega)) uses_unary
    (fun left j hj => agree_binary (by omega) 0 left) r (Nat.le_refl _)

/-- An argument is followed by the closing parenthesis, or by a comma and further arguments. -/
theorem arguments_eq : arguments = (do
    let arg ← expression
    if ← acceptIf (·.isSymbol ')') then return [arg]
    else
      symbol ',' .argumentEnd
      return arg :: (← arguments)) := by
  funext r
  show argumentsWithin (3 * r.size + 2 + 1) r = _
  rw [argumentsWithin]
  refine Agree.bind (d := 1) (agree_expression (k := r.size) (by omega)) uses_expression
    (fun arg j hj => ?_) r (Nat.le_refl _)
  refine Agree.bind (d := 0) (.refl _ _) (uses_acceptIf (by rfl)) fun b i hi => ?_
  cases b with
  | true => exact .refl _ _
  | false =>
    refine Agree.bind (d := 1) (.refl _ _) (uses_symbol _ _) fun _ i' hi' => ?_
    exact Agree.bind (d := 0) (agree_arguments (by omega)) uses_arguments fun _ _ _ => .refl _ _

end Read

end Kaleidoscope
