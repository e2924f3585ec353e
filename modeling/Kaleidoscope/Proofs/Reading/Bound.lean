import Kaleidoscope.Expr.Reading
import Kaleidoscope.Proofs.Action

/-!
# The bound on reading is never reached

The functions that read expressions take a bound on the depth of their calls. Every reading that
succeeds uses up a token (`uses_within`), so with a bound of three calls for each token that is left
the result does not depend on the bound (`agree_within`). Main statements: `expressionWithin_eq` and
`unaryWithin_eq`.
-/

namespace Kaleidoscope

namespace Read

variable {α β : Type}

/-- Whenever the action succeeds, at least so many tokens are used up. -/
def Uses (d : Nat) (a : Read α) : Prop :=
  ∀ r x s, a r = .ok x s → s.size + d ≤ r.size

/-- The two actions do the same as long as no more than `k` tokens are left. -/
def Agree (k : Nat) (a b : Read α) : Prop :=
  ∀ r, r.size ≤ k → a r = b r

theorem Uses.mono {a : Read α} {d e : Nat} (h : Uses d a) (hle : e ≤ d) : Uses e a := by
  intro r x s hr
  have := h r x s hr
  omega

/-- A sequence uses up what its readings use up together. -/
theorem Uses.bind {a : Read α} {f : α → Read β} {d e : Nat} (ha : Uses d a)
    (hf : ∀ x, Uses e (f x)) : Uses (d + e) (a >>= f) := by
  intro r y s h
  obtain ⟨x, t, hx, hy⟩ := bind_eq_ok.1 h
  have h1 := ha r x t hx
  have h2 := hf x t y s hy
  omega

theorem uses_pure (x : α) : Uses 0 (pure x : Read α) := by
  intro r y s h
  cases h
  exact Nat.le_refl _

theorem uses_throw (e : Fault) (d : Nat) : Uses d (throw e : Read α) := by
  intro r y s h
  cases h

/-- In a sequence the second readings need agree only where the first has used up its tokens. -/
theorem Agree.bind {a b : Read α} {f g : α → Read β} {k d : Nat} (hab : Agree k a b) (hb : Uses d b)
    (hfg : ∀ x j, j + d ≤ k → Agree j (f x) (g x)) : Agree k (a >>= f) (b >>= g) := by
  intro r hr
  simp only [Bind.bind, EStateM.bind, hab r hr]
  cases hbr : b r with
  | error e t => rfl
  | ok x t =>
    have := hb r x t hbr
    exact hfg x t.size (by omega) t (Nat.le_refl _)

theorem Agree.refl (k : Nat) (a : Read α) : Agree k a a := fun _ _ => rfl

theorem Agree.mono {a b : Read α} {k l : Nat} (h : Agree k a b) (hle : l ≤ k) : Agree l a b :=
  fun r hr => h r (Nat.le_trans hr hle)

theorem uses_get : Uses 0 (get : Read Reader) := by
  intro r x s h
  cases h
  exact Nat.le_refl _

/-- A token that is shown is in view, and nothing is used up by it. -/
theorem peek_ok {r s : Reader} {t : Token} (h : peek r = .ok t s) :
    s.looked = some t ∧ s.size ≤ r.size := by
  unfold peek at h
  split at h
  · next t' ht => cases h; exact ⟨ht, Nat.le_refl _⟩
  · next hl =>
    rcases Lexer.size_next r.lexer with hs | hs
    · split at h
      · next t' l' hn =>
        cases h
        rw [hn] at hs
        refine ⟨rfl, ?_⟩
        simp only [Reader.size, hl] at hs ⊢
        split <;> omega
      · cases h
    · rw [hs] at h
      cases h
      exact ⟨rfl, by simp [Reader.size, Lexer.size]⟩

theorem uses_peek : Uses 0 peek := fun _ _ _ h => (peek_ok h).2

/-- An accepted token is used up, and one that is not accepted stays. -/
theorem accept_ok {choose : Token → Option α} {r s : Reader} {o : Option α}
    (hend : choose .finish = none) (h : accept choose r = .ok o s) :
    s.size + (if o.isSome then 1 else 0) ≤ r.size := by
  obtain ⟨t, r', hp, h⟩ := bind_eq_ok.1 h
  obtain ⟨hl, hs⟩ := peek_ok hp
  cases hc : choose t with
  | none =>
    rw [hc] at h
    cases h
    simpa using hs
  | some a =>
    rw [hc] at h
    cases h
    have ht : t ≠ .finish := by rintro rfl; simp [hend] at hc
    have : ({ r' with looked := none } : Reader).size + 1 = r'.size := by
      cases t <;> simp_all [Reader.size]
    simp only [Option.isSome_some, if_true]
    omega

theorem uses_accept {choose : Token → Option α} (hend : choose .finish = none) :
    Uses 0 (accept choose) := by
  intro r o s h
  have := accept_ok hend h
  omega

theorem uses_acceptIf {test : Token → Bool} (hend : test .finish = false) :
    Uses 0 (acceptIf test) := by
  exact (uses_accept (by simp [hend])).bind fun _ => uses_pure _

/-- A demand that succeeds has used up a token. -/
theorem uses_demand {choose : Token → Option α} {wanted : Expectation}
    (hend : choose .finish = none) : Uses 1 (demand choose wanted) := by
  intro r a s h
  obtain ⟨o, t, ho, h⟩ := bind_eq_ok.1 h
  have := accept_ok hend ho
  cases o with
  | none => cases h
  | some b => cases h; simpa using this

theorem uses_symbol (c : Char) (wanted : Expectation) : Uses 1 (symbol c wanted) :=
  uses_demand rfl

theorem uses_keyword (k : Keyword) (wanted : Expectation) : Uses 1 (keyword k wanted) :=
  uses_demand rfl

theorem uses_binaryOperator {r s : Reader} {least : Int} {o : Option (Char × Int)}
    (h : binaryOperator least r = .ok o s) : s.size + (if o.isSome then 1 else 0) ≤ r.size := by
  obtain ⟨_, t, hg, h⟩ := bind_eq_ok.1 h
  cases hg
  exact accept_ok (by simp [Precedences.operator?, Token.symbol?]) h

theorem uses_strongerFollows (p : Int) : Uses 0 (strongerFollows p) :=
  uses_peek.bind fun _ => uses_get.bind fun _ => uses_pure _

/-- A right operand may be the operand alone. -/
theorem uses_rightOperand {climb : Int → Expr → Read Expr}
    (hc : ∀ least left, Uses 0 (climb least left)) (p : Int) (operand : Expr) :
    Uses 0 (rightOperand climb p operand) := by
  unfold rightOperand
  refine Uses.bind (d := 0) (e := 0) (uses_strongerFollows p) fun b => ?_
  cases b
  · exact uses_pure _
  · exact hc _ _

/-- Right operands agree where the climbs do. -/
theorem agree_rightOperand {climb climb' : Int → Expr → Read Expr} {k : Nat}
    (h : ∀ least left, Agree k (climb least left) (climb' least left)) (p : Int) (operand : Expr) :
    Agree k (rightOperand climb p operand) (rightOperand climb' p operand) := by
  unfold rightOperand
  refine Agree.bind (d := 0) (.refl _ _) (uses_strongerFollows p) fun b j hj => ?_
  cases b
  · exact .refl _ _
  · exact (h _ _).mono hj

section Parts

variable {e e' : Read Expr} {l l' : Read (List Expr)} {k : Nat}

theorem uses_loopStep (he : Uses 0 e) : Uses 0 (loopStep e) := by
  unfold loopStep
  refine Uses.bind (d := 0) (e := 0) (uses_acceptIf (by rfl)) fun b => ?_
  cases b
  · exact uses_pure _
  · exact Uses.bind he fun _ => uses_pure _

theorem uses_nameOrCall (hl : Uses 0 l) (name : String) : Uses 0 (nameOrCall name l) := by
  unfold nameOrCall
  refine Uses.bind (d := 0) (e := 0) (uses_acceptIf (by rfl)) fun b => ?_
  cases b
  · exact uses_pure _
  · refine Uses.bind (d := 0) (e := 0) (uses_acceptIf (by rfl)) fun b => ?_
    cases b
    · exact Uses.bind hl fun _ => uses_pure _
    · exact uses_pure _

theorem uses_group (he : Uses 0 e) : Uses 0 (group e) := by
  unfold group
  exact (he.bind fun _ => (uses_symbol _ _).bind fun _ => uses_pure _).mono (Nat.zero_le _)

theorem uses_conditional (he : Uses 0 e) : Uses 0 (conditional e) := by
  unfold conditional
  exact (he.bind fun _ => (uses_keyword _ _).bind fun _ => he.bind fun _ =>
    (uses_keyword _ _).bind fun _ => he.bind fun _ => uses_pure _).mono (Nat.zero_le _)

theorem uses_loop (he : Uses 0 e) : Uses 0 (loop e) := by
  unfold loop
  exact ((uses_demand (by rfl)).bind fun _ => (uses_symbol _ _).bind fun _ => he.bind fun _ =>
    (uses_symbol _ _).bind fun _ => he.bind fun _ => (uses_loopStep he).bind fun _ =>
    (uses_keyword _ _).bind fun _ => he.bind fun _ => uses_pure _).mono (Nat.zero_le _)

/-- Every form of a primary expression opens with a token. -/
theorem uses_primary (he : Uses 0 e) (hl : Uses 0 l) : Uses 1 (primary e l) := by
  unfold primary
  refine Uses.bind (d := 1) (e := 0) (uses_demand (by rfl)) fun o => ?_
  cases o with
  | name text => exact uses_nameOrCall hl text
  | number value => exact uses_pure _
  | group => exact uses_group he
  | conditional => exact uses_conditional he
  | loop => exact uses_loop he

/-- Forms agree with one bound and with another where the expressions in them do. -/
theorem agree_loopStep (h : Agree k e e') (he : Uses 0 e') :
    Agree k (loopStep e) (loopStep e') := by
  unfold loopStep
  refine Agree.bind (d := 0) (.refl k _) (uses_acceptIf (by rfl)) fun b j hj => ?_
  cases b
  · exact .refl _ _
  · exact Agree.bind (d := 0) (h.mono hj) he fun _ _ _ => .refl _ _

theorem agree_nameOrCall (h : Agree k l l') (hl : Uses 0 l') (name : String) :
    Agree k (nameOrCall name l) (nameOrCall name l') := by
  unfold nameOrCall
  refine Agree.bind (d := 0) (.refl _ _) (uses_acceptIf (by rfl)) fun b j hj => ?_
  cases b
  · exact .refl _ _
  · refine Agree.bind (d := 0) (.refl _ _) (uses_acceptIf (by rfl)) fun b i hi => ?_
    cases b
    · exact Agree.bind (d := 0) (h.mono (by omega)) hl fun _ _ _ => .refl _ _
    · exact .refl _ _

theorem agree_group (h : Agree k e e') (he : Uses 0 e') : Agree k (group e) (group e') := by
  unfold group
  exact Agree.bind (d := 0) h he fun _ _ _ => .refl _ _

theorem agree_conditional (h : Agree k e e') (he : Uses 0 e') :
    Agree k (conditional e) (conditional e') := by
  unfold conditional
  refine Agree.bind (d := 0) h he fun _ _ _ => ?_
  refine Agree.bind (d := 1) (.refl _ _) (uses_keyword _ _) fun _ _ _ => ?_
  refine Agree.bind (d := 0) (h.mono (by omega)) he fun _ _ _ => ?_
  refine Agree.bind (d := 1) (.refl _ _) (uses_keyword _ _) fun _ _ _ => ?_
  exact Agree.bind (d := 0) (h.mono (by omega)) he fun _ _ _ => .refl _ _

/-- A loop agrees if its parts do, each of which has no more tokens left than the loop has. -/
theorem agree_loop (h : Agree k e e') (he : Uses 0 e') : Agree k (loop e) (loop e') := by
  unfold loop
  refine Agree.bind (d := 1) (.refl _ _) (uses_demand (by rfl)) fun _ _ _ => ?_
  refine Agree.bind (d := 1) (.refl _ _) (uses_symbol _ _) fun _ _ _ => ?_
  refine Agree.bind (d := 0) (h.mono (by omega)) he fun _ _ _ => ?_
  refine Agree.bind (d := 1) (.refl _ _) (uses_symbol _ _) fun _ _ _ => ?_
  refine Agree.bind (d := 0) (h.mono (by omega)) he fun _ _ _ => ?_
  refine Agree.bind (d := 0) (agree_loopStep (h.mono (by omega)) he) (uses_loopStep he)
    fun _ _ _ => ?_
  refine Agree.bind (d := 1) (.refl _ _) (uses_keyword _ _) fun _ _ _ => ?_
  exact Agree.bind (d := 0) (h.mono (by omega)) he fun _ _ _ => .refl _ _

/-- The token that opens an expression is used up, so that its parts need agree only on fewer
tokens. -/
theorem agree_primary (h : ∀ j, j + 1 ≤ k → Agree j e e') (he : Uses 0 e')
    (h' : ∀ j, j + 1 ≤ k → Agree j l l') (hl : Uses 0 l') :
    Agree k (primary e l) (primary e' l') := by
  unfold primary
  refine Agree.bind (d := 1) (.refl _ _) (uses_demand (by rfl)) fun o j hj => ?_
  cases o with
  | name text => exact agree_nameOrCall (h' j hj) hl text
  | number value => exact .refl _ _
  | group => exact agree_group (h j hj) he
  | conditional => exact agree_conditional (h j hj) he
  | loop => exact agree_loop (h j hj) he

end Parts

/-- Every reading within a bound that succeeds uses up a token, but the operators after an operand
may be none. -/
theorem uses_within (n : Nat) :
    Uses 1 (unaryWithin n) ∧ (∀ least left, Uses 0 (binaryWithin n least left)) ∧
      Uses 1 (expressionWithin n) ∧ Uses 0 (argumentsWithin n) := by
  induction n with
  | zero => exact ⟨uses_throw _ _, fun _ _ => uses_throw _ _, uses_throw _ _, uses_throw _ _⟩
  | succ n ih =>
    obtain ⟨hu, hb, he, ha⟩ := ih
    refine ⟨?_, ?_, ?_, ?_⟩
    · unfold unaryWithin
      intro r x s h
      obtain ⟨o, t, ho, h⟩ := bind_eq_ok.1 h
      have hs := accept_ok (by rfl) ho
      cases o with
      | some op =>
        have := (Uses.bind (d := 1) (e := 0) hu fun _ => uses_pure _) t x s h
        simp at hs
        omega
      | none =>
        have := uses_primary (he.mono (Nat.zero_le _)) ha t x s h
        simp at hs
        omega
    · intro least left
      unfold binaryWithin
      intro r x s h
      obtain ⟨o, t, ho, h⟩ := bind_eq_ok.1 h
      have hs := uses_binaryOperator ho
      cases o with
      | none => cases h; simpa using hs
      | some found =>
        obtain ⟨op, p⟩ := found
        have := (Uses.bind (d := 1) (e := 0) hu fun operand =>
          Uses.bind (d := 0) (e := 0) (uses_rightOperand hb p operand) fun right => hb _ _) t x s h
        simp at hs
        omega
    · unfold expressionWithin
      exact Uses.bind (d := 1) (e := 0) hu fun left => hb 0 left
    · unfold argumentsWithin
      refine (Uses.bind (d := 1) (e := 0) he fun arg => ?_).mono (Nat.zero_le _)
      refine Uses.bind (d := 0) (e := 0) (uses_acceptIf (by rfl)) fun b => ?_
      cases b
      · refine (Uses.bind (d := 1) (e := 0) (uses_symbol _ _) fun _ => ?_).mono (Nat.zero_le _)
        exact ha.bind fun _ => uses_pure _
      · exact uses_pure _

/-- A bound that is large enough for what is left may be larger. -/
theorem agree_within (n : Nat) : ∀ k m : Nat,
    (3 * k + 1 ≤ n → 3 * k + 1 ≤ m → Agree k (unaryWithin n) (unaryWithin m)) ∧
    (3 * k + 1 ≤ n → 3 * k + 1 ≤ m →
      ∀ least left, Agree k (binaryWithin n least left) (binaryWithin m least left)) ∧
    (3 * k + 2 ≤ n → 3 * k + 2 ≤ m → Agree k (expressionWithin n) (expressionWithin m)) ∧
    (3 * k + 3 ≤ n → 3 * k + 3 ≤ m → Agree k (argumentsWithin n) (argumentsWithin m)) := by
  induction n with
  | zero => intro k m; refine ⟨?_, ?_, ?_, ?_⟩ <;> intro h <;> omega
  | succ n ih =>
    intro k m
    cases m with
    | zero => refine ⟨?_, ?_, ?_, ?_⟩ <;> intro _ h <;> omega
    | succ m =>
      obtain ⟨hu, hb, he, ha⟩ := uses_within m
      refine ⟨fun hn hm => ?_, fun hn hm least left => ?_, fun hn hm => ?_, fun hn hm => ?_⟩
      · unfold unaryWithin
        intro r hr
        simp only [Bind.bind, EStateM.bind]
        cases ho : accept unaryOperator? r with
        | error e t => rfl
        | ok o t =>
          -- the operator is used up, so one token less is left for the operand
          have hs := accept_ok (by rfl) ho
          cases o with
          | some op =>
            simp only [Option.isSome_some, if_true] at hs
            exact Agree.bind (d := 1) ((ih t.size m).1 (by omega) (by omega)) hu
              (fun _ _ _ => .refl _ _) t (Nat.le_refl _)
          | none =>
            simp only [Option.isSome_none, Bool.false_eq_true, if_false, Nat.add_zero] at hs
            exact agree_primary (k := k) (fun j hj => (ih j m).2.2.1 (by omega) (by omega))
              (he.mono (Nat.zero_le _)) (fun j hj => (ih j m).2.2.2 (by omega) (by omega)) ha t
              (by omega)
      · unfold binaryWithin
        intro r hr
        simp only [Bind.bind, EStateM.bind]
        cases ho : binaryOperator least r with
        | error e t => rfl
        | ok o t =>
          have hs := uses_binaryOperator ho
          cases o with
          | none => rfl
          | some found =>
            simp only [Option.isSome_some, if_true] at hs
            refine Agree.bind (d := 1) ((ih t.size m).1 (by omega) (by omega)) hu
              (fun operand j hj => ?_) t (Nat.le_refl _)
            refine Agree.bind (d := 0) (agree_rightOperand ((ih j m).2.1 (by omega) (by omega)) _ _)
              (uses_rightOperand hb _ _) fun right i hi => ?_
            exact (ih i m).2.1 (by omega) (by omega) _ _
      · unfold expressionWithin
        refine Agree.bind (d := 1) ((ih k m).1 (by omega) (by omega)) hu fun left j hj => ?_
        exact (ih j m).2.1 (by omega) (by omega) 0 left
      · unfold argumentsWithin
        refine Agree.bind (d := 1) ((ih k m).2.2.1 (by omega) (by omega)) he fun arg j hj => ?_
        refine Agree.bind (d := 0) (.refl _ _) (uses_acceptIf (by rfl)) fun b i hi => ?_
        cases b
        · refine Agree.bind (d := 1) (.refl _ _) (uses_symbol _ _) fun _ i' hi' => ?_
          exact Agree.bind (d := 0) ((ih i' m).2.2.2 (by omega) (by omega)) ha
            fun _ _ _ => .refl _ _
        · exact .refl _ _

/-- Reading an expression does not depend on the bound. -/
theorem expressionWithin_eq {n : Nat} {r : Reader} (h : fuel r ≤ n) :
    expressionWithin n r = expression r := by
  unfold fuel at h
  exact (agree_within n r.size (fuel r)).2.2.1 (by omega) (by unfold fuel; omega) r (Nat.le_refl _)

/-- Reading a unary expression does not depend on the bound. -/
theorem unaryWithin_eq {n : Nat} {r : Reader} (h : fuel r ≤ n) : unaryWithin n r = unary r := by
  unfold fuel at h
  exact (agree_within n r.size (fuel r)).1 (by omega) (by unfold fuel; omega) r (Nat.le_refl _)

end Read

end Kaleidoscope
