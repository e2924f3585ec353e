import Kaleidoscope.Proofs.Reading.Spelling
import Kaleidoscope.Proofs.Reading.Stream

/-!
# Reading does not look ahead

A form is read from the tokens at the front of what is left. What there may be behind them shows only
when reading comes to the end of the source, or would come to it. `Ignores more a` says so of a
reading: for two readers of which the second has `more` behind what the first has, it does the same,
unless the first one has come to its end (`Reader.Over`), where it then stays. `Ignores.bind` is the
rule for sequences, and the forms are put together from the current token by it. The bounds of the two
readers differ, but neither is reached (`Ignores.of_within`).

Main statements: `Read.ignores_form`, and `Read.form_separator` for the one form that may be the last
of a source without the end having been looked at.
-/

namespace Kaleidoscope

namespace Lexer

variable {l : Lexer}

/-- At the end of the source every call shows the end. -/
theorem next_of_items_nil (h : l.items = []) : l.next = (.ok .finish, {}) := by
  obtain ⟨item, after, hn⟩ : ∃ item after, l.next = (item, after) := ⟨_, _, rfl⟩
  by_cases hi : item = .ok .finish
  · rw [hi] at hn
    rw [hn, eq_of_next_finish hn]
  · rw [items_of_next hn hi] at h
    cases h

/-- A call shows the first of the items that are left, and leaves the others. -/
theorem next_of_items_cons {item : Item} {rest : List Item} (h : l.items = item :: rest) :
    ∃ after, l.next = (item, after) ∧ after.items = rest := by
  obtain ⟨first, after, hn⟩ : ∃ first after, l.next = (first, after) := ⟨_, _, rfl⟩
  by_cases hi : first = .ok .finish
  · rw [items_of_finish (hi ▸ hn)] at h
    cases h
  · rw [items_of_next hn hi] at h
    cases h
    exact ⟨after, hn, rfl⟩

end Lexer

namespace Reader

/-- The second reader has what the first has, and `more` behind it. -/
structure Longer (more : List Item) (r r' : Reader) : Prop where
  looked : r'.looked = r.looked
  precedences : r'.precedences = r.precedences
  items : r'.lexer.items = r.lexer.items ++ more
  /-- Behind the end of the source there is nothing more. -/
  finish : r.looked = some .finish → r' = r

/-- The reader has come to the end of its source. -/
structure Over (r : Reader) : Prop where
  items : r.lexer.items = []
  looked : ∀ t ∈ r.looked, t = .finish

/-- The current token is the same in both, and may be used up. -/
theorem Longer.advance {more : List Item} {r r' : Reader} (h : r.Longer more r') :
    { r with looked := none : Reader }.Longer more { r' with looked := none } where
  looked := rfl
  precedences := h.precedences
  items := h.items
  finish hf := by cases hf

/-- A reader that has come to its end stays there. -/
theorem Over.next {r : Reader} (h : r.Over) : r.lexer.next = (.ok .finish, {}) :=
  Lexer.next_of_items_nil h.items

end Reader

namespace Read

variable {α β : Type} {more : List Item} {r r' : Reader}

/-- The two results are the same, with readers of which the second has `more` behind what the first
has, or the first reader has come to its end before. -/
inductive Alongside (more : List Item) :
    EStateM.Result Fault Reader α → EStateM.Result Fault Reader α → Prop
  | ok {x : α} {s s' : Reader} : s.Longer more s' → Alongside more (.ok x s) (.ok x s')
  | error {e : Fault} {s s' : Reader} : s.Longer more s' → Alongside more (.error e s) (.error e s')
  | ended {result result' : EStateM.Result Fault Reader α} : more ≠ [] → (left result).Over →
    Alongside more result result'

/-- The reading does not depend on what there is behind the tokens that it uses, and at the end of the
source it stays there. -/
structure Ignores (more : List Item) (a : Read α) : Prop where
  alongside : ∀ {r r'}, Reader.Longer more r r' → Alongside more (a r) (a r')
  stays : ∀ {r}, Reader.Over r → (left (a r)).Over

section Rules

variable {a : Read α} {f : α → Read β}

theorem ignores_pure (x : α) : Ignores more (pure x) :=
  ⟨fun h => .ok h, fun h => h⟩

theorem ignores_throw (e : Fault) : Ignores more (throw e : Read α) :=
  ⟨fun h => .error h, fun h => h⟩

/-- One reading after another. -/
theorem Ignores.bind (ha : Ignores more a) (hf : ∀ x, Ignores more (f x)) :
    Ignores more (a >>= f) := by
  have stays : ∀ {r}, (left (a r)).Over → (left ((a >>= f) r)).Over := by
    intro r h
    cases hx : a r with
    | ok x s =>
      rw [bind_of_ok hx]
      rw [hx] at h
      exact (hf x).stays h
    | error e s =>
      rw [bind_of_error hx]
      rw [hx] at h
      exact h
  refine ⟨fun {r r'} h => ?_, fun h => stays (ha.stays h)⟩
  have first := ha.alongside h
  generalize hx : a r = result, hx' : a r' = result' at first
  cases first with
  | ok longer =>
    rw [bind_of_ok hx, bind_of_ok hx']
    exact (hf _).alongside longer
  | error longer =>
    rw [bind_of_error hx, bind_of_error hx']
    exact .error longer
  | ended hm ends => exact .ended hm (stays (hx ▸ ends))

/-- What is done after a fault does not depend on what there is behind it either. -/
theorem Ignores.catch {handler : Fault → Read α} (ha : Ignores more a)
    (hh : ∀ e, Ignores more (handler e)) : Ignores more (tryCatch a handler) := by
  have stays : ∀ {r}, (left (a r)).Over → (left (tryCatch a handler r)).Over := by
    intro r h
    cases hx : a r with
    | ok x s =>
      rw [tryCatch_of_ok hx]
      rw [hx] at h
      exact h
    | error e s =>
      rw [tryCatch_of_error hx]
      rw [hx] at h
      exact (hh e).stays h
  refine ⟨fun {r r'} h => ?_, fun h => stays (ha.stays h)⟩
  have first := ha.alongside h
  generalize hx : a r = result, hx' : a r' = result' at first
  cases first with
  | ok longer =>
    rw [tryCatch_of_ok hx, tryCatch_of_ok hx']
    exact .ok longer
  | error longer =>
    rw [tryCatch_of_error hx, tryCatch_of_error hx']
    exact (hh _).alongside longer
  | ended hm ends => exact .ended hm (stays (hx ▸ ends))

/-- The precedences are the same in both readers. -/
theorem ignores_get {f : Reader → Read β} (same : ∀ r r', r'.precedences = r.precedences → f r' = f r)
    (hf : ∀ r, Ignores more (f r)) : Ignores more (get >>= f) where
  alongside {r r'} h := by
    show Alongside more (f r r) (f r' r')
    rw [same r r' h.precedences]
    exact (hf r).alongside h
  stays {r} h := (hf r).stays h

theorem ignores_modify (change : Precedences → Precedences) :
    Ignores more (modify fun r => { r with precedences := change r.precedences } : Read Unit) where
  alongside h := .ok {
    looked := h.looked
    precedences := congrArg change h.precedences
    items := h.items
    finish := fun hf => by rw [h.finish hf] }
  stays h := ⟨h.items, h.looked⟩

/-- A reading under a bound that is not reached. -/
theorem Ignores.of_within {within : Nat → Read α} (h : ∀ n, Ignores more (within n))
    (bound : ∀ {n r}, fuel r ≤ n → within n r = a r) : Ignores more a where
  alongside {r r'} hr := by
    rw [← bound (Nat.le_max_left (fuel r) (fuel r')), ← bound (Nat.le_max_right (fuel r) (fuel r'))]
    exact (h _).alongside hr
  stays {r} hr := by
    rw [← bound (Nat.le_refl (fuel r))]
    exact (h _).stays hr

end Rules

section Tokens

/-- Looking at a token shows what is behind it only if there is no token. -/
theorem ignores_peek : Ignores more peek where
  alongside {r r'} h := by
    cases hl : r.looked with
    | some t =>
      rw [peek_of_looked hl, peek_of_looked (h.looked.trans hl)]
      exact .ok h
    | none =>
      have hl' : r'.looked = none := h.looked.trans hl
      simp only [peek, hl, hl']
      cases hi : r.lexer.items with
      | nil =>
        rw [Lexer.next_of_items_nil hi]
        by_cases hm : more = []
        · -- both come to the end
          rw [Lexer.next_of_items_nil (by rw [h.items, hi, hm]; rfl)]
          exact .ok ⟨rfl, h.precedences, by rw [hm, List.append_nil], fun _ => by rw [h.precedences]⟩
        · refine .ended hm ⟨Lexer.items_empty, fun t ht => ?_⟩
          cases ht
          rfl
      | cons item rest =>
        obtain ⟨after, hn, hrest⟩ := Lexer.next_of_items_cons hi
        have hi' : r'.lexer.items = item :: (rest ++ more) := by rw [h.items, hi, List.cons_append]
        obtain ⟨after', hn', hrest'⟩ := Lexer.next_of_items_cons hi'
        have behind : after'.items = after.items ++ more := by rw [hrest', hrest]
        rw [hn, hn']
        cases item with
        | ok t =>
          refine .ok ⟨rfl, h.precedences, behind, fun hf => ?_⟩
          cases hf
          rw [Lexer.items_of_finish hn] at hi
          cases hi
        | error cause =>
          refine .error ⟨rfl, h.precedences, behind, fun hf => ?_⟩
          cases hf
  stays {r} h := by
    cases hl : r.looked with
    | some t =>
      rw [peek_of_looked hl]
      exact h
    | none =>
      simp only [peek, hl, h.next]
      refine ⟨Lexer.items_empty, fun t ht => ?_⟩
      cases ht
      rfl

/-- At the end of the source, its end is in view. -/
theorem peek_of_over (h : r.Over) : ∃ s, peek r = .ok .finish s := by
  cases hl : r.looked with
  | some t =>
    obtain rfl := h.looked t hl
    exact ⟨r, peek_of_looked hl⟩
  | none => exact ⟨{ r with lexer := {}, looked := some .finish }, by simp only [peek, hl, h.next]⟩

theorem ignores_advance : Ignores more advance where
  alongside h := .ok h.advance
  stays h := ⟨h.items, fun t ht => by cases ht⟩

/-- What is done with a token depends on that token only. -/
theorem ignores_accept (choose : Token → Option α) : Ignores more (accept choose) := by
  unfold accept
  refine ignores_peek.bind fun t => ?_
  dsimp only
  split
  · exact ignores_advance.bind fun _ => ignores_pure _
  · exact ignores_pure _

theorem ignores_acceptIf (test : Token → Bool) : Ignores more (acceptIf test) :=
  (ignores_accept _).bind fun _ => ignores_pure _

theorem ignores_demand (choose : Token → Option α) (wanted : Expectation) :
    Ignores more (demand choose wanted) := by
  unfold demand
  refine (ignores_accept choose).bind fun o => ?_
  cases o with
  | none => exact ignores_throw _
  | some x => exact ignores_pure x

theorem ignores_symbol (c : Char) (wanted : Expectation) : Ignores more (symbol c wanted) :=
  ignores_demand _ wanted

theorem ignores_keyword (k : Keyword) (wanted : Expectation) : Ignores more (keyword k wanted) :=
  ignores_demand _ wanted

end Tokens

section Expressions

variable {e : Read Expr} {l : Read (List Expr)}

/-- The precedences are the same for both, so both take the operator or leave it. -/
theorem ignores_binaryOperator (least : Int) : Ignores more (binaryOperator least) :=
  ignores_get (fun r r' h => by rw [h]) fun r => ignores_accept _

theorem ignores_strongerFollows (precedence : Int) : Ignores more (strongerFollows precedence) :=
  ignores_peek.bind fun t => ignores_get (fun r r' h => by rw [h]) fun r => ignores_pure _

theorem ignores_group (he : Ignores more e) : Ignores more (group e) :=
  he.bind fun x => (ignores_symbol _ _).bind fun _ => ignores_pure x

theorem ignores_nameOrCall (hl : Ignores more l) (name : String) :
    Ignores more (nameOrCall name l) := by
  unfold nameOrCall
  refine (ignores_acceptIf _).bind fun b => ?_
  split
  · refine (ignores_acceptIf _).bind fun b => ?_
    split
    · exact ignores_pure _
    · exact hl.bind fun args => ignores_pure _
  · exact ignores_pure _

theorem ignores_conditional (he : Ignores more e) : Ignores more (conditional e) :=
  he.bind fun _ => (ignores_keyword _ _).bind fun _ => he.bind fun _ =>
    (ignores_keyword _ _).bind fun _ => he.bind fun _ => ignores_pure _

theorem ignores_loopStep (he : Ignores more e) : Ignores more (loopStep e) := by
  unfold loopStep
  refine (ignores_acceptIf _).bind fun b => ?_
  split
  · exact he.bind fun x => ignores_pure _
  · exact ignores_pure _

theorem ignores_loop (he : Ignores more e) : Ignores more (loop e) :=
  (ignores_demand _ _).bind fun _ => (ignores_symbol _ _).bind fun _ => he.bind fun _ =>
    (ignores_symbol _ _).bind fun _ => he.bind fun _ => (ignores_loopStep he).bind fun _ =>
    (ignores_keyword _ _).bind fun _ => he.bind fun _ => ignores_pure _

theorem ignores_primary (he : Ignores more e) (hl : Ignores more l) :
    Ignores more (primary e l) := by
  unfold primary
  refine (ignores_demand _ _).bind fun opening => ?_
  cases opening with
  | name text => exact ignores_nameOrCall hl text
  | number value => exact ignores_pure _
  | group => exact ignores_group he
  | conditional => exact ignores_conditional he
  | loop => exact ignores_loop he

/-- Both go on with a stronger operator, or do not. -/
theorem ignores_rightOperand {climb : Int → Expr → Read Expr}
    (hc : ∀ least left, Ignores more (climb least left)) (precedence : Int) (operand : Expr) :
    Ignores more (rightOperand climb precedence operand) := by
  unfold rightOperand
  refine (ignores_strongerFollows precedence).bind fun b => ?_
  split
  · exact hc _ _
  · exact ignores_pure _

/-- The calls of recursive descent, under the same bound in both readers. -/
theorem ignores_within (n : Nat) :
    Ignores more (unaryWithin n) ∧ (∀ least left, Ignores more (binaryWithin n least left)) ∧
      Ignores more (expressionWithin n) ∧ Ignores more (argumentsWithin n) := by
  induction n with
  | zero =>
    exact ⟨ignores_throw _, fun _ _ => ignores_throw _, ignores_throw _, ignores_throw _⟩
  | succ n ih =>
    obtain ⟨hu, hb, he, ha⟩ := ih
    refine ⟨?_, fun least left => ?_, ?_, ?_⟩
    · unfold unaryWithin
      refine (ignores_accept _).bind fun o => ?_
      cases o with
      | some op => exact hu.bind fun x => ignores_pure _
      | none => exact ignores_primary he ha
    · unfold binaryWithin
      refine (ignores_binaryOperator least).bind fun o => ?_
      cases o with
      | none => exact ignores_pure _
      | some found =>
        exact hu.bind fun operand => (ignores_rightOperand hb _ _).bind fun right => hb _ _
    · unfold expressionWithin
      exact hu.bind fun left => hb 0 left
    · unfold argumentsWithin
      refine he.bind fun arg => (ignores_acceptIf _).bind fun b => ?_
      split
      · exact ignores_pure _
      · exact (ignores_symbol _ _).bind fun _ => ha.bind fun args => ignores_pure _

theorem ignores_expression : Ignores more expression :=
  .of_within (fun n => (ignores_within n).2.2.1) expressionWithin_eq

end Expressions

section Forms

/-- If no number follows, the precedence is left unstated in both. -/
theorem ignores_operatorPrecedence : Ignores more operatorPrecedence := by
  unfold operatorPrecedence
  refine ignores_peek.bind fun t => ?_
  split
  · dsimp only
    split
    · exact ignores_throw _
    · exact ignores_advance.bind fun _ => ignores_pure _
  · exact ignores_pure _

/-- The first token decides what is declared. -/
theorem ignores_head : Ignores more head := by
  unfold head
  refine (ignores_demand _ _).bind fun opening => ?_
  cases opening with
  | function name => exact ignores_pure _
  | unary => exact (ignores_demand _ _).bind fun op => ignores_pure _
  | binary =>
    exact (ignores_demand _ _).bind fun op => ignores_operatorPrecedence.bind fun p => ignores_pure _

/-- Every name uses up a token, so a bound that is large enough for what is left may be larger. -/
theorem agree_namesWithin (n : Nat) : ∀ {k m : Nat}, k < n → k < m →
    Agree k (namesWithin n) (namesWithin m) := by
  induction n with
  | zero => exact fun h => absurd h (Nat.not_lt_zero _)
  | succ n ih =>
    intro k m hn hm r hr
    obtain ⟨m, rfl⟩ : ∃ j, m = j + 1 := ⟨m - 1, by omega⟩
    unfold namesWithin
    cases ho : accept Token.name? r with
    | error e s => rw [bind_of_error ho, bind_of_error ho]
    | ok o s =>
      have used := accept_ok rfl ho
      rw [bind_of_ok ho, bind_of_ok ho]
      cases o with
      | none => rfl
      | some name =>
        simp only [Option.isSome_some, if_true] at used
        have rest := ih (k := s.size) (m := m) (by omega) (by omega) s (Nat.le_refl _)
        dsimp only
        cases hx : namesWithin m s with
        | ok names t => rw [bind_of_ok hx, bind_of_ok (rest.trans hx)]
        | error e t => rw [bind_of_error hx, bind_of_error (rest.trans hx)]

/-- Any bound that is not below the number of tokens left reads all the names. -/
theorem namesWithin_eq {n : Nat} (h : fuel r ≤ n) : namesWithin n r = names r := by
  unfold fuel at h
  exact agree_namesWithin n (k := r.size) (by omega) (by unfold fuel; omega) r (Nat.le_refl _)

/-- The bounds of the two readers differ, and neither is reached. -/
theorem ignores_names : Ignores more names := by
  refine .of_within (fun n => ?_) namesWithin_eq
  induction n with
  | zero => exact ignores_pure _
  | succ n ih =>
    unfold namesWithin
    refine (ignores_accept _).bind fun o => ?_
    cases o with
    | none => exact ignores_pure _
    | some name => exact ih.bind fun names => ignores_pure _

/-- What is checked behind the parameters was read by then. -/
theorem ignores_prototype : Ignores more prototype := by
  unfold prototype
  refine ignores_head.bind fun head => (ignores_symbol _ _).bind fun _ => ?_
  refine ignores_names.bind fun params => (ignores_symbol _ _).bind fun _ => ?_
  cases operands head with
  | none => exact ignores_pure _
  | some n =>
    dsimp only
    split
    · exact (ignores_throw _).bind fun _ => ignores_pure _
    · exact ignores_pure _

theorem ignores_declareOperator (proto : Prototype) : Ignores more (declareOperator proto) := by
  unfold declareOperator
  split
  · refine ignores_get (fun r r' h => by rw [h]) fun r => ?_
    split
    · exact ignores_throw _
    · next previous precedences _ =>
      exact (ignores_modify fun _ => precedences).bind fun _ => ignores_pure _
  · exact ignores_pure _

/-- The body is read with the precedences that the prototype leaves. -/
theorem ignores_definition : Ignores more definition := by
  rw [definition_eq]
  refine (ignores_keyword _ _).bind fun _ => ignores_prototype.bind fun proto => ?_
  refine (ignores_declareOperator proto).bind fun takeBack => Ignores.catch ?_ fun e => ?_
  · exact ignores_expression.bind fun body => ignores_pure _
  · exact (ignores_modify takeBack).bind fun _ => ignores_throw e

theorem ignores_declaration : Ignores more declaration :=
  (ignores_keyword _ _).bind fun _ => ignores_prototype.bind fun proto =>
    (ignores_declareOperator proto).bind fun _ => ignores_pure proto

/-- The current token decides which form follows. -/
theorem ignores_formAt (t : Token) : Ignores more (formAt t) := by
  unfold formAt
  split
  · exact ignores_pure _
  · exact ignores_advance.bind fun _ => ignores_pure _
  · exact ignores_definition.bind fun d => ignores_pure _
  · exact ignores_declaration.bind fun proto => ignores_pure _
  · exact (ignores_expression.bind fun body => ignores_pure _).bind fun d => ignores_pure _

/-- Reading a form does not look beyond its tokens, unless it comes to the end of the source. -/
theorem ignores_form : Ignores more form :=
  (ignores_peek.bind ignores_formAt).catch fun e => ignores_advance.bind fun _ => ignores_throw e

/-- What a token has begun: nothing at the end of the source, a separator, or another form. -/
theorem formAt_cases {t : Token} {x : Option Form} {s : Reader} (h : formAt t r = .ok x s) :
    (t = .finish ∧ x = none ∧ s = r) ∨
      (t = .symbol ';' ∧ x = some .separator ∧ s = { r with looked := none }) ∨
      ∃ form, x = some form ∧ form ≠ .separator := by
  have other : ∀ {β : Type} {a : Read β} {make : β → Form}, (∀ y, make y ≠ .separator) →
      (do return some (make (← a)) : Read (Option Form)) r = .ok x s →
      ∃ form, x = some form ∧ form ≠ .separator := by
    intro β a make hm h
    obtain ⟨y, u, -, h⟩ := bind_eq_ok.1 h
    cases h
    exact ⟨make y, rfl, hm y⟩
  unfold formAt at h
  split at h
  · cases h
    exact .inl ⟨rfl, rfl, rfl⟩
  · cases h
    exact .inr (.inl ⟨rfl, rfl, rfl⟩)
  · exact .inr (.inr (other (fun d he => by cases he) h))
  · exact .inr (.inr (other (fun proto he => by cases he) h))
  · exact .inr (.inr (other (fun d he => by cases he) h))

/-- Reading a form begins with looking at its first token. -/
theorem of_form_ok {x : Option Form} {s : Reader} (h : form r = .ok x s) :
    ∃ t u, peek r = .ok t u ∧ formAt t u = .ok x s := by
  cases hb : (peek >>= formAt) r with
  | error e u => cases (tryCatch_of_error hb).symm.trans h
  | ok y u =>
    cases (tryCatch_of_ok hb _).symm.trans h
    exact bind_eq_ok.1 hb

theorem form_of_peek {t : Token} {u s : Reader} {x : Option Form} (hp : peek r = .ok t u)
    (h : formAt t u = .ok x s) : form r = .ok x s := by
  have read : (peek >>= formAt) r = .ok x s := (bind_of_ok hp formAt).trans h
  exact tryCatch_of_ok read _

/-- There is no form where the end of the source is in view, and only there. -/
theorem form_finish {s : Reader} : form r = .ok none s ↔ peek r = .ok .finish s := by
  constructor
  · intro h
    obtain ⟨t, u, hp, hf⟩ := of_form_ok h
    rcases formAt_cases hf with ⟨rfl, -, rfl⟩ | ⟨-, hx, -⟩ | ⟨form, hx, -⟩
    · exact hp
    · cases hx
    · cases hx
  · exact fun hp => form_of_peek hp rfl

/-- A separator is read without a look at what comes behind it. -/
theorem form_separator {s : Reader} (h : form r = .ok (some .separator) s) (hr : r.Longer more r') :
    s.looked = none ∧ ∃ s', form r' = .ok (some .separator) s' ∧ s.Longer more s' := by
  obtain ⟨t, u, hp, hf⟩ := of_form_ok h
  have separator : t = .symbol ';' ∧ s = { u with looked := none } := by
    rcases formAt_cases hf with ⟨-, hx, -⟩ | ⟨ht, -, hs⟩ | ⟨form, hx, hne⟩
    · cases hx
    · exact ⟨ht, hs⟩
    · cases hx
      exact absurd rfl hne
  obtain ⟨rfl, rfl⟩ := separator
  refine ⟨rfl, ?_⟩
  have first := ignores_peek.alongside hr
  generalize hp' : peek r' = result at first
  rw [hp] at first
  cases first with
  | ok longer => exact ⟨_, form_of_peek hp' rfl, longer.advance⟩
  | ended _ ends => cases ends.looked _ (peek_ok hp).1

end Forms

end Read

end Kaleidoscope
