import Kaleidoscope.Proofs.Reading.Bound

/-!
# What reading an expression keeps

`Reads I P a` says that reading by `a` keeps `I`, gives what satisfies `P`, and fails for reasons of
the form only. If looking at the current token and using it up keep `I`, so does reading a whole
expression (`reads_expression`), and the words and symbols of the tree are those of tokens.
-/

namespace Kaleidoscope

/-- Every name in the expression satisfies `N`, and every operator satisfies `S`. -/
inductive Expr.Spelled (N : String → Prop) (S : Char → Prop) : Expr → Prop
  | number (x : Float) : Spelled N S (.number x)
  | name {x : String} : N x → Spelled N S (.variable x)
  | unary {op : Char} {e : Expr} : S op → Spelled N S e → Spelled N S (.unary op e)
  | binary {op : Char} {l r : Expr} :
    S op → Spelled N S l → Spelled N S r → Spelled N S (.binary op l r)
  | conditional {c y n : Expr} :
    Spelled N S c → Spelled N S y → Spelled N S n → Spelled N S (.conditional c y n)
  | loop {var : String} {start goOn body : Expr} {step : Option Expr} :
    N var → Spelled N S start → Spelled N S goOn → (∀ e ∈ step, Spelled N S e) →
    Spelled N S body → Spelled N S (.loop var start goOn step body)
  | call {f : String} {args : List Expr} :
    N f → (∀ e ∈ args, Spelled N S e) → Spelled N S (.call f args)

/-- Names and operators may satisfy less. -/
theorem Expr.Spelled.mono {N N' : String → Prop} {S S' : Char → Prop} (hn : ∀ x, N x → N' x)
    (hs : ∀ c, S c → S' c) {e : Expr} (he : e.Spelled N S) : e.Spelled N' S' := by
  induction he with
  | number => exact .number _
  | name hx => exact .name (hn _ hx)
  | unary hc _ ih => exact .unary (hs _ hc) ih
  | binary hc _ _ ihl ihr => exact .binary (hs _ hc) ihl ihr
  | conditional _ _ _ ihc ihy ihn => exact .conditional ihc ihy ihn
  | loop hv _ _ _ _ ihs ihg iht ihb => exact .loop (hn _ hv) ihs ihg iht ihb
  | call hf _ ih => exact .call (hn _ hf) ih

/-- The text of a name satisfies `N`, and a symbol satisfies `S`. -/
def Token.Spelled (N : String → Prop) (S : Char → Prop) : Token → Prop
  | .name text => N text
  | .symbol c => S c
  | _ => True

namespace Read

variable {α β : Type}

/-- Reading keeps `I`, its result satisfies `P`, and a fault is one of the form. -/
abbrev Reads (I : Reader → Prop) (P : α → Prop) (a : Read α) : Prop :=
  Keeps I P Fault.Static a

/-- The two steps of every reading keep `I`, and the tokens they show satisfy `T`. -/
structure Lasting (I : Reader → Prop) (T : Token → Prop) : Prop where
  peek : Reads I T peek
  advance : Reads I (fun _ => True) advance

section Tokens

variable {I : Reader → Prop} {T : Token → Prop}

/-- A token is looked at, and then used up or not. -/
theorem reads_accept (h : Lasting I T) (choose : Token → Option α) :
    Reads I (fun o => ∀ a ∈ o, ∃ t, T t ∧ choose t = some a) (accept choose) := by
  unfold accept
  apply h.peek.bind
  intro t ht
  have result : ∀ a ∈ choose t, ∃ t, T t ∧ choose t = some a := fun a ha => ⟨t, ht, ha⟩
  dsimp only
  split
  · exact h.advance.bind fun _ _ => keeps_pure result
  · exact keeps_pure result

theorem reads_acceptIf (h : Lasting I T) (test : Token → Bool) :
    Reads I (fun _ => True) (acceptIf test) :=
  (reads_accept h _).bind fun _ _ => keeps_pure trivial

/-- A demand that is not met is a fault of the form. -/
theorem reads_demand (h : Lasting I T) (choose : Token → Option α) (wanted : Expectation) :
    Reads I (fun a => ∃ t, T t ∧ choose t = some a) (demand choose wanted) := by
  unfold demand
  apply (reads_accept h choose).bind
  intro o ho
  cases o with
  | none => exact keeps_throw nofun
  | some a => exact keeps_pure (ho a rfl)

theorem reads_symbol (h : Lasting I T) (c : Char) (wanted : Expectation) :
    Reads I (fun _ => True) (symbol c wanted) :=
  (reads_demand h _ wanted).mono fun _ _ => trivial

theorem reads_keyword (h : Lasting I T) (k : Keyword) (wanted : Expectation) :
    Reads I (fun _ => True) (keyword k wanted) :=
  (reads_demand h _ wanted).mono fun _ _ => trivial

end Tokens

section Expressions

variable {I : Reader → Prop} {N : String → Prop} {S : Char → Prop}

/-- The name that a token gives is its text. -/
theorem spelled_name {t : Token} {name : String} (ht : t.Spelled N S) (hc : t.name? = some name) :
    N name := by
  cases t <;> simp [Token.name?] at hc
  exact hc ▸ ht

/-- A name that is demanded is one of the text. -/
theorem reads_name (h : Lasting I (Token.Spelled N S)) (wanted : Expectation) :
    Reads I N (demand Token.name? wanted) := by
  apply (reads_demand h _ wanted).mono
  intro x hx
  obtain ⟨t, ht, hc⟩ := hx
  exact spelled_name ht hc

theorem spelled_symbol {t : Token} {c : Char} (ht : t.Spelled N S) (hc : t.symbol? = some c) :
    S c := by
  cases t <;> simp [Token.symbol?] at hc
  exact hc ▸ ht

theorem spelled_opening {t : Token} {o : Opening} (ht : t.Spelled N S)
    (ho : Opening.ofToken? t = some o) {text : String} (hn : o = .name text) : N text := by
  subst hn
  unfold Opening.ofToken? at ho
  split at ho <;> cases ho
  exact ht

/-- An operator that is taken is a symbol of the text. -/
theorem reads_binaryOperator (h : Lasting I (Token.Spelled N S)) (least : Int) :
    Reads I (fun o => ∀ found ∈ o, S found.1) (binaryOperator least) := by
  unfold binaryOperator
  refine keeps_get.bind fun r _ => (reads_accept h _).mono fun o ho found hf => ?_
  obtain ⟨t, ht, hc⟩ := ho found hf
  obtain ⟨hc, -⟩ := Option.filter_eq_some_iff.1 hc
  obtain ⟨op, hs, hp⟩ := Option.bind_eq_some_iff.1 hc
  obtain ⟨p, -, rfl⟩ := Option.map_eq_some_iff.1 hp
  exact spelled_symbol ht hs

theorem reads_strongerFollows (h : Lasting I (Token.Spelled N S)) (p : Int) :
    Reads I (fun _ => True) (strongerFollows p) :=
  h.peek.bind fun _ _ => keeps_get.bind fun _ _ => keeps_pure trivial

variable {e : Read Expr} {l : Read (List Expr)}

theorem reads_group (h : Lasting I (Token.Spelled N S)) (he : Reads I (Expr.Spelled N S) e) :
    Reads I (Expr.Spelled N S) (group e) :=
  he.bind fun _ hx => (reads_symbol h _ _).bind fun _ _ => keeps_pure hx

/-- The name of a variable or of a function that is called is one of the text. -/
theorem reads_nameOrCall (h : Lasting I (Token.Spelled N S))
    (hl : Reads I (fun es => ∀ e ∈ es, Expr.Spelled N S e) l) {name : String} (hn : N name) :
    Reads I (Expr.Spelled N S) (nameOrCall name l) := by
  unfold nameOrCall
  apply (reads_acceptIf h _).bind
  intro b _
  split
  · apply (reads_acceptIf h _).bind
    intro b _
    split
    · exact keeps_pure (.call hn (by simp))
    · exact hl.bind fun es hes => keeps_pure (.call hn hes)
  · exact keeps_pure (.name hn)

theorem reads_conditional (h : Lasting I (Token.Spelled N S)) (he : Reads I (Expr.Spelled N S) e) :
    Reads I (Expr.Spelled N S) (conditional e) :=
  he.bind fun _ hc => (reads_keyword h _ _).bind fun _ _ => he.bind fun _ hy =>
    (reads_keyword h _ _).bind fun _ _ => he.bind fun _ hn => keeps_pure (.conditional hc hy hn)

theorem reads_loopStep (h : Lasting I (Token.Spelled N S)) (he : Reads I (Expr.Spelled N S) e) :
    Reads I (fun step => ∀ e ∈ step, Expr.Spelled N S e) (loopStep e) := by
  unfold loopStep
  apply (reads_acceptIf h _).bind
  intro b _
  split
  · exact he.bind fun x hx => keeps_pure (by simpa using hx)
  · exact keeps_pure (by simp)

/-- The variable of a loop is one of the text too. -/
theorem reads_loop (h : Lasting I (Token.Spelled N S)) (he : Reads I (Expr.Spelled N S) e) :
    Reads I (Expr.Spelled N S) (loop e) := by
  unfold loop
  apply (reads_name h _).bind
  intro var hv
  refine (reads_symbol h _ _).bind fun _ _ => he.bind fun start hs => ?_
  refine (reads_symbol h _ _).bind fun _ _ => he.bind fun goOn hg => ?_
  apply (reads_loopStep h he).bind
  intro step ht
  refine (reads_keyword h _ _).bind fun _ _ => he.bind fun body hb => ?_
  exact keeps_pure (.loop hv hs hg ht hb)

/-- One case for each token that an expression opens with. -/
theorem reads_primary (h : Lasting I (Token.Spelled N S)) (he : Reads I (Expr.Spelled N S) e)
    (hl : Reads I (fun es => ∀ e ∈ es, Expr.Spelled N S e) l) :
    Reads I (Expr.Spelled N S) (primary e l) := by
  unfold primary
  apply (reads_demand h _ _).bind
  intro o ho
  obtain ⟨t, ht, hc⟩ := ho
  cases o with
  | name text => exact reads_nameOrCall h hl (spelled_opening ht hc rfl)
  | number value => exact keeps_pure (.number value)
  | group => exact reads_group h he
  | conditional => exact reads_conditional h he
  | loop => exact reads_loop h he

/-- The right operand is kept as it is, or climbed from. -/
theorem reads_rightOperand (h : Lasting I (Token.Spelled N S)) {climb : Int → Expr → Read Expr}
    {operand : Expr} (ho : operand.Spelled N S)
    (hc : ∀ least, Reads I (Expr.Spelled N S) (climb least operand)) (p : Int) :
    Reads I (Expr.Spelled N S) (rightOperand climb p operand) := by
  unfold rightOperand
  apply (reads_strongerFollows h p).bind
  intro b _
  split
  · exact hc _
  · exact keeps_pure ho

/-- By induction on the bound, which all four calls of recursive descent share. -/
theorem reads_within (h : Lasting I (Token.Spelled N S)) (n : Nat) :
    Reads I (Expr.Spelled N S) (unaryWithin n) ∧
      (∀ least left, left.Spelled N S → Reads I (Expr.Spelled N S) (binaryWithin n least left)) ∧
      Reads I (Expr.Spelled N S) (expressionWithin n) ∧
      Reads I (fun es => ∀ e ∈ es, Expr.Spelled N S e) (argumentsWithin n) := by
  induction n with
  | zero =>
    have none : ∀ {α : Type} {P : α → Prop}, Reads I P (throw (.unexpected .expression)) :=
      keeps_throw nofun
    exact ⟨none, fun _ _ _ => none, none, none⟩
  | succ n ih =>
    obtain ⟨hu, hb, he, ha⟩ := ih
    refine ⟨?_, ?_, ?_, ?_⟩
    · unfold unaryWithin
      apply (reads_accept h _).bind
      intro o ho
      cases o with
      | none => exact reads_primary h he ha
      | some op =>
        obtain ⟨t, ht, hc⟩ := ho op rfl
        have hs : S op := spelled_symbol ht (Option.filter_eq_some_iff.1 hc).1
        exact hu.bind fun x hx => keeps_pure (.unary hs hx)
    · intro least left hleft
      unfold binaryWithin
      apply (reads_binaryOperator h least).bind
      intro o ho
      cases o with
      | none => exact keeps_pure hleft
      | some found =>
        apply hu.bind
        intro operand hop
        refine (reads_rightOperand h hop (fun least => hb least operand hop) _).bind
          fun right hr => ?_
        exact hb least _ (.binary (ho found rfl) hleft hr)
    · unfold expressionWithin
      exact hu.bind fun left hleft => hb 0 left hleft
    · unfold argumentsWithin
      refine he.bind fun arg harg => (reads_acceptIf h _).bind fun b _ => ?_
      split
      · exact keeps_pure (by simpa using harg)
      · refine (reads_symbol h _ _).bind fun _ _ => ha.bind fun es hes => keeps_pure ?_
        exact List.forall_mem_cons.2 ⟨harg, hes⟩

theorem reads_unary (h : Lasting I (Token.Spelled N S)) : Reads I (Expr.Spelled N S) unary where
  ok hi hr := (reads_within h _).1.ok hi hr
  error hi hr := (reads_within h _).1.error hi hr

/-- What peeking and advancing keep is kept by reading an expression, whose names and operators are
those of tokens. -/
theorem reads_expression (h : Lasting I (Token.Spelled N S)) :
    Reads I (Expr.Spelled N S) expression where
  ok hi hr := (reads_within h _).2.2.1.ok hi hr
  error hi hr := (reads_within h _).2.2.1.error hi hr

end Expressions

/-- Reading does not change the precedences: only a form that declares an operator does. -/
theorem lasting_precedences (table : Precedences) :
    Lasting (fun r => r.precedences = table) (Token.Spelled (fun _ => True) fun _ => True) where
  peek := {
    ok := by
      intro r t s hi h
      unfold peek at h
      refine ⟨?_, by cases t <;> trivial⟩
      split at h
      · cases h
        exact hi
      · split at h <;> cases h
        exact hi
    error := by
      intro r e s hi h
      unfold peek at h
      split at h
      · cases h
      · split at h <;> cases h
        exact ⟨hi, nofun⟩ }
  advance := {
    ok := by
      intro r x s hi h
      cases h
      exact ⟨hi, trivial⟩
    error := fun _ h => nomatch h }

end Read

end Kaleidoscope
