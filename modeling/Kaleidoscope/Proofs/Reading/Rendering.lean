import Kaleidoscope.Proofs.Expr.Induction
import Kaleidoscope.Proofs.Reading.Stream
import Kaleidoscope.Proofs.Reading.Unbounded

/-!
# Writing an expression down

`Expr.tokens` writes an expression as tokens, with parentheses around its parts. Which parts get
them is a parameter: the compound ones must. The reader takes back what was written
(`expression_tokens`), whatever comes next, as long as this cannot go on with the expression.

`Takes` says that a reading gets through given tokens. What comes next is a part of it, since an
expression is over only where the token behind it is seen.
-/

namespace Kaleidoscope

/-- The extent of the expression is not shown by its own first and last tokens. -/
def Expr.isCompound : Expr → Bool
  | .number _ | .variable _ | .call _ _ => false
  | .unary _ _ | .binary _ _ _ | .conditional _ _ _ | .loop _ _ _ _ _ => true

/-- The tokens, in parentheses if they are wanted. -/
def enclose (wanted : Bool) (ts : List Token) : List Token :=
  if wanted then .symbol '(' :: ts ++ [.symbol ')'] else ts

mutual

/-- The tokens of an expression; `wrap` tells which of its parts stand in parentheses. -/
def Expr.tokens (wrap : Expr → Bool) : Expr → List Token
  | .number x => [.number x]
  | .variable name => [.name name]
  | .unary op e => .symbol op :: enclose (wrap e) (e.tokens wrap)
  | .binary op l r =>
    enclose (wrap l) (l.tokens wrap) ++ .symbol op :: enclose (wrap r) (r.tokens wrap)
  | .conditional c y n =>
    .keyword .ifWord :: (enclose (wrap c) (c.tokens wrap) ++
      .keyword .thenWord :: (enclose (wrap y) (y.tokens wrap) ++
        .keyword .elseWord :: enclose (wrap n) (n.tokens wrap)))
  | .loop var start goOn step body =>
    .keyword .forWord :: .name var :: .symbol '=' :: (enclose (wrap start) (start.tokens wrap) ++
      .symbol ',' :: (enclose (wrap goOn) (goOn.tokens wrap) ++ (Expr.stepTokens wrap step ++
        .keyword .inWord :: enclose (wrap body) (body.tokens wrap))))
  | .call f args => .name f :: .symbol '(' :: (Expr.argumentTokens wrap args ++ [.symbol ')'])

/-- The tokens of the step of a loop, none if it has none. -/
def Expr.stepTokens (wrap : Expr → Bool) : Option Expr → List Token
  | none => []
  | some e => .symbol ',' :: enclose (wrap e) (e.tokens wrap)

/-- The tokens of arguments, with commas between them. -/
def Expr.argumentTokens (wrap : Expr → Bool) : List Expr → List Token
  | [] => []
  | e :: es => enclose (wrap e) (e.tokens wrap) ++ Expr.moreTokens wrap es

/-- The tokens of further arguments, each behind a comma. -/
def Expr.moreTokens (wrap : Expr → Bool) : List Expr → List Token
  | [] => []
  | e :: es => .symbol ',' :: (enclose (wrap e) (e.tokens wrap) ++ Expr.moreTokens wrap es)

end

/-- The operators of the expression can be written: the unary ones are ASCII symbols, and the binary
ones have a precedence. A parenthesis opens a group and a point begins a number, so that neither is
a unary operator. -/
inductive Expr.Writable (table : Precedences) : Expr → Prop
  | number (x : Float) : Writable table (.number x)
  | variable (name : String) : Writable table (.variable name)
  | unary {op : Char} {e : Expr} :
    op.toNat < 128 → op ≠ '(' → op ≠ '.' → Writable table e → Writable table (.unary op e)
  | binary {op : Char} {l r : Expr} :
    (table.get? op).isSome → Writable table l → Writable table r → Writable table (.binary op l r)
  | conditional {c y n : Expr} :
    Writable table c → Writable table y → Writable table n → Writable table (.conditional c y n)
  | loop {var : String} {start goOn body : Expr} {step : Option Expr} :
    Writable table start → Writable table goOn → (∀ e ∈ step, Writable table e) →
    Writable table body → Writable table (.loop var start goOn step body)
  | call {f : String} {args : List Expr} :
    (∀ e ∈ args, Writable table e) → Writable table (.call f args)

namespace Read

variable {α β : Type} {table : Precedences} {rest : List Item} {ts us : List Token}

/-- Wherever the tokens stand at the front and the rest behind them, the reading uses up exactly
these tokens, and gives the result. -/
structure Takes (table : Precedences) (rest : List Item) (ts : List Token) (x : α) (a : Read α) :
    Prop where
  ok : ∀ {r}, r.precedences = table → r.items = ts.map .ok ++ rest →
    ∃ s, a r = .ok x s ∧ s.items = rest ∧ s.precedences = table

section Rules

variable {a : Read α} {f : α → Read β} {x : α} {y : β} {t : Token}

/-- The first reading takes its tokens in front of those of the second. -/
theorem Takes.bind (ha : Takes table (us.map .ok ++ rest) ts x a)
    (hf : Takes table rest us y (f x)) : Takes table rest (ts ++ us) y (a >>= f) where
  ok := by
    intro r hr hi
    obtain ⟨u, hx, hu, hp⟩ := ha.ok hr (by rw [hi, List.map_append, List.append_assoc])
    obtain ⟨s, hy, hs⟩ := hf.ok hp hu
    exact ⟨s, by rw [bind_of_ok hx, hy], hs⟩

theorem Takes.cons (ha : Takes table (us.map .ok ++ rest) [t] x a)
    (hf : Takes table rest us y (f x)) : Takes table rest (t :: us) y (a >>= f) :=
  Takes.bind ha hf

theorem Takes.skip (ha : Takes table (us.map .ok ++ rest) [] x a)
    (hf : Takes table rest us y (f x)) : Takes table rest us y (a >>= f) :=
  Takes.bind ha hf

theorem takes_pure : Takes table rest [] x (pure x) where
  ok hr hi := ⟨_, rfl, hi, hr⟩

theorem Takes.last (ha : Takes table rest ts x a) (hf : Takes table rest [] y (f x)) :
    Takes table rest ts y (a >>= f) := by
  have front : Takes table (([] : List Token).map .ok ++ rest) ts x a := ha
  rw [← List.append_nil ts]
  exact front.bind hf

section Tokens

variable {choose : Token → Option α} {wanted : Expectation}

theorem takes_accept (hc : choose t = some x) (hend : choose .finish = none) :
    Takes table rest [t] (some x) (accept choose) where
  ok := by
    intro r hr hi
    obtain ⟨s, hs, hrest, hp⟩ := accept_some_of_items hi hc hend
    exact ⟨s, hs, hrest, hp.trans hr⟩

theorem takes_accept_none (ht : current? rest = some t) (hc : choose t = none) :
    Takes table rest [] none (accept choose) where
  ok := by
    rintro r hr rfl
    obtain ⟨s, hs, hi, hp⟩ := accept_none_of_items ht hc
    exact ⟨s, hs, hi, hp.trans hr⟩

theorem takes_demand (hc : choose t = some x) (hend : choose .finish = none) :
    Takes table rest [t] x (demand choose wanted) :=
  (takes_accept hc hend).bind takes_pure

theorem takes_symbol (c : Char) : Takes table rest [.symbol c] () (symbol c wanted) :=
  takes_demand (if_pos (by simp)) (by rfl)

theorem takes_keyword (k : Keyword) : Takes table rest [.keyword k] () (keyword k wanted) :=
  takes_demand (if_pos (by simp)) (by rfl)

theorem takes_acceptSymbol (c : Char) :
    Takes table rest [.symbol c] true (acceptIf (·.isSymbol c)) :=
  (takes_accept (if_pos (by simp)) (by rfl)).bind takes_pure

theorem takes_acceptSymbol_false {c : Char} (ht : current? rest = some t) (hc : t ≠ .symbol c) :
    Takes table rest [] false (acceptIf (·.isSymbol c)) :=
  (takes_accept_none ht (by simp [hc])).skip takes_pure

end Tokens

end Rules

/-- What comes next cannot make a call of a name. -/
def Clear (rest : List Item) : Prop :=
  ∃ t, current? rest = some t ∧ t ≠ .symbol '('

/-- What comes next cannot go on with an expression: the next token neither opens a parenthesis nor
is an operator. -/
def Closes (table : Precedences) (rest : List Item) : Prop :=
  ∃ t, current? rest = some t ∧ t ≠ .symbol '(' ∧ table.operator? t = none

/-- What cannot go on with an expression cannot make a call of a name. -/
theorem Closes.clear (h : Closes table rest) : Clear rest := by
  obtain ⟨t, ht, hc, -⟩ := h
  exact ⟨t, ht, hc⟩

/-- Keywords go on with no expression. -/
theorem closes_keyword (k : Keyword) : Closes table (.ok (.keyword k) :: rest) :=
  ⟨.keyword k, rfl, nofun, rfl⟩

/-- A symbol that is no operator and opens no parenthesis goes on with none either. -/
theorem closes_symbol {c : Char} (hc : c ≠ '(') (ht : table.get? c = none) :
    Closes table (.ok (.symbol c) :: rest) :=
  ⟨.symbol c, rfl, by simpa using hc, by simp [ht]⟩

section Operators

variable {least p : Int} {op : Char}

theorem takes_binaryOperator (ho : table.get? op = some p) (hl : least ≤ p) :
    Takes table rest [.symbol op] (some (op, p)) (binaryOperator least) where
  ok := by
    rintro r rfl hi
    refine (takes_accept (t := .symbol op) ?_ (by rfl)).ok rfl hi
    simp [ho, hl]

/-- Nothing that closes an expression is taken for an operator. -/
theorem takes_binaryOperator_none (h : Closes table rest) :
    Takes table rest [] none (binaryOperator least) where
  ok := by
    rintro r rfl hi
    obtain ⟨t, ht, -, ho⟩ := h
    exact (takes_accept_none ht (by simp [ho])).ok rfl hi

theorem takes_strongerFollows (h : Closes table rest) :
    Takes table rest [] false (strongerFollows p) where
  ok := by
    rintro r rfl hi
    obtain ⟨t, ht, -, ho⟩ := h
    subst hi
    obtain ⟨s, hs⟩ := peek_of_current? ht
    refine ⟨s, ?_, items_of_peek hs, peek_precedences hs⟩
    rw [strongerFollows_eq hs, ho]
    rfl

/-- Where no operator follows, an operand is over. -/
theorem takes_binary_none (h : Closes table rest) (left : Expr) :
    Takes table rest [] left (binary least left) := by
  rw [binary_eq]
  exact (takes_binaryOperator_none h).skip takes_pure

end Operators

section Forms

variable {op : Char} {p : Int} {e l c y n start goOn body : Expr} {step : Option Expr}
  {args : List Expr} {t : Token} {ls rs cs ys ns ss gs bs : List Token}

/-- The tokens are read as the expression, whatever may come next. -/
structure Written (table : Precedences) (ts : List Token) (e : Expr) : Prop where
  takes : ∀ {rest}, Closes table rest → Takes table rest ts e expression

/-- An operand by itself is an expression. -/
theorem takes_expression (h : Takes table rest ts e unary) (hr : Closes table rest) :
    Takes table rest ts e expression := by
  rw [expression_eq]
  exact h.last (takes_binary_none hr e)

/-- A unary operator takes the operand behind it. -/
theorem takes_unary (hc : op.toNat < 128) (hopen : op ≠ '(') (hpoint : op ≠ '.')
    (he : Takes table rest ts e unary) :
    Takes table rest (.symbol op :: ts) (.unary op e) unary := by
  rw [unary_eq]
  refine Takes.cons (takes_accept ?_ (by rfl)) (he.last takes_pure)
  simp [unaryOperator?, Token.symbol?, hc, hopen, hpoint]

/-- What does not begin with a unary operator is a primary expression. -/
theorem takes_primary (ht : unaryOperator? t = none)
    (h : Takes table rest (t :: ts) e (primary expression arguments)) :
    Takes table rest (t :: ts) e unary := by
  rw [unary_eq]
  exact (takes_accept_none rfl ht).skip h

theorem takes_number (x : Float) : Takes table rest [.number x] (.number x) unary :=
  takes_primary rfl ((takes_demand (by rfl) (by rfl)).last takes_pure)

/-- A name is a variable if no parenthesis follows. -/
theorem takes_variable (hr : Clear rest) (name : String) :
    Takes table rest [.name name] (.variable name) unary := by
  obtain ⟨t, ht, hc⟩ := hr
  refine takes_primary rfl (Takes.cons (takes_demand (by rfl) (by rfl)) ?_)
  exact (takes_acceptSymbol_false ht hc).skip takes_pure

/-- The closing parenthesis is no operator, so that the expression is over before it. -/
theorem takes_group (hclose : table.get? ')' = none) (he : Written table ts e) :
    Takes table rest (.symbol '(' :: ts ++ [.symbol ')']) e unary := by
  refine takes_primary rfl (Takes.cons (takes_demand (by rfl) (by rfl)) ?_)
  exact (he.takes (closes_symbol (by decide) hclose)).bind ((takes_symbol ')').last takes_pure)

/-- The right operand is one operand only, as what comes next is no operator. -/
theorem takes_binary (ho : table.get? op = some p) (hr : Closes table rest)
    (hl : Takes table (.ok (.symbol op) :: (rs.map .ok ++ rest)) ls l unary)
    (he : Takes table rest rs e unary) :
    Takes table rest (ls ++ .symbol op :: rs) (.binary op l e) expression := by
  have found : table.operator? (.symbol op) = some (op, p) := by simp [ho]
  have positive := Precedences.operator?_pos found
  rw [expression_eq]
  refine Takes.bind hl ?_
  rw [binary_eq]
  refine Takes.cons (takes_binaryOperator ho (Int.le_of_lt positive)) (Takes.last he ?_)
  refine Takes.skip (x := e) ?_ (takes_binary_none hr _)
  exact (takes_strongerFollows hr).skip takes_pure

/-- Each keyword closes the expression in front of it. -/
theorem takes_conditional (hc : Written table cs c) (hy : Written table ys y)
    (hn : Takes table rest ns n expression) :
    Takes table rest (.keyword .ifWord :: (cs ++ .keyword .thenWord :: (ys ++
      .keyword .elseWord :: ns))) (.conditional c y n) unary := by
  refine takes_primary rfl (Takes.cons (takes_demand (by rfl) (by rfl)) ?_)
  refine Takes.bind (hc.takes (closes_keyword _)) (Takes.cons (takes_keyword _) ?_)
  refine Takes.bind (hy.takes (closes_keyword _)) (Takes.cons (takes_keyword _) ?_)
  exact hn.last takes_pure

/-- The comma and the keywords close the expressions in front of them. -/
theorem takes_loop (var : String) (hcomma : table.get? ',' = none) (hs : Written table ss start)
    (hg : Written table gs goOn)
    (ht : ∀ {k rest}, Takes table (.ok (.keyword k) :: rest) ts step (loopStep expression))
    (hb : Takes table rest bs body expression)
    (hgo : ∀ {k rest}, Closes table (ts.map .ok ++ .ok (.keyword k) :: rest)) :
    Takes table rest (.keyword .forWord :: .name var :: .symbol '=' :: (ss ++ .symbol ',' ::
      (gs ++ (ts ++ .keyword .inWord :: bs)))) (.loop var start goOn step body) unary := by
  refine takes_primary rfl (Takes.cons (takes_demand (by rfl) (by rfl)) ?_)
  refine Takes.cons (takes_demand (by rfl) (by rfl)) (Takes.cons (takes_symbol _) ?_)
  refine Takes.bind (hs.takes (closes_symbol (by decide) hcomma)) (Takes.cons (takes_symbol _) ?_)
  refine Takes.bind (hg.takes (by simpa using hgo)) (Takes.bind ht ?_)
  exact Takes.cons (takes_keyword _) (hb.last takes_pure)

theorem takes_noStep {k : Keyword} :
    Takes table (.ok (.keyword k) :: rest) [] none (loopStep expression) :=
  (takes_acceptSymbol_false (t := .keyword k) rfl (by simp)).skip takes_pure

theorem takes_step {k : Keyword} (he : Written table ts e) :
    Takes table (.ok (.keyword k) :: rest) (.symbol ',' :: ts) (some e) (loopStep expression) :=
  Takes.cons (takes_acceptSymbol ',') ((he.takes (closes_keyword k)).last takes_pure)

/-- The first of the tokens between the parentheses is not the closing one. -/
theorem takes_call (name : String) (ht : ∃ t us, ts = t :: us ∧ t ≠ .symbol ')')
    (ha : Takes table rest ts args arguments) :
    Takes table rest (.name name :: .symbol '(' :: ts) (.call name args) unary := by
  obtain ⟨t, us, rfl, hc⟩ := ht
  refine takes_primary rfl (Takes.cons (takes_demand (by rfl) (by rfl)) ?_)
  refine Takes.cons (takes_acceptSymbol '(') ?_
  exact (takes_acceptSymbol_false rfl hc).skip (ha.last takes_pure)

theorem takes_emptyCall (name : String) :
    Takes table rest [.name name, .symbol '(', .symbol ')'] (.call name []) unary := by
  refine takes_primary rfl (Takes.cons (takes_demand (by rfl) (by rfl)) ?_)
  exact Takes.cons (takes_acceptSymbol '(') ((takes_acceptSymbol ')').last takes_pure)

end Forms

section Whole

variable {wrap : Expr → Bool} {e : Expr}

/-- The expression can be written down, both by itself and as a part of another one. -/
structure Rendered (table : Precedences) (wrap : Expr → Bool) (e : Expr) : Prop where
  whole : Written table (e.tokens wrap) e
  part : ∀ {rest}, Clear rest → Takes table rest (enclose (wrap e) (e.tokens wrap)) e unary

/-- An expression can be written down in parentheses or without. -/
theorem Rendered.written (h : Rendered table wrap e) :
    Written table (enclose (wrap e) (e.tokens wrap)) e where
  takes hr := takes_expression (h.part hr.clear) hr

/-- An expression that shows its own extent needs no parentheses. -/
theorem rendered_of_takes (hclose : table.get? ')' = none)
    (h : ∀ {rest}, Clear rest → Takes table rest (e.tokens wrap) e unary) :
    Rendered table wrap e := by
  have whole : Written table (e.tokens wrap) e := ⟨fun hr => takes_expression (h hr.clear) hr⟩
  refine ⟨whole, fun hr => ?_⟩
  cases wrap e with
  | true => exact takes_group hclose whole
  | false => exact h hr

/-- A compound expression is a part of another one in parentheses only. -/
theorem rendered_of_written (hclose : table.get? ')' = none) (hw : wrap e = true)
    (h : Written table (e.tokens wrap) e) : Rendered table wrap e where
  whole := h
  part _ := by
    rw [hw]
    exact takes_group hclose h

/-- The first token of a part is no closing parenthesis. -/
theorem exists_enclose (hw : ∀ e, e.isCompound = true → wrap e = true) (e : Expr) :
    ∃ t us, enclose (wrap e) (e.tokens wrap) = t :: us ∧ t ≠ .symbol ')' := by
  cases h : wrap e with
  | true => exact ⟨.symbol '(', _, rfl, by simp⟩
  | false =>
    have simple : e.isCompound ≠ true := fun hc => by simp [hw e hc] at h
    cases e <;> first | exact absurd rfl simple | exact ⟨_, _, by rw [Expr.tokens]; rfl, by simp⟩

/-- By induction on the further arguments, each of which is closed by a comma or by the parenthesis.
-/
theorem takes_arguments (hclose : table.get? ')' = none) (hcomma : table.get? ',' = none)
    {es : List Expr} (he : Rendered table wrap e) (hes : ∀ e' ∈ es, Rendered table wrap e') :
    Takes table rest (enclose (wrap e) (e.tokens wrap) ++ (Expr.moreTokens wrap es ++
      [.symbol ')'])) (e :: es) arguments := by
  induction es generalizing e with
  | nil =>
    rw [arguments_eq]
    refine Takes.bind (he.written.takes (closes_symbol (by decide) hclose)) ?_
    exact (takes_acceptSymbol ')').last takes_pure
  | cons e' es ih =>
    rw [arguments_eq]
    refine Takes.bind (he.written.takes (closes_symbol (by decide) hcomma)) ?_
    have others := ih (hes e' (by simp)) fun e hm => hes e (List.mem_cons_of_mem e' hm)
    refine Takes.skip (takes_acceptSymbol_false (t := .symbol ',') rfl (by simp)) ?_
    rw [Expr.moreTokens, List.cons_append, List.append_assoc]
    exact Takes.cons (takes_symbol ',') (others.last takes_pure)

/-- By induction on the expression. An operand and a part need only see that no call follows; a whole
expression must see that it is over. -/
theorem rendered_of_writable (hw : ∀ e, e.isCompound = true → wrap e = true)
    (hopen : table.get? '(' = none) (hclose : table.get? ')' = none)
    (hcomma : table.get? ',' = none) (e : Expr) (he : e.Writable table) :
    Rendered table wrap e := by
  have compound : ∀ {e ts}, e.isCompound = true → e.tokens wrap = ts →
      (∀ {rest}, Closes table rest → Takes table rest ts e expression) → Rendered table wrap e :=
    fun hc ht h => rendered_of_written hclose (hw _ hc) ⟨fun hr => ht ▸ h hr⟩
  induction e using Expr.induct with
  | number x => exact rendered_of_takes hclose fun _ => takes_number x
  | name name => exact rendered_of_takes hclose fun hr => takes_variable hr name
  | unary op e ih =>
    cases he with
    | unary hc ho hp he =>
      refine compound rfl (by rw [Expr.tokens]) fun hr => takes_expression ?_ hr
      exact takes_unary hc ho hp ((ih he).part hr.clear)
  | binary op l r ihl ihr =>
    cases he with
    | binary ho hl he =>
      obtain ⟨p, hp⟩ := Option.isSome_iff_exists.1 ho
      have clear : op ≠ '(' := by
        rintro rfl
        simp [hopen] at hp
      -- the left operand is over at the operator, the right one where the whole is
      refine compound rfl (by rw [Expr.tokens]) fun hr => takes_binary hp hr ?_ ?_
      · exact (ihl hl).part ⟨.symbol op, rfl, by simpa using clear⟩
      · exact (ihr he).part hr.clear
  | conditional c y n ihc ihy ihn =>
    cases he with
    | conditional hc hy hn =>
      refine compound rfl (by rw [Expr.tokens]) fun hr => takes_expression ?_ hr
      exact takes_conditional (ihc hc).written (ihy hy).written ((ihn hn).written.takes hr)
  | loop var start goOn step body ihs ihg iht ihb =>
    cases he with
    | loop hs hg ht hb =>
      refine compound rfl (by rw [Expr.tokens]) fun hr => takes_expression ?_ hr
      refine takes_loop var hcomma (ihs hs).written (ihg hg).written ?_
        ((ihb hb).written.takes hr) ?_
      · cases step with
        | none => exact takes_noStep
        | some e => exact takes_step (iht (ht e rfl)).written
      · -- behind the condition comes the comma of the step or, if there is none, the keyword
        cases step with
        | none => exact closes_keyword _
        | some e => exact closes_symbol (by decide) hcomma
  | call f args ih =>
    cases he with
    | call ha =>
      refine rendered_of_takes hclose fun {rest} _ => ?_
      cases args with
      | nil => exact takes_emptyCall f
      | cons e es =>
        have parts : ∀ e' ∈ e :: es, Rendered table wrap e' := fun e' hm => ih e' hm (ha e' hm)
        obtain ⟨t, us, hfirst, ht⟩ := exists_enclose hw e
        rw [Expr.tokens, Expr.argumentTokens, List.append_assoc]
        refine takes_call f ⟨t, _, by rw [hfirst]; rfl, ht⟩ ?_
        exact takes_arguments hclose hcomma (parts e (by simp)) fun e' hm =>
          parts e' (List.mem_cons_of_mem e hm)

/-- Reading takes back what was written down. The names and the numbers may be any that a token
holds. -/
theorem expression_tokens {r : Reader} (hw : ∀ e, e.isCompound = true → wrap e = true)
    (hopen : r.precedences.get? '(' = none) (hclose : r.precedences.get? ')' = none)
    (hcomma : r.precedences.get? ',' = none) (he : e.Writable r.precedences)
    (hi : r.items = (e.tokens wrap).map .ok ++ rest) (hr : Closes r.precedences rest) :
    ∃ s, expression r = .ok e s ∧ s.items = rest ∧ s.precedences = r.precedences :=
  ((rendered_of_writable hw hopen hclose hcomma e he).whole.takes hr).ok rfl hi

theorem expression_tokens_loop :
    let e : Expr := .loop "i" (.variable "a") (.binary '<' (.variable "i") (.variable "b")) none
      (.conditional (.variable "i") (.call "f" [.variable "a", .unary '-' (.variable "b")])
        (.call "g" []))
    let r : Reader := { lexer := ⟨"for i=a,(i<b) in (if i then f(a,(-b)) else g());".toList, []⟩ }
    r.items = (e.tokens Expr.isCompound).map .ok ++ [.ok (.symbol ';')] ∧
      ∃ s, expression r = .ok e s ∧ s.items = [.ok (.symbol ';')] ∧
        s.precedences = r.precedences := by
  intro e r
  have body : Expr.Writable {} (.conditional (.variable "i")
      (.call "f" [.variable "a", .unary '-' (.variable "b")]) (.call "g" [])) := by
    refine .conditional (.variable _) (.call fun arg h => ?_) (.call fun arg h => by cases h)
    simp only [List.mem_cons, List.not_mem_nil, or_false] at h
    rcases h with rfl | rfl
    · exact .variable _
    · exact .unary (by decide) (by decide) (by decide) (.variable _)
  have writable : e.Writable {} := .loop (.variable _)
    (.binary (by decide) (.variable _) (.variable _)) (fun e h => by cases h) body
  have items : r.items = (e.tokens Expr.isCompound).map .ok ++ [.ok (.symbol ';')] := by rfl
  exact ⟨items, expression_tokens (fun _ h => h) (by decide) (by decide) (by decide) writable items
    (closes_symbol (by decide) (by decide))⟩

end Whole

end Read

end Kaleidoscope
