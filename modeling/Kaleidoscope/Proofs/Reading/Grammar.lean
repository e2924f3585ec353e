import Kaleidoscope.Proofs.Reading.Stream

/-!
# The grammar of expressions

`Derives` is the grammar: which stretches of tokens stand for which expressions under the
precedences that hold. An operand is a primary expression behind any number of unary operators, and
a chain of operands and binary operators is grouped as the precedences say (`Operation.grouped`).

The reader accepts this grammar only. What it uses up is such a stretch, with no token left out,
read twice or out of turn, and it stops where no operator follows (`expression_derives`). Where it
fails, what it has used up is the beginning of such a stretch (`consumes_expression`). For a chain,
`Chains` says what the reader has taken at every call of precedence climbing.
-/

namespace Kaleidoscope

/-- What a stretch of tokens can stand for. -/
inductive Phrase
  | primary (e : Expr)
  | unary (e : Expr)
  /-- Operators with their right operands, in order. -/
  | operations (os : List Operation)
  | expression (e : Expr)
  /-- The part of a loop that may be missing. -/
  | step (step : Option Expr)
  /-- What stands between the parentheses of a call. -/
  | arguments (args : List Expr)

/-- The grammar of expressions. -/
inductive Derives (table : Precedences) : List Token → Phrase → Prop
  | number (x : Float) : Derives table [.number x] (.primary (.number x))
  | variable (name : String) : Derives table [.name name] (.primary (.variable name))
  | call {ts : List Token} {args : List Expr} (callee : String) :
    Derives table ts (.arguments args) →
    Derives table (.name callee :: .symbol '(' :: ts ++ [.symbol ')'])
      (.primary (.call callee args))
  | group {ts : List Token} {e : Expr} :
    Derives table ts (.expression e) →
    Derives table (.symbol '(' :: ts ++ [.symbol ')']) (.primary e)
  | conditional {cs ys ns : List Token} {condition yes no : Expr} :
    Derives table cs (.expression condition) → Derives table ys (.expression yes) →
    Derives table ns (.expression no) →
    Derives table (.keyword .ifWord :: cs ++ .keyword .thenWord :: ys ++ .keyword .elseWord :: ns)
      (.primary (.conditional condition yes no))
  | loop {ss gs ts bs : List Token} {start goOn body : Expr} {step : Option Expr} (var : String) :
    Derives table ss (.expression start) → Derives table gs (.expression goOn) →
    Derives table ts (.step step) → Derives table bs (.expression body) →
    Derives table (.keyword .forWord :: .name var :: .symbol '=' :: ss ++ .symbol ',' :: gs ++ ts ++
      .keyword .inWord :: bs) (.primary (.loop var start goOn step body))
  | operand {ts : List Token} {e : Expr} :
    Derives table ts (.primary e) → Derives table ts (.unary e)
  | operator {ts : List Token} {op : Char} {e : Expr} :
    op.toNat < 128 → op ≠ '(' → op ≠ '.' → Derives table ts (.unary e) →
    Derives table (.symbol op :: ts) (.unary (.unary op e))
  | last : Derives table [] (.operations [])
  | operation {ts us : List Token} {op : Char} {precedence : Int} {e : Expr}
      {os : List Operation} :
    table.get? op = some precedence → Derives table ts (.unary e) →
    Derives table us (.operations os) →
    Derives table (.symbol op :: ts ++ us) (.operations (⟨op, precedence, e⟩ :: os))
  | chain {ts us : List Token} {first : Expr} {os : List Operation} :
    Derives table ts (.unary first) → Derives table us (.operations os) →
    Derives table (ts ++ us) (.expression (Operation.grouped first os))
  | noStep : Derives table [] (.step none)
  | step {ts : List Token} {e : Expr} :
    Derives table ts (.expression e) → Derives table (.symbol ',' :: ts) (.step (some e))
  | noArguments : Derives table [] (.arguments [])
  | argument {ts : List Token} {e : Expr} :
    Derives table ts (.expression e) → Derives table ts (.arguments [e])
  | arguments {ts us : List Token} {e e' : Expr} {es : List Expr} :
    Derives table ts (.expression e) → Derives table us (.arguments (e' :: es)) →
    Derives table (ts ++ .symbol ',' :: us) (.arguments (e :: e' :: es))

namespace Derives

variable {table : Precedences} {ts us : List Token} {os os' : List Operation}

theorem operations_append (h : Derives table ts (.operations os))
    (h' : Derives table us (.operations os')) :
    Derives table (ts ++ us) (.operations (os ++ os')) := by
  induction os generalizing ts with
  | nil =>
    cases h
    exact h'
  | cons o os ih =>
    cases h with
    | operation hp hu ho =>
      have := Derives.operation hp hu (ih ho)
      simpa using this

/-- Operations begin with the first operator. -/
theorem exists_of_operations {o : Operation} (h : Derives table ts (.operations (o :: os))) :
    ∃ rest, ts = .symbol o.op :: rest ∧ table.get? o.op = some o.precedence := by
  cases h with
  | operation hp _ _ => exact ⟨_, rfl, hp⟩

end Derives

namespace Read

variable {α β : Type} {table : Precedences}

/-- Whenever the reading succeeds, it has used up some tokens at the front of what was left, and
these tokens and its result satisfy `G`. Whenever it fails, it has used up tokens that can be
completed to such. -/
structure Consumes (table : Precedences) (G : List Token → α → Prop) (a : Read α) : Prop where
  ok : ∀ {r x s}, r.precedences = table → a r = .ok x s →
    s.precedences = table ∧ ∃ ts, r.items = ts.map .ok ++ s.items ∧ G ts x
  error : ∀ {r e s}, r.precedences = table → a r = .error e s →
    ∃ ts us x, r.items = ts.map .ok ++ (e.lost ++ s.items) ∧ G (ts ++ us) x
  /-- Without this a reading that fails with nothing used up could not be completed. -/
  inhabited : ∃ ts x, G ts x

section Rules

variable {G H : List Token → α → Prop} {K : List Token → β → Prop} {a : Read α} {f : α → Read β}

theorem Consumes.mono (h : Consumes table G a) (hgh : ∀ ts x, G ts x → H ts x) :
    Consumes table H a where
  ok hr hx := by
    obtain ⟨hs, ts, hi, hg⟩ := h.ok hr hx
    exact ⟨hs, ts, hi, hgh ts _ hg⟩
  error hr he := by
    obtain ⟨ts, us, x, hi, hg⟩ := h.error hr he
    exact ⟨ts, us, x, hi, hgh _ _ hg⟩
  inhabited := by
    obtain ⟨ts, x, hg⟩ := h.inhabited
    exact ⟨ts, x, hgh ts x hg⟩

/-- If the second reading fails, its tokens can be completed, and those of the first stand in front
of them; if the first fails, something of the second completes it. -/
theorem Consumes.bind (ha : Consumes table G a)
    (hf : ∀ ts x, G ts x → Consumes table (fun us y => K (ts ++ us) y) (f x)) :
    Consumes table K (a >>= f) where
  ok hr h := by
    obtain ⟨x, t, hx, hy⟩ := bind_eq_ok.1 h
    obtain ⟨ht, ts, hi, hg⟩ := ha.ok hr hx
    obtain ⟨hs, us, hi', hk⟩ := (hf ts x hg).ok ht hy
    exact ⟨hs, ts ++ us, by rw [hi, hi', List.map_append, List.append_assoc], hk⟩
  error hr h := by
    rcases bind_eq_error.1 h with ha' | ⟨x, t, hx, hy⟩
    · -- the first part is completed, and the second added to it
      obtain ⟨ts, us, x, hi, hg⟩ := ha.error hr ha'
      obtain ⟨vs, y, hk⟩ := (hf _ x hg).inhabited
      exact ⟨ts, us ++ vs, y, hi, List.append_assoc ts us vs ▸ hk⟩
    · obtain ⟨ht, ts, hi, hg⟩ := ha.ok hr hx
      obtain ⟨us, vs, y, hi', hk⟩ := (hf ts x hg).error ht hy
      refine ⟨ts ++ us, vs, y, ?_, List.append_assoc ts us vs ▸ hk⟩
      rw [hi, hi', List.map_append, List.append_assoc]
  inhabited := by
    obtain ⟨ts, x, hg⟩ := ha.inhabited
    obtain ⟨us, y, hk⟩ := (hf ts x hg).inhabited
    exact ⟨ts ++ us, y, hk⟩

theorem consumes_pure {x : α} (h : G [] x) : Consumes table G (pure x) where
  ok hr hx := by
    cases hx
    exact ⟨hr, [], rfl, h⟩
  error _ he := by cases he
  inhabited := ⟨[], x, h⟩

/-- A reading that fails at once has used up nothing, which is the beginning of anything. -/
theorem consumes_throw {e : Fault} (he : e.lost = []) (h : ∃ ts x, G ts x) :
    Consumes table G (throw e) where
  ok _ hx := by cases hx
  error _ hx := by
    cases hx
    obtain ⟨us, x, hg⟩ := h
    exact ⟨[], us, x, by simp [he], hg⟩
  inhabited := h

/-- A token is used up if something is made of it, and else nothing is. -/
theorem consumes_accept {choose : Token → Option α} (hend : choose .finish = none) :
    Consumes table (fun ts o => o = none ∧ ts = [] ∨
      ∃ t x, o = some x ∧ choose t = some x ∧ ts = [t]) (accept choose) where
  ok := by
    intro r o s hr h
    refine ⟨((reads_accept (lasting_precedences table) choose).ok hr h).1, ?_⟩
    cases o with
    | none => exact ⟨[], (items_of_accept_none h).1.symm, .inl ⟨rfl, rfl⟩⟩
    | some x =>
      obtain ⟨t, hc, hi⟩ := items_of_accept_some hend h
      exact ⟨[t], hi, .inr ⟨t, x, rfl, hc, rfl⟩⟩
  error _ h := ⟨[], [], none, items_of_accept_error h, .inl ⟨rfl, rfl⟩⟩
  inhabited := ⟨[], none, .inl ⟨rfl, rfl⟩⟩

theorem consumes_acceptSymbol (c : Char) :
    Consumes table (fun ts b => ts = if b then [.symbol c] else []) (acceptIf (·.isSymbol c)) := by
  refine (consumes_accept (by rfl)).bind fun ts o ho => consumes_pure ?_
  rcases ho with ⟨rfl, rfl⟩ | ⟨t, x, rfl, hc, rfl⟩
  · rfl
  · by_cases ht : t.isSymbol c = true
    · simpa using ht
    · simp [ht] at hc

/-- There must be a token of which something is made. -/
theorem consumes_demand {choose : Token → Option α} (hend : choose .finish = none)
    (hsome : ∃ t, (choose t).isSome) (wanted : Expectation) :
    Consumes table (fun ts x => ∃ t, choose t = some x ∧ ts = [t]) (demand choose wanted) := by
  refine (consumes_accept hend).bind fun ts o ho => ?_
  rcases ho with ⟨rfl, rfl⟩ | ⟨t, x, rfl, hc, rfl⟩
  · obtain ⟨t, ht⟩ := hsome
    obtain ⟨x, hx⟩ := Option.isSome_iff_exists.1 ht
    exact consumes_throw rfl ⟨[t], x, t, hx, rfl⟩
  · exact consumes_pure ⟨t, hc, rfl⟩

/-- What was demanded is used up, or it can be completed by it. -/
theorem consumes_symbol (c : Char) (wanted : Expectation) :
    Consumes table (fun ts _ => ts = [.symbol c]) (symbol c wanted) := by
  refine (consumes_demand (by rfl) ⟨.symbol c, by simp⟩ wanted).mono fun ts x h => ?_
  obtain ⟨t, hc, rfl⟩ := h
  simpa using hc

theorem consumes_keyword (k : Keyword) (wanted : Expectation) :
    Consumes table (fun ts _ => ts = [.keyword k]) (keyword k wanted) := by
  refine (consumes_demand (by rfl) ⟨.keyword k, by simp⟩ wanted).mono fun ts x h => ?_
  obtain ⟨t, hc, rfl⟩ := h
  simpa using hc

end Rules

section Forms

variable {e : Read Expr} {l : Read (List Expr)}

/-- The reading takes an expression. -/
abbrev TakesExpression (table : Precedences) (e : Read Expr) : Prop :=
  Consumes table (fun ts x => Derives table ts (.expression x)) e

/-- The reading takes one or more arguments with the closing parenthesis. -/
abbrev TakesArguments (table : Precedences) (l : Read (List Expr)) : Prop :=
  Consumes table (fun ts es => es ≠ [] ∧ ∃ us, Derives table us (.arguments es) ∧
    ts = us ++ [.symbol ')']) l

theorem consumes_group (he : TakesExpression table e) :
    Consumes table (fun ts x => Derives table (.symbol '(' :: ts) (.primary x)) (group e) := by
  unfold group
  refine he.bind fun ts x hx => (consumes_symbol _ _).bind fun us _ hu => consumes_pure ?_
  subst hu
  simpa using Derives.group hx

/-- A name stands for itself, or for a call with what is between the parentheses. -/
theorem consumes_nameOrCall (hl : TakesArguments table l) (name : String) :
    Consumes table (fun ts x => Derives table (.name name :: ts) (.primary x))
      (nameOrCall name l) := by
  unfold nameOrCall
  refine (consumes_acceptSymbol '(').bind fun ts b hb => ?_
  subst hb
  cases b with
  | false => exact consumes_pure (.variable name)
  | true =>
    refine (consumes_acceptSymbol ')').bind fun us b hb => ?_
    subst hb
    cases b with
    | true => exact consumes_pure (Derives.call name .noArguments)
    | false =>
      refine hl.bind fun vs es hes => consumes_pure ?_
      obtain ⟨-, us, hd, rfl⟩ := hes
      simpa using Derives.call name hd

theorem consumes_conditional (he : TakesExpression table e) :
    Consumes table (fun ts x => Derives table (.keyword .ifWord :: ts) (.primary x))
      (conditional e) := by
  unfold conditional
  refine he.bind fun cs condition hc => (consumes_keyword _ _).bind fun ts _ ht => ?_
  refine he.bind fun ys yes hy => (consumes_keyword _ _).bind fun us _ hu => ?_
  refine he.bind fun ns no hn => consumes_pure ?_
  subst ht hu
  simpa using Derives.conditional hc hy hn

/-- The step of a loop may be missing with its comma. -/
theorem consumes_loopStep (he : TakesExpression table e) :
    Consumes table (fun ts step => Derives table ts (.step step)) (loopStep e) := by
  unfold loopStep
  refine (consumes_acceptSymbol ',').bind fun ts b hb => ?_
  subst hb
  cases b with
  | false => exact consumes_pure .noStep
  | true => exact he.bind fun us x hx => consumes_pure (by simpa using Derives.step hx)

theorem consumes_loop (he : TakesExpression table e) :
    Consumes table (fun ts x => Derives table (.keyword .forWord :: ts) (.primary x)) (loop e) := by
  unfold loop
  refine (consumes_demand (by rfl) ⟨.name "", rfl⟩ _).bind fun ts var hv => ?_
  obtain ⟨t, ht, rfl⟩ := hv
  obtain rfl : t = .name var := by
    cases t <;> simp [Token.name?] at ht
    rw [ht]
  refine (consumes_symbol _ _).bind fun es _ hes => he.bind fun ss start hs => ?_
  refine (consumes_symbol _ _).bind fun cs _ hcs => he.bind fun gs goOn hg => ?_
  refine (consumes_loopStep he).bind fun ts step ht => ?_
  refine (consumes_keyword _ _).bind fun is _ his => he.bind fun bs body hb => consumes_pure ?_
  subst hes hcs his
  simpa using Derives.loop var hs hg ht hb

/-- The first token decides which of the productions it is. -/
theorem consumes_primary (he : TakesExpression table e) (hl : TakesArguments table l) :
    Consumes table (fun ts x => Derives table ts (.primary x)) (primary e l) := by
  unfold primary
  refine (consumes_demand (by rfl) ⟨.number 0, rfl⟩ _).bind fun ts opening ho => ?_
  obtain ⟨t, ht, rfl⟩ := ho
  unfold Opening.ofToken? at ht
  split at ht <;> cases ht
  · exact consumes_nameOrCall hl _
  · exact consumes_pure (.number _)
  · exact consumes_group he
  · exact consumes_conditional he
  · exact consumes_loop he

end Forms

section Chains

/-- The token at the front is no operator of at least the given precedence. -/
def StopsBelow (table : Precedences) (least : Int) (items : List Item) : Prop :=
  ∃ t, current? items = some t ∧ ∀ found ∈ table.operator? t, found.2 < least

/-- Behind the left operand the reading takes operators that are strong enough, with their right
operands, groups them, and stops where no such operator follows. Where it fails, what it has taken
begins such a chain. -/
structure Chains (table : Precedences) (least : Int) (left : Expr) (a : Read Expr) : Prop where
  ok : ∀ {r x s}, r.precedences = table → a r = .ok x s → s.precedences = table ∧
    ∃ ts os, r.items = ts.map .ok ++ s.items ∧ Derives table ts (.operations os) ∧
      x = Operation.grouped left os ∧ (∀ o ∈ os, least ≤ o.precedence) ∧
      StopsBelow table least s.items
  error : ∀ {r e s}, r.precedences = table → a r = .error e s →
    ∃ ts us os, r.items = ts.map .ok ++ (e.lost ++ s.items) ∧
      Derives table (ts ++ us) (.operations os)

variable {r s : Reader} {least p : Int} {op : Char} {climb : Int → Expr → Read Expr}

/-- An operator is a symbol that has a precedence. -/
theorem operator?_eq_some {t : Token} (h : table.operator? t = some (op, p)) :
    t = .symbol op ∧ table.get? op = some p := by
  obtain ⟨c, hc, h⟩ := Option.bind_eq_some_iff.1 h
  obtain ⟨q, hq, he⟩ := Option.map_eq_some_iff.1 h
  cases he
  refine ⟨?_, hq⟩
  cases t <;> simp [Token.symbol?] at hc
  rw [hc]

/-- Where no operator is taken, the next token is none that is strong enough. -/
theorem of_binaryOperator_none (hr : r.precedences = table)
    (h : binaryOperator least r = .ok none s) :
    s.precedences = table ∧ s.items = r.items ∧ StopsBelow table least s.items := by
  obtain ⟨r', u, hg, h⟩ := bind_eq_ok.1 h
  cases hg
  obtain ⟨hi, t, hc, hn⟩ := items_of_accept_none h
  have kept := ((reads_accept (lasting_precedences table) _).ok hr h).1
  refine ⟨kept, hi, t, by rw [hi, hc], fun found hf => ?_⟩
  have := Option.filter_eq_none_iff.1 hn found (hr ▸ hf)
  simpa using this

/-- Looking for an operator fails only where there is no token to look at. -/
theorem items_of_binaryOperator_error {e : Fault} (h : binaryOperator least r = .error e s) :
    r.items = e.lost ++ s.items := by
  rcases bind_eq_error.1 h with h | ⟨r', u, hg, h⟩
  · cases h
  · cases hg
    exact items_of_accept_error h

/-- An operator that is taken is the next token, and is strong enough. -/
theorem of_binaryOperator_some (hr : r.precedences = table)
    (h : binaryOperator least r = .ok (some (op, p)) s) :
    s.precedences = table ∧ r.items = .ok (.symbol op) :: s.items ∧ table.get? op = some p ∧
      least ≤ p := by
  obtain ⟨r', u, hg, h⟩ := bind_eq_ok.1 h
  cases hg
  obtain ⟨t, hc, hi⟩ := items_of_accept_some (by simp [Precedences.operator?, Token.symbol?]) h
  obtain ⟨ho, hl⟩ := Option.filter_eq_some_iff.1 hc
  obtain ⟨rfl, hg⟩ := operator?_eq_some (hr ▸ ho)
  have kept := ((reads_accept (lasting_precedences table) _).ok hr h).1
  exact ⟨kept, hi, hg, by simpa using hl⟩

/-- The right operand of an operator takes in the operators behind it that are stronger. -/
theorem chains_rightOperand {operand : Expr}
    (h : ∀ least, Chains table least operand (climb least operand)) :
    Chains table (p + 1) operand (rightOperand climb p operand) where
  ok := by
    intro r x s hr hx
    obtain ⟨b, u, hb, hx⟩ := bind_eq_ok.1 hx
    obtain ⟨t, v, hp, -⟩ := bind_eq_ok.1 hb
    have hv : v.precedences = table := (peek_precedences hp).trans hr
    rw [strongerFollows_eq hp, hr] at hb
    cases hb
    rw [← items_of_peek hp]
    -- the next operator is looked at and stays in view, whatever is decided
    cases hs : (table.operator? t).any fun found => decide (p < found.2) with
    | true =>
      rw [hs] at hx
      exact (h (p + 1)).ok hv hx
    | false =>
      rw [hs] at hx
      cases hx
      refine ⟨hv, [], [], rfl, .last, (Operation.grouped_nil _).symm, by simp, t, ?_, ?_⟩
      · exact current?_of_looked (peek_ok hp).1
      · intro found hf
        rw [Option.mem_def.1 hf, Option.any_some] at hs
        have : ¬ p < found.2 := of_decide_eq_false hs
        omega
  error := by
    intro r e s hr he
    rcases bind_eq_error.1 he with hb | ⟨b, u, hb, he⟩
    · rcases bind_eq_error.1 hb with hp | ⟨t, v, -, hb⟩
      · exact ⟨[], [], [], items_of_peek_error hp, .last⟩
      · cases hb
    · obtain ⟨t, v, hp, hb⟩ := bind_eq_ok.1 hb
      have hv : v.precedences = table := (peek_precedences hp).trans hr
      cases hb
      rw [← items_of_peek hp]
      split at he
      · exact (h (p + 1)).error hv he
      · cases he

/-- The first of some operations is the token at their front. -/
theorem StopsBelow.head {ts : List Token} {os : List Operation} {rest : List Item}
    (h : StopsBelow table least (ts.map .ok ++ rest)) (ho : Derives table ts (.operations os)) :
    ∀ o ∈ os.head?, o.precedence < least := by
  intro o hmem
  cases os with
  | nil => cases hmem
  | cons o' os =>
    cases hmem
    obtain ⟨us, rfl, hp⟩ := ho.exists_of_operations
    obtain ⟨t, ht, weak⟩ := h
    cases ht
    exact weak (o.op, o.precedence) (by simp [hp])

/-- One turn of precedence climbing: the operators behind an operand that are stronger than the one
before it make up the right operand, and the others are left to the next turn. -/
theorem chains_binary {unary : Read Expr} {rest : Int → Expr → Read Expr} {left : Expr}
    (hu : Consumes table (fun ts x => Derives table ts (.unary x)) unary)
    (h : ∀ least left, Chains table least left (rest least left)) :
    Chains table least left (do
      match ← binaryOperator least with
      | none => return left
      | some (op, precedence) =>
        let operand ← unary
        let right ← rightOperand rest precedence operand
        rest least (.binary op left right)) where
  ok := by
    intro r x s hr hx
    obtain ⟨o, u, ho, hx⟩ := bind_eq_ok.1 hx
    cases o with
    | none =>
      cases hx
      obtain ⟨hs, hi, stop⟩ := of_binaryOperator_none hr ho
      exact ⟨hs, [], [], hi.symm, .last, (Operation.grouped_nil _).symm, by simp, stop⟩
    | some found =>
      obtain ⟨op, p⟩ := found
      obtain ⟨hu', hi, hop, hl⟩ := of_binaryOperator_some hr ho
      obtain ⟨operand, v, ha, hx⟩ := bind_eq_ok.1 hx
      obtain ⟨hv, ts, hts, derives⟩ := hu.ok hu' ha
      obtain ⟨right, w, hb, hx⟩ := bind_eq_ok.1 hx
      obtain ⟨hw, us, strong, hus, derives₁, rfl, hs, stop₁⟩ :=
        (chains_rightOperand fun least => h least operand).ok hv hb
      obtain ⟨hs', vs, others, hvs, derives₂, rfl, hos, stop⟩ := (h least _).ok hw hx
      -- what the next turn begins with was too weak for the right operand
      rw [hvs] at stop₁
      have weaker := stop₁.head derives₂
      refine ⟨hs', .symbol op :: ts ++ (us ++ vs), ⟨op, p, operand⟩ :: (strong ++ others), ?_,
        .operation hop derives (derives₁.operations_append derives₂), ?_, ?_, stop⟩
      · rw [hi, hts, hus, hvs]
        simp
      · refine (Operation.grouped_cons left (o := ⟨op, p, operand⟩) (fun x hx => ?_)
          fun x hx => ?_).symm
        · have := hs x hx
          show p < x.precedence
          omega
        · have := weaker x hx
          show x.precedence ≤ p
          omega
      · intro x hx
        rcases List.mem_cons.1 hx with rfl | hx
        · exact hl
        · rcases List.mem_append.1 hx with hx | hx
          · have := hs x hx
            omega
          · exact hos x hx
  error := by
    intro r e s hr he
    rcases bind_eq_error.1 he with hb | ⟨o, u, ho, he⟩
    · exact ⟨[], [], [], items_of_binaryOperator_error hb, .last⟩
    cases o with
    | none => cases he
    | some found =>
      obtain ⟨op, p⟩ := found
      obtain ⟨hu', hi, hop, -⟩ := of_binaryOperator_some hr ho
      -- in each case the operation that reading stopped in is completed
      rcases bind_eq_error.1 he with ha | ⟨operand, v, ha, he⟩
      · obtain ⟨ts, us, x, hts, derives⟩ := hu.error hu' ha
        have whole := Derives.operation hop derives .last
        exact ⟨.symbol op :: ts, us, _, by rw [hi, hts]; rfl, by simpa using whole⟩
      obtain ⟨hv, ts, hts, derives⟩ := hu.ok hu' ha
      rcases bind_eq_error.1 he with hb | ⟨right, w, hb, he⟩
      · obtain ⟨us, vs, os, hus, derives₁⟩ :=
          (chains_rightOperand fun least => h least operand).error hv hb
        have whole := Derives.operation hop derives derives₁
        exact ⟨.symbol op :: ts ++ us, vs, _, by rw [hi, hts, hus]; simp, by simpa using whole⟩
      · obtain ⟨hw, us, os, hus, derives₁, -⟩ :=
          (chains_rightOperand fun least => h least operand).ok hv hb
        obtain ⟨vs, ws, os', hvs, derives₂⟩ := (h least _).error hw he
        have whole := Derives.operation hop derives (derives₁.operations_append derives₂)
        refine ⟨.symbol op :: ts ++ us ++ vs, ws, ⟨op, p, operand⟩ :: (os ++ os'), ?_, ?_⟩
        · rw [hi, hts, hus, hvs]
          simp
        · simpa using whole

/-- An operand with the operators behind it. -/
theorem of_chains {unary : Read Expr} {climb : Expr → Read Expr} {x : Expr}
    (hu : Consumes table (fun ts x => Derives table ts (.unary x)) unary)
    (hc : ∀ left, Chains table least left (climb left)) (hr : r.precedences = table)
    (h : (unary >>= climb) r = .ok x s) :
    s.precedences = table ∧ StopsBelow table least s.items ∧
      ∃ ts, r.items = ts.map .ok ++ s.items ∧ Derives table ts (.expression x) := by
  obtain ⟨first, t, ho, hx⟩ := bind_eq_ok.1 h
  obtain ⟨ht, ts, hts, operand⟩ := hu.ok hr ho
  obtain ⟨hs, us, os, hus, operations, rfl, -, stop⟩ := (hc first).ok ht hx
  exact ⟨hs, stop, ts ++ us, by rw [hts, hus, List.map_append, List.append_assoc],
    .chain operand operations⟩

/-- An operand with the chain behind it is an expression. -/
theorem consumes_chain {unary : Read Expr} {climb : Expr → Read Expr}
    (hu : Consumes table (fun ts x => Derives table ts (.unary x)) unary)
    (hc : ∀ left, Chains table least left (climb left)) :
    TakesExpression table (unary >>= climb) where
  ok hr h := (of_chains hu hc hr h).imp_right And.right
  error hr he := by
    rcases bind_eq_error.1 he with ha | ⟨first, t, ha, he⟩
    · obtain ⟨ts, us, x, hts, operand⟩ := hu.error hr ha
      exact ⟨ts, us, _, hts, by simpa using Derives.chain operand .last⟩
    · obtain ⟨ht, ts, hts, operand⟩ := hu.ok hr ha
      obtain ⟨us, vs, os, hus, operations⟩ := (hc first).error ht he
      have whole := Derives.chain operand operations
      refine ⟨ts ++ us, vs, Operation.grouped first os, ?_, List.append_assoc ts us vs ▸ whole⟩
      rw [hts, hus, List.map_append, List.append_assoc]
  inhabited := by
    obtain ⟨ts, x, operand⟩ := hu.inhabited
    exact ⟨_, _, .chain operand .last⟩

/-- A unary operator is an ASCII symbol, but neither an opening parenthesis nor a point. -/
theorem unaryOperator?_eq_some {t : Token} (h : unaryOperator? t = some op) :
    t = .symbol op ∧ op.toNat < 128 ∧ op ≠ '(' ∧ op ≠ '.' := by
  obtain ⟨hc, hp⟩ := Option.filter_eq_some_iff.1 h
  refine ⟨?_, by simpa [and_assoc] using hp⟩
  cases t <;> simp [Token.symbol?] at hc
  rw [hc]

end Chains

/-- Within every bound, what is read is what the grammar allows. -/
theorem consumes_within (table : Precedences) (n : Nat) :
    Consumes table (fun ts x => Derives table ts (.unary x)) (unaryWithin n) ∧
      (∀ least left, Chains table least left (binaryWithin n least left)) ∧
      Consumes table (fun ts x => Derives table ts (.expression x)) (expressionWithin n) ∧
      TakesArguments table (argumentsWithin n) := by
  induction n with
  | zero =>
    have operand : Derives table [.number 0] (.unary (.number 0)) := .operand (.number 0)
    have expression : Derives table [.number 0] (.expression _) := .chain operand .last
    refine ⟨consumes_throw rfl ⟨_, _, operand⟩, fun _ _ => ⟨fun _ h => ?_, fun _ h => ?_⟩,
      consumes_throw rfl ⟨_, _, expression⟩,
      consumes_throw rfl ⟨_, [_], by simp, _, .argument expression, rfl⟩⟩
    · cases h
    · cases h
      exact ⟨[], [], [], rfl, .last⟩
  | succ n ih =>
    obtain ⟨hu, hb, he, ha⟩ := ih
    refine ⟨?_, ?_, ?_, ?_⟩
    · unfold unaryWithin
      refine (consumes_accept (by rfl)).bind fun ts o ho => ?_
      rcases ho with ⟨rfl, rfl⟩ | ⟨t, op, rfl, hc, rfl⟩
      · exact (consumes_primary he ha).mono fun _ _ h => .operand h
      · obtain ⟨rfl, ascii, hopen, hpoint⟩ := unaryOperator?_eq_some hc
        refine hu.bind fun us x hx => consumes_pure ?_
        simpa using Derives.operator ascii hopen hpoint hx
    · intro least left
      unfold binaryWithin
      exact chains_binary hu hb
    · unfold expressionWithin
      exact consumes_chain hu (hb 0)
    · unfold argumentsWithin
      refine he.bind fun ts x hx => (consumes_acceptSymbol ')').bind fun us b hb => ?_
      subst hb
      cases b with
      | true => exact consumes_pure ⟨by simp, ts, .argument hx, by simp⟩
      | false =>
        refine (consumes_symbol _ _).bind fun vs _ hv => ha.bind fun ws es hes => consumes_pure ?_
        subst hv
        obtain ⟨hne, us, hd, rfl⟩ := hes
        obtain ⟨e', es, rfl⟩ := List.exists_cons_of_ne_nil hne
        exact ⟨by simp, _, .arguments hx hd, by simp⟩

/-- An expression that is read is derived; where none can be read, the beginning of one is. -/
theorem consumes_expression (table : Precedences) : TakesExpression table expression where
  ok {r _ _} := (consumes_within table (fuel r)).2.2.1.ok
  error {r _ _} := (consumes_within table (fuel r)).2.2.1.error
  inhabited := (consumes_within table 0).2.2.1.inhabited

/-- **The reader accepts its grammar only.** If an expression is read, a stretch of tokens that
stands for it is used up, each token once and in order, and behind it comes a token that is no
operator. -/
theorem expression_derives {r s : Reader} {e : Expr} (h : expression r = .ok e s) :
    ∃ ts, r.items = ts.map .ok ++ s.items ∧ Derives r.precedences ts (.expression e) ∧
      ∃ t, current? s.items = some t ∧ r.precedences.operator? t = none := by
  obtain ⟨hu, hb, -, -⟩ := consumes_within r.precedences (3 * r.size + 2)
  have h : (unaryWithin (3 * r.size + 2) >>= binaryWithin (3 * r.size + 2) 0) r = .ok e s := h
  obtain ⟨-, ⟨t, ht, weak⟩, ts, hts, derives⟩ := of_chains hu (hb 0) rfl h
  refine ⟨ts, hts, derives, t, ht, ?_⟩
  cases ho : r.precedences.operator? t with
  | none => rfl
  | some found =>
    have below := weak found ho
    have above := Precedences.operator?_pos ho
    omega

theorem expression_derives_call :
    let r : Reader := { lexer := ⟨['f', '(', 'a', ',', '-', 'b', ')', '*', 'c', ';'], []⟩ }
    let s : Reader := { lexer := ⟨[], []⟩, looked := some (.symbol ';') }
    let e : Expr := .binary '*' (.call "f" [.variable "a", .unary '-' (.variable "b")])
      (.variable "c")
    expression r = .ok e s ∧
      ∃ ts, r.items = ts.map .ok ++ s.items ∧ Derives r.precedences ts (.expression e) ∧
        ∃ t, current? s.items = some t ∧ r.precedences.operator? t = none :=
  ⟨by rfl, expression_derives (by rfl)⟩

end Read

end Kaleidoscope
