import Kaleidoscope.Proofs.Reading.Grammar
import Kaleidoscope.Proofs.Reading.Operators

/-!
# What forms are made of, and how they begin

`Heading` is the grammar of prototypes, but for the number of the parameters, which the reader
looks at only behind the closing parenthesis. Together with the grammar of expressions it says
which tokens make up a form (`Makes`), and which begin one (`Begins`).

A form that is read is made of the tokens that are used up (`makes_of_ok`), so no other token goes
with it. Where reading a form stops, what it has used up begins a form (`begins_of_error`). So it
has stopped as soon as it could, and has passed over no token that the grammar does not allow.
-/

namespace Kaleidoscope

/-- The tokens that announce what a prototype declares. -/
inductive Announces : List Token → Head → Prop
  | function (name : String) : Announces [.name name] (.function name)
  | unary {op : Char} : op.toNat < 128 → Announces [.keyword .unary, .symbol op] (.unary op)
  | binary {op : Char} :
    op.toNat < 128 →
    Announces [.keyword .binary, .symbol op] (.binary op Precedences.unstated)
  | ranked {op : Char} {x : Float} :
    op.toNat < 128 → (x < 1 || 100 < x) = false →
    Announces [.keyword .binary, .symbol op, .number x] (.binary op x.toUInt8.toNat)

/-- The tokens of a prototype, with any number of parameters. -/
inductive Heading : List Token → Prototype → Prop
  | mk {hs : List Token} {proto : Prototype} :
    Announces hs proto.head →
    Heading (hs ++ .symbol '(' :: proto.params.map .name ++ [.symbol ')']) proto

/-- The precedences that hold in the body behind a prototype. -/
inductive Precedences.Admits (table : Precedences) : Head → Precedences → Prop
  | function (name : String) : Admits table (.function name) table
  | unary (op : Char) : Admits table (.unary op) table
  | binary {op : Char} {p : Int} {previous : Option Int} {entered : Precedences} :
    table.declare op p = .ok (previous, entered) → Admits table (.binary op p) entered

/-- An operator has as many parameters as it takes operands. -/
def Prototype.Suited (proto : Prototype) : Prop :=
  ∀ n ∈ Read.operands proto.head, proto.arity = n

/-- The grammar of forms: the form is made of these tokens, under the precedences that hold in front
of it. -/
inductive Makes (table : Precedences) : List Token → Form → Prop
  | separator : Makes table [.symbol ';'] .separator
  | definition {hs ts : List Token} {proto : Prototype} {entered : Precedences} {body : Expr} :
    Heading hs proto → proto.Suited → table.Admits proto.head entered →
    Derives entered ts (.expression body) →
    Makes table (.keyword .define :: hs ++ ts) (.definition ⟨proto, body⟩)
  | declaration {hs : List Token} {proto : Prototype} {entered : Precedences} :
    Heading hs proto → proto.Suited → table.Admits proto.head entered →
    Makes table (.keyword .declare :: hs) (.declaration proto)
  | expression {ts : List Token} {body : Expr} :
    Derives table ts (.expression body) → Makes table ts (.expression (.anonymous body))

/-- A form can begin with the tokens: with a part of its keyword and prototype, or with these and a
part of an expression as the body, or with a part of a bare expression. -/
inductive Begins (table : Precedences) : List Token → Prop
  | heading {ts us hs : List Token} {w : Keyword} {proto : Prototype} :
    w = .define ∨ w = .declare → Heading hs proto → ts ++ us = .keyword w :: hs → Begins table ts
  | body {hs ts us : List Token} {proto : Prototype} {entered : Precedences} {e : Expr} :
    Heading hs proto → table.Admits proto.head entered →
    Derives entered (ts ++ us) (.expression e) → Begins table (.keyword .define :: hs ++ ts)
  | expression {ts us : List Token} {e : Expr} :
    Derives table (ts ++ us) (.expression e) → Begins table ts

namespace Read

variable {α : Type} {table : Precedences} {r s : Reader} {e : Fault}

section Prototypes

/-- A number behind an operator is its precedence, and has to be in range. -/
theorem consumes_operatorPrecedence :
    Consumes table (fun ts p => ts = [] ∧ p = Precedences.unstated ∨
      ∃ x : Float, (x < 1 || 100 < x) = false ∧ ts = [.number x] ∧ p = x.toUInt8.toNat)
      operatorPrecedence where
  ok := by
    intro r p s hr h
    obtain ⟨t, u, hp, h⟩ := bind_eq_ok.1 h
    have kept : u.precedences = table := (peek_precedences hp).trans hr
    cases t with
    | number x =>
      cases hx : (x < 1 || 100 < x) with
      | true => simp only [hx, if_true] at h; cases h
      | false =>
        simp only [hx] at h
        cases h
        refine ⟨kept, [.number x], ?_, .inr ⟨x, hx, rfl, rfl⟩⟩
        rw [← items_of_peek hp, items_of_looked (peek_ok hp).1 (by simp)]
        rfl
    | _ =>
      cases h
      exact ⟨kept, [], (items_of_peek hp).symm, .inl ⟨rfl, rfl⟩⟩
  error := by
    intro r e s hr h
    rcases bind_eq_error.1 h with hp | ⟨t, u, hp, h⟩
    · exact ⟨[], [], _, items_of_peek_error hp, .inl ⟨rfl, rfl⟩⟩
    cases t with
    | number x =>
      cases hx : (x < 1 || 100 < x) with
      | true =>
        simp only [hx, if_true] at h
        cases h
        exact ⟨[], [], _, (items_of_peek hp).symm, .inl ⟨rfl, rfl⟩⟩
      | false => simp only [hx] at h; cases h
    | _ => cases h
  inhabited := ⟨[], _, .inl ⟨rfl, rfl⟩⟩

/-- An operator that is declared is a token of its own. -/
theorem consumes_declarable (wanted : Expectation) :
    Consumes table (fun ts op => op.toNat < 128 ∧ ts = [.symbol op])
      (demand declarable? wanted) := by
  refine (consumes_demand (by rfl) ⟨.symbol '+', by rfl⟩ _).mono fun ts op h => ?_
  obtain ⟨t, ht, rfl⟩ := h
  obtain ⟨hc, hp⟩ := Option.filter_eq_some_iff.1 ht
  refine ⟨by simpa using hp, ?_⟩
  cases t <;> simp [Token.symbol?] at hc
  rw [hc]

/-- The head of a prototype is a name, or a keyword with an operator. -/
theorem consumes_head : Consumes table Announces head := by
  unfold head
  refine (consumes_demand (by rfl) ⟨.name "", rfl⟩ _).bind fun ts opening ho => ?_
  obtain ⟨t, ht, rfl⟩ := ho
  unfold HeadOpening.ofToken? at ht
  split at ht <;> cases ht
  · exact consumes_pure (.function _)
  · refine (consumes_declarable _).bind fun us op hop => ?_
    obtain ⟨ascii, rfl⟩ := hop
    exact consumes_pure (.unary ascii)
  · refine (consumes_declarable _).bind fun us op hop => consumes_operatorPrecedence.bind
      fun vs p hp => ?_
    obtain ⟨ascii, rfl⟩ := hop
    rcases hp with ⟨rfl, rfl⟩ | ⟨x, hx, rfl, rfl⟩
    · exact consumes_pure (.binary ascii)
    · exact consumes_pure (.ranked ascii hx)

theorem consumes_names : Consumes table (fun ts names => ts = names.map .name) names := by
  have within : ∀ n, Consumes table (fun ts names => ts = names.map .name) (namesWithin n) := by
    intro n
    induction n with
    | zero => exact consumes_pure rfl
    | succ n ih =>
      unfold namesWithin
      refine (consumes_accept (by rfl)).bind fun ts o ho => ?_
      rcases ho with ⟨rfl, rfl⟩ | ⟨t, name, rfl, hc, rfl⟩
      · exact consumes_pure rfl
      · refine ih.bind fun us names hus => consumes_pure ?_
        cases t <;> simp [Token.name?] at hc
        simp [hc, hus]
  exact ⟨fun {r _ _} => (within (fuel r)).ok, fun {r _ _} => (within (fuel r)).error, [], [], rfl⟩

/-- What is refused behind the closing parenthesis is a prototype but for its number of
parameters. -/
theorem consumes_prototype : Consumes table Heading prototype := by
  unfold prototype
  refine consumes_head.bind fun hs head hhead => (consumes_symbol _ _).bind fun os _ ho => ?_
  refine consumes_names.bind fun ps params hps => (consumes_symbol _ _).bind fun cs _ hc => ?_
  have whole : Heading (hs ++ (os ++ (ps ++ (cs ++ [])))) ⟨head, params⟩ := by
    subst ho hps hc
    have heading : Heading _ ⟨head, params⟩ := .mk hhead
    simpa using heading
  cases operands head with
  | none => exact consumes_pure whole
  | some n =>
    by_cases hn : params.length = n
    · simp only [hn, ne_eq, not_true, if_false]
      exact consumes_pure whole
    · simp only [hn, ne_eq, not_false_eq_true, if_true]
      exact consumes_throw rfl ⟨[], _, whole⟩

/-- Behind its closing parenthesis a prototype with a wrong number of parameters is refused. -/
theorem suited_of_prototype {proto : Prototype} (h : prototype r = .ok proto s) : proto.Suited := by
  obtain ⟨head, _, -, h⟩ := bind_eq_ok.1 h
  obtain ⟨-, _, -, h⟩ := bind_eq_ok.1 h
  obtain ⟨params, _, -, h⟩ := bind_eq_ok.1 h
  obtain ⟨-, _, -, h⟩ := bind_eq_ok.1 h
  cases ho : operands head with
  | none =>
    simp only [ho] at h
    cases h
    exact fun n hn => by simp [ho] at hn
  | some n =>
    by_cases hn : params.length = n
    · simp only [ho, hn, ne_eq, not_true, if_false] at h
      cases h
      exact fun m hm => by simpa [Prototype.arity, hn, ho] using hm
    · simp only [ho, hn, ne_eq, not_false_eq_true, if_true] at h
      cases h

/-- What announces the form and its prototype. -/
theorem consumes_heading (w : Keyword) (wanted : Expectation) :
    Consumes table (fun ts proto => ∃ hs, Heading hs proto ∧ ts = .keyword w :: hs) (do
      keyword w wanted
      prototype) := by
  refine (consumes_keyword _ _).bind fun ts _ ht => consumes_prototype.mono fun hs proto hp => ?_
  exact ⟨hs, hp, by rw [ht]; rfl⟩

end Prototypes

section Forms

/-- Nothing is read; at most what was read before is refused. -/
structure Checks (a : Read α) : Prop where
  ok : ∀ {r x s}, a r = .ok x s → s.lexer = r.lexer ∧ s.looked = r.looked
  error : ∀ {r e s}, a r = .error e s → s.lexer = r.lexer ∧ s.looked = r.looked ∧
    (e = .invalidOperands ∨ e = .invalidPrecedence)

theorem items_eq (hl : s.lexer = r.lexer) (hk : s.looked = r.looked) : s.items = r.items := by
  simp only [Reader.items, hl, hk]

theorem checks_pure {x : α} : Checks (pure x) where
  ok h := by
    cases h
    exact ⟨rfl, rfl⟩
  error h := by cases h

/-- Declaring an operator reads nothing. -/
theorem checks_declareOperator (proto : Prototype) : Checks (declareOperator proto) := by
  refine ⟨fun {r x s} h => ?_, fun {r e s} h => ?_⟩
  · have declared := declaring proto r
    generalize proto.head = head at declared
    rw [h] at declared
    cases declared <;> exact ⟨rfl, rfl⟩
  · have declared := declaring proto r
    generalize proto.head = head at declared
    rw [h] at declared
    cases declared
    exact ⟨rfl, rfl, .inr rfl⟩

/-- Behind a prototype hold the precedences that it admits. -/
theorem admits_of_declareOperator {proto : Prototype} {takeBack : Precedences → Precedences}
    (h : declareOperator proto r = .ok takeBack s) :
    r.precedences.Admits proto.head s.precedences := by
  have declared := declaring proto r
  obtain ⟨head, params⟩ := proto
  rw [h] at declared
  cases declared with
  | function name => exact .function name
  | unary op => exact .unary op
  | entered hd => exact .binary hd

/-- A form that begins with a keyword and a prototype is read in full only if the prototype is
accepted and its operator declared. -/
theorem makes_heading {w : Keyword} {wanted : Expectation} {x : α}
    {rest : Prototype → (Precedences → Precedences) → Read α}
    (h : (do
      keyword w wanted
      let proto ← prototype
      let takeBack ← declareOperator proto
      rest proto takeBack) r = .ok x s) :
    ∃ hs proto takeBack t, Heading hs proto ∧ proto.Suited ∧
      r.precedences.Admits proto.head t.precedences ∧
      r.items = (Token.keyword w :: hs).map .ok ++ t.items ∧ rest proto takeBack t = .ok x s := by
  rw [← bind_assoc] at h
  obtain ⟨proto, t, hp, h⟩ := bind_eq_ok.1 h
  obtain ⟨takeBack, u, hd, h⟩ := bind_eq_ok.1 h
  obtain ⟨_, _, -, accepted⟩ := bind_eq_ok.1 hp
  obtain ⟨ht, _, hi, hs, heading, rfl⟩ := (consumes_heading w wanted).ok rfl hp
  obtain ⟨hl, hk⟩ := (checks_declareOperator proto).ok hd
  exact ⟨hs, proto, takeBack, u, heading, suited_of_prototype accepted,
    ht ▸ admits_of_declareOperator hd, by rw [hi, items_eq hl hk], h⟩

/-- The tokens that are used up make up the form. -/
def ReadsAll (r : Reader) (f : Form) (s : Reader) : Prop :=
  ∃ ts, r.items = ts.map .ok ++ s.items ∧ Makes r.precedences ts f

/-- The body of a definition is read with the precedences that its prototype admits. -/
theorem makes_of_definition {d : Definition} (h : definition r = .ok d s) :
    ReadsAll r (.definition d) s := by
  rw [definition_eq] at h
  obtain ⟨hs, proto, takeBack, t, heading, suited, admits, hi, h⟩ := makes_heading h
  cases hb : (do return (⟨proto, ← expression⟩ : Definition) : Read Definition) t with
  | error e u => cases (tryCatch_of_error hb).symm.trans h
  | ok d' u =>
    cases (tryCatch_of_ok hb _).symm.trans h
    obtain ⟨body, v, hx, hb⟩ := bind_eq_ok.1 hb
    cases hb
    obtain ⟨-, ts, hi', derives⟩ := (consumes_expression t.precedences).ok rfl hx
    exact ⟨_, by rw [hi, hi', List.map_append, List.append_assoc],
      .definition heading suited admits derives⟩

/-- A declaration is no more than its prototype. -/
theorem makes_of_declaration {proto : Prototype} (h : declaration r = .ok proto s) :
    ReadsAll r (.declaration proto) s := by
  unfold declaration at h
  obtain ⟨hs, proto, takeBack, t, heading, suited, admits, hi, h⟩ := makes_heading h
  cases h
  exact ⟨_, hi, .declaration heading suited admits⟩

/-- **A form that is read is made of what is used up.** -/
theorem makes_of_ok {f : Form} (h : (peek >>= formAt) r = .ok (some f) s) : ReadsAll r f s := by
  obtain ⟨t, u, hp, h⟩ := bind_eq_ok.1 h
  have kept : u.precedences = r.precedences := peek_precedences hp
  rw [ReadsAll, ← items_of_peek hp, ← kept]
  unfold formAt at h
  split at h
  · cases h
  · cases h
    exact ⟨[.symbol ';'], items_of_looked (peek_ok hp).1 (by simp), .separator⟩
  · obtain ⟨d, v, hd, h⟩ := bind_eq_ok.1 h
    cases h
    exact makes_of_definition hd
  · obtain ⟨proto, v, hd, h⟩ := bind_eq_ok.1 h
    cases h
    exact makes_of_declaration hd
  · obtain ⟨d, v, hb, h⟩ := bind_eq_ok.1 h
    cases h
    obtain ⟨body, v, hx, hb⟩ := bind_eq_ok.1 hb
    cases hb
    obtain ⟨-, ts, hi, derives⟩ := (consumes_expression u.precedences).ok rfl hx
    exact ⟨ts, hi, .expression derives⟩

/-- Reading stops behind some tokens that begin a form. -/
def StopsBehind (table : Precedences) (r : Reader) (e : Fault) (s : Reader) : Prop :=
  ∃ ts, r.items = ts.map .ok ++ (e.lost ++ s.items) ∧ Begins table ts

/-- A bare expression stops behind a part of an expression. -/
theorem begins_of_expression (h : expression r = .error e s) : StopsBehind r.precedences r e s := by
  obtain ⟨ts, us, x, hi, derives⟩ := (consumes_expression r.precedences).error rfl h
  exact ⟨ts, hi, .expression derives⟩

/-- A form that begins with a keyword and a prototype can fail in these, or in what comes behind
them. -/
theorem begins_of_heading {w : Keyword} {wanted : Expectation}
    {rest : Prototype → (Precedences → Precedences) → Read α} (hw : w = .define ∨ w = .declare)
    (hrest : ∀ {proto takeBack hs t}, Heading hs proto → table.Admits proto.head t.precedences →
      rest proto takeBack t = .error e s →
      ∃ ts, t.items = ts.map .ok ++ (e.lost ++ s.items) ∧ Begins table (.keyword w :: hs ++ ts))
    (hr : r.precedences = table)
    (h : (do
      keyword w wanted
      let proto ← prototype
      let takeBack ← declareOperator proto
      rest proto takeBack) r = .error e s) : StopsBehind table r e s := by
  rw [← bind_assoc] at h
  rcases bind_eq_error.1 h with hp | ⟨proto, t, hp, h⟩
  · obtain ⟨ts, us, proto, hi, hs, hp, hts⟩ := (consumes_heading w wanted).error hr hp
    exact ⟨ts, hi, .heading hw hp hts⟩
  obtain ⟨ht, _, hi, hs, hp, rfl⟩ := (consumes_heading w wanted).ok hr hp
  rcases bind_eq_error.1 h with hd | ⟨takeBack, u, hd, h⟩
  · obtain ⟨hl, hk, he⟩ := (checks_declareOperator proto).error hd
    refine ⟨.keyword w :: hs, ?_, .heading hw hp (List.append_nil _)⟩
    rw [hi, items_eq hl hk]
    rcases he with rfl | rfl <;> rfl
  · obtain ⟨hl, hk⟩ := (checks_declareOperator proto).ok hd
    obtain ⟨ts, hts, begins⟩ := hrest hp (ht ▸ admits_of_declareOperator hd) h
    exact ⟨_, by rw [hi, ← items_eq hl hk, hts, List.map_append, List.append_assoc], begins⟩

/-- A definition stops within its heading, or within its body, whose operators then have the
precedences that the heading has declared. -/
theorem begins_of_definition (h : definition r = .error e s) :
    StopsBehind r.precedences r e s := by
  rw [definition_eq] at h
  refine begins_of_heading (.inl rfl) (fun {proto takeBack hs t} hp admits h => ?_) rfl h
  -- a body that cannot be read takes the operator back, which moves nothing else
  cases hb : (do return (⟨proto, ← expression⟩ : Definition) : Read Definition) t with
  | ok d u => cases (tryCatch_of_ok hb _).symm.trans h
  | error e' u =>
    cases (tryCatch_of_error hb).symm.trans h
    rcases bind_eq_error.1 hb with hx | ⟨x, v, -, hb⟩
    · obtain ⟨ts, us, x, hi, derives⟩ := (consumes_expression t.precedences).error rfl hx
      exact ⟨ts, hi, .body hp admits derives⟩
    · cases hb

/-- A declaration stops within its heading. -/
theorem begins_of_declaration (h : declaration r = .error e s) :
    StopsBehind r.precedences r e s := by
  unfold declaration at h
  exact begins_of_heading (.inr rfl) (fun _ _ h => by cases h) rfl h

/-- **What is used up of a form that cannot be read begins a form.** -/
theorem begins_of_error (h : (peek >>= formAt) r = .error e s) :
    StopsBehind r.precedences r e s := by
  rcases bind_eq_error.1 h with hp | ⟨t, u, hp, h⟩
  · obtain ⟨ts, x, derives⟩ := (consumes_expression r.precedences).inhabited
    exact ⟨[], items_of_peek_error hp, .expression ((List.nil_append ts).symm ▸ derives)⟩
  have kept : u.precedences = r.precedences := peek_precedences hp
  rw [StopsBehind, ← items_of_peek hp, ← kept]
  unfold formAt at h
  split at h
  · cases h
  · cases h
  · rcases bind_eq_error.1 h with h | ⟨d, v, -, h⟩
    · exact begins_of_definition h
    · cases h
  · rcases bind_eq_error.1 h with h | ⟨d, v, -, h⟩
    · exact begins_of_declaration h
    · cases h
  · rcases bind_eq_error.1 h with h | ⟨d, v, -, h⟩
    · rcases bind_eq_error.1 h with h | ⟨x, v, -, h⟩
      · exact begins_of_expression h
      · cases h
    · cases h

end Forms

end Read

end Kaleidoscope
