import Kaleidoscope.Proofs.Reading.Accounting
import Kaleidoscope.Proofs.Reading.Beginning

/-!
# Where reading goes on after a fault

A form is accounted for like an expression. A prototype that is refused was read up to its closing
parenthesis (`shuts_prototype`), and taking back an operator does not move the reader. So the
recovery from a fault, which drops the token in view, drops exactly the token at which reading
stopped, and nothing where there is none (`Halts.items_eq`).

`form_ok` and `form_error` say what a form takes from the front of what is left.
-/

namespace Kaleidoscope

/-- The token that was looked at and not yet used, if there is one before the end of the source. -/
def Reader.inView (r : Reader) : List Item :=
  match r.looked with
  | none | some .finish => []
  | some t => [.ok t]

namespace Read

variable {α β : Type} {k : Nat} {r s : Reader} {e : Fault}

section Prototypes

/-- A number behind an operator that is no precedence is not used up. -/
theorem accounts_operatorPrecedence : Accounted k operatorPrecedence := by
  intro r hk hr
  refine (accounts_peek r hk hr).bind fun ts t s hp hs hi hts => ?_
  subst hts
  have looked := (peek_ok hp).1
  cases t with
  | number x =>
    by_cases hx : (x < 1 || 100 < x) = true
    · simp only [hx, if_true]
      exact ⟨hs, [], rfl, looked ▸ .precedence [] hx⟩
    · simp only [hx]
      exact ⟨(fun hf => by cases hf), [.number x], items_of_looked looked (by simp), trivial⟩
  | _ => exact accounts_pure trivial s (Nat.le_refl _) hs

theorem accounts_head : Accounted k head := by
  unfold head
  refine (accounts_demand (by rfl) fun t ht => by simp [Expectation.met, ht]).andThen
    fun opening => ?_
  have operator : ∀ {wanted : Expectation}, (∀ t, wanted.met t = (declarable? t).isSome) →
      Advances k (demand declarable? wanted) := fun hmet =>
    accounts_demand (by rfl) fun t ht => by simp [hmet, ht]
  cases opening with
  | function name => exact accounts_pure trivial
  | unary => exact (operator fun _ => rfl).andThen fun _ => accounts_pure trivial
  | binary =>
    exact (operator fun _ => rfl).andThen fun _ =>
      accounts_operatorPrecedence.andThen fun _ => accounts_pure trivial

/-- Names are used up as long as they follow. -/
theorem accounts_names : Accounted k names := by
  have within : ∀ n, Accounted k (namesWithin n) := by
    intro n
    induction n with
    | zero => exact accounts_pure trivial
    | succ n ih =>
      unfold namesWithin
      refine (accounts_accept (by rfl)).andThen fun o => ?_
      cases o with
      | none => exact accounts_pure trivial
      | some name => exact ih.andThen fun _ => accounts_pure trivial
  exact fun r hk hr => within (fuel r) r hk hr

/-- The reading ends with a closing parenthesis, behind which no token is in view. -/
structure Shuts (k : Nat) (a : Read α) : Prop where
  accounts : Accounts k (fun ts _ => ∃ us, ts = us ++ [.symbol ')']) a
  looked : ∀ {r x s}, a r = .ok x s → s.looked = none

section Rules

variable {G : List Token → α → Prop} {a : Read α} {f : α → Read β}

/-- What ends with a closing parenthesis does so behind anything. -/
theorem Accounts.shut (ha : Accounts k G a) (hf : ∀ x, Shuts k (f x)) : Shuts k (a >>= f) where
  accounts := ha.bind fun ts x _ _ => ((hf x).accounts.within (Nat.sub_le _ _)).mono fun us y h => by
    obtain ⟨vs, rfl⟩ := h
    exact ⟨ts ++ vs, (List.append_assoc ..).symm⟩
  looked h := by
    obtain ⟨x, t, -, hy⟩ := bind_eq_ok.1 h
    exact (hf x).looked hy

/-- A refusal is told behind the closing parenthesis. -/
theorem Shuts.check (ha : Shuts k a) (hf : ∀ x, Checks (f x)) : Shuts k (a >>= f) where
  accounts := by
    intro r hk hr
    cases hx : a r with
    | error e t =>
      have stopped := ha.accounts r hk hr
      rw [hx] at stopped
      rw [bind_of_error hx]
      exact stopped
    | ok x t =>
      have read := ha.accounts r hk hr
      rw [hx] at read
      obtain ⟨ht, ts, hi, us, rfl⟩ := read
      rw [bind_of_ok hx]
      cases hy : f x t with
      | ok y s =>
        obtain ⟨hl, hs⟩ := (hf x).ok hy
        refine ⟨fun hf => ?_, _, items_eq hl hs ▸ hi, us, rfl⟩
        rw [hl]
        exact ht (hs ▸ hf)
      | error e s =>
        obtain ⟨hl, hs, he⟩ := (hf x).error hy
        have none : s.looked = none := hs.trans (ha.looked hx)
        refine ⟨fun hf => (by simp [none] at hf), us ++ [.symbol ')'], ?_, ?_⟩
        · rw [hi, items_eq hl hs]
          rcases he with rfl | rfl <;> rfl
        · rw [none]
          exact .refused us he
  looked h := by
    obtain ⟨x, t, hx, hy⟩ := bind_eq_ok.1 h
    exact ((hf x).ok hy).2.trans (ha.looked hx)

end Rules

theorem of_demand_ok {choose : Token → Option α} {wanted : Expectation} {x : α}
    (h : demand choose wanted r = .ok x s) : accept choose r = .ok (some x) s := by
  obtain ⟨o, u, ho, h⟩ := bind_eq_ok.1 h
  cases o with
  | none => cases h
  | some y =>
    cases h
    exact ho

theorem shuts_symbol {wanted : Expectation} (hmet : ∀ t, wanted.met t = t.isSymbol ')') :
    Shuts k (symbol ')' wanted) where
  accounts := by
    intro r hk hr
    have tally := accounts_symbol hmet r hk hr
    cases hx : symbol ')' wanted r with
    | error e s =>
      rw [hx] at tally
      exact tally
    | ok x s =>
      rw [hx] at tally
      obtain ⟨t, hc, hi⟩ := items_of_accept_some (by rfl) (of_demand_ok hx)
      obtain rfl : t = .symbol ')' := by simpa using hc
      exact ⟨tally.1, [.symbol ')'], hi, [], rfl⟩
  looked h := by
    obtain ⟨t, u, -, -, rfl⟩ := of_accept_some (of_demand_ok h)
    rfl

/-- A prototype is read up to its closing parenthesis, and refused only there. -/
theorem shuts_prototype : Shuts k prototype := by
  unfold prototype
  refine accounts_head.shut fun head => (accounts_symbol fun _ => rfl).shut fun _ =>
    accounts_names.shut fun params => (shuts_symbol fun _ => rfl).check fun _ => ?_
  cases operands head with
  | none => exact checks_pure
  | some n =>
    by_cases hn : params.length = n
    · simp only [hn, ne_eq, not_true, if_false]
      exact checks_pure
    · simp only [hn, ne_eq, not_false_eq_true, if_true]
      refine ⟨fun h => (by cases h), fun h => ?_⟩
      cases h
      exact ⟨rfl, rfl, .inl rfl⟩

/-- A form that begins with a keyword and a prototype. -/
theorem accounts_heading {w : Keyword} {wanted : Expectation}
    {rest : Prototype → (Precedences → Precedences) → Read α}
    (hmet : ∀ t, wanted.met t = t.isKeyword w)
    (hrest : ∀ proto takeBack, Accounted k (rest proto takeBack)) :
    Advances k (do
      keyword w wanted
      let proto ← prototype
      let takeBack ← declareOperator proto
      rest proto takeBack) := by
  have declared : Shuts k (do
      let proto ← prototype
      let takeBack ← declareOperator proto
      return (proto, takeBack)) := by
    refine shuts_prototype.check fun proto => ⟨fun h => ?_, fun h => ?_⟩
    · obtain ⟨takeBack, t, hd, h⟩ := bind_eq_ok.1 h
      cases h
      exact (checks_declareOperator proto).ok hd
    · rcases bind_eq_error.1 h with h | ⟨takeBack, t, -, h⟩
      · exact (checks_declareOperator proto).error h
      · cases h
  have whole := (accounts_keyword (k := k) hmet).advancing fun j hj _ =>
    (declared.accounts.andThen fun p => hrest p.1 p.2).within (Nat.le_of_lt hj)
  simpa only [bind_assoc, pure_bind] using whole

/-- If the body cannot be read, the operator is taken back and what is left stays as it was. -/
theorem accounts_definition : Advances k definition := by
  rw [definition_eq]
  refine accounts_heading (fun _ => rfl) fun proto takeBack r hk hr => ?_
  have body : Accounted k (do return (⟨proto, ← expression⟩ : Definition)) :=
    (descends k).expression.andThen fun _ => accounts_pure trivial
  have tally := body r hk hr
  cases hb : (do return (⟨proto, ← expression⟩ : Definition) : Read Definition) r with
  | ok d t =>
    rw [tryCatch_of_ok hb]
    exact hb ▸ tally
  | error e t =>
    rw [tryCatch_of_error hb]
    rw [hb] at tally
    exact tally

/-- The keyword is used up, and then the prototype. -/
theorem accounts_declaration : Advances k declaration := by
  unfold declaration
  exact accounts_heading (fun _ => rfl) fun _ _ => accounts_pure trivial

end Prototypes

section Forms

variable {used : List Token} {u : Reader}

/-- Reading a form stops at `u`: behind what it has used up of the form and reported, with the token
that it could not use in view. What it has used up is the beginning of a form. -/
structure Halts (r : Reader) (used : List Token) (e : Fault) (u : Reader) : Prop where
  stopped : (peek >>= formAt) r = .error e u
  items : r.items = used.map .ok ++ (e.lost ++ u.items)
  begins : Begins r.precedences used
  stops : Stops used e u.looked
  ends : u.Ends

/-- What is left is the token in view and what comes behind it. -/
theorem items_eq_inView (h : u.Ends) :
    u.items = u.inView ++ { u with looked := none : Reader }.items := by
  cases hl : u.looked with
  | none => simp only [Reader.items, Reader.inView, hl, List.nil_append]
  | some t =>
    by_cases ht : t = .finish
    · subst ht
      have left : { u with looked := none : Reader }.items = [] := h hl
      rw [items_of_looked_finish hl, left]
      simp only [Reader.inView, hl, List.append_nil]
    · rw [items_of_looked hl ht]
      cases t with
      | finish => exact absurd rfl ht
      | _ => simp only [Reader.inView, hl, List.singleton_append]

/-- The recovery drops the token in view and leaves the rest. -/
theorem Halts.items_eq (h : Halts r used e u) :
    r.items = used.map .ok ++ (e.lost ++ u.inView) ++ { u with looked := none : Reader }.items := by
  rw [h.items, items_eq_inView h.ends]
  simp only [List.append_assoc]

/-- Only where nothing was left can reading stop with nothing used up, reported or in view. -/
theorem Halts.ne_nil (h : Halts r used e u) (hr : current? r.items ≠ some .finish) :
    used.map .ok ++ (e.lost ++ u.inView) ≠ [] := by
  intro hnil
  obtain ⟨hused, hrest⟩ := List.append_eq_nil_iff.1 hnil
  obtain ⟨hlost, hview⟩ := List.append_eq_nil_iff.1 hrest
  have stops := h.stops
  generalize hl : u.looked = looked at stops
  cases stops with
  | lexical => simp [Fault.lost] at hlost
  | @unexpected wanted t _ hm =>
    by_cases ht : t = .finish
    · refine hr ?_
      rw [h.items, hused, hlost, items_of_looked_finish (ht ▸ hl)]
      rfl
    · cases t <;> simp [Reader.inView, hl] at hview ht
  | precedence => simp [Reader.inView, hl] at hview
  | refused => simp at hused

/-- A form uses up at least the token that decides it, as long as it is neither the end nor a
separator. -/
theorem accounts_formAt {t : Token} (hfinish : t ≠ .finish) (hsep : t ≠ .symbol ';') :
    Accounts k (fun ts x => ts ≠ [] ∧ x.isSome) (formAt t) := by
  unfold formAt
  split
  · exact absurd rfl hfinish
  · exact absurd rfl hsep
  · exact accounts_definition.bind fun ts d _ hts => accounts_pure ⟨by simpa using hts, rfl⟩
  · exact accounts_declaration.bind fun ts proto _ hts => accounts_pure ⟨by simpa using hts, rfl⟩
  · refine Accounts.bind (G := fun ts _ => ts ≠ []) ?_ fun ts d _ hts =>
      accounts_pure ⟨by simpa using hts, rfl⟩
    exact (descends k).expression.advancing fun _ _ _ => accounts_pure trivial

/-- From its first token a form is read to its end, or to where it stops. -/
theorem tally_opened (hr : r.Ends) :
    Tally (fun ts x => x.isSome ∧ ts ≠ [] ∨ x = none ∧ ts = [] ∧ r.items = []) r
      ((peek >>= formAt) r) := by
  refine (accounts_peek r (Nat.le_refl _) hr).bind fun ts t s hp hs hi hts => ?_
  subst hts
  have looked := (peek_ok hp).1
  by_cases hfinish : t = .finish
  · subst hfinish
    exact ⟨hs, [], rfl, .inr ⟨rfl, rfl, items_of_peek hp ▸ items_of_looked_finish looked⟩⟩
  by_cases hsep : t = .symbol ';'
  · subst hsep
    exact ⟨fun hf => (by cases hf), [.symbol ';'], items_of_looked looked (by simp),
      .inl ⟨rfl, by simp⟩⟩
  exact (accounts_formAt hfinish hsep s (Nat.le_refl _) hs).mono fun us x h => .inl ⟨h.2, h.1⟩

/-- Stretches of tokens in front of the same rest are the same. -/
theorem tokens_eq {ts us : List Token} {rest : List Item} (h : r.items = ts.map .ok ++ rest)
    (h' : r.items = us.map .ok ++ rest) : ts = us := by
  have same : ts.map Except.ok = us.map Except.ok := List.append_cancel_right (h.symm.trans h')
  exact (List.map_inj_right fun _ _ h => by cases h; rfl).1 same

/-- A form that is read takes the tokens that it is made of from the front of what is left, and
where there is no form nothing is left. -/
theorem form_ok {x : Option Form} (h : form r = .ok x s) :
    (∃ f ts, x = some f ∧ ts ≠ [] ∧ Makes r.precedences ts f ∧ r.items = ts.map .ok ++ s.items) ∨
      x = none ∧ r.items = [] ∧ s.items = [] := by
  by_cases hf : r.looked = some .finish
  · have finished : (peek >>= formAt) r = .ok none r := bind_of_ok (peek_of_looked hf) _
    cases (tryCatch_of_ok finished _).symm.trans h
    exact .inr ⟨rfl, items_of_looked_finish hf, items_of_looked_finish hf⟩
  have tally := tally_opened (r := r) fun h => absurd h hf
  cases hb : (peek >>= formAt) r with
  | error e u => cases (tryCatch_of_error hb).symm.trans h
  | ok y u =>
    cases (tryCatch_of_ok hb _).symm.trans h
    rw [hb] at tally
    obtain ⟨-, ts, hi, ⟨hx, hts⟩ | ⟨rfl, rfl, none⟩⟩ := tally
    · obtain ⟨f, rfl⟩ := Option.isSome_iff_exists.1 hx
      obtain ⟨us, hi', makes⟩ := makes_of_ok hb
      -- both say how much is used up
      obtain rfl := tokens_eq hi hi'
      exact .inl ⟨f, ts, rfl, hts, makes, hi⟩
    · exact .inr ⟨rfl, none, by simpa [none] using hi.symm⟩

/-- After a fault reading goes on just behind the token in view where it stopped. -/
theorem form_error (h : form r = .error e s) :
    ∃ used u, Halts r used e u ∧ s = { u with looked := none } ∧
      used.map .ok ++ (e.lost ++ u.inView) ≠ [] := by
  have unfinished : current? r.items ≠ some .finish := fun hc => by
    obtain ⟨u, hp⟩ := peek_of_current? hc
    have finished : (peek >>= formAt) r = .ok none u := bind_of_ok hp _
    cases (tryCatch_of_ok finished _).symm.trans h
  have tally := tally_opened (r := r) fun hf => absurd (current?_of_looked hf) unfinished
  cases hb : (peek >>= formAt) r with
  | ok y u => cases (tryCatch_of_ok hb _).symm.trans h
  | error e' u =>
    cases (tryCatch_of_error hb).symm.trans h
    rw [hb] at tally
    obtain ⟨ends, used, hi, stops⟩ := tally
    obtain ⟨ts, hi', begins⟩ := begins_of_error hb
    obtain rfl := tokens_eq hi hi'
    have halts : Halts r used e u := ⟨hb, hi, begins, stops, ends⟩
    exact ⟨used, u, halts, rfl, halts.ne_nil unfinished⟩

end Forms

end Read

end Kaleidoscope
