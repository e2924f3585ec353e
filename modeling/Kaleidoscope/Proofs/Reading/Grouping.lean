import Kaleidoscope.Proofs.Reading.Invariant

/-!
# How a chain of operators is grouped

The grouping of a chain of operands and operators is said by the precedences alone: of its weakest
operators the last one is at the top, and the two sides are grouped by themselves (`grouped`). The
reader builds the same tree from the left, one operand at a time and with one token of lookahead.
`Climbs` says what it has built at every call: the operators that are strong enough for the call,
grouped behind the left operand that it was given. Main statement: `expression_eq_grouped`.
-/

namespace Kaleidoscope

/-- A binary operator with its precedence and its right neighbour. -/
structure Operation where
  op : Char
  precedence : Int
  operand : Expr

/-- Only what has a positive precedence is an operator. -/
theorem Precedences.operator?_pos {table : Precedences} {t : Token} {op : Char} {p : Int}
    (h : table.operator? t = some (op, p)) : 0 < p := by
  obtain ⟨c, -, hc⟩ := Option.bind_eq_some_iff.1 h
  obtain ⟨q, hq, he⟩ := Option.map_eq_some_iff.1 hc
  cases he
  unfold Precedences.get? at hq
  split at hq
  · simpa using (Option.filter_eq_some_iff.1 hq).2
  · cases hq

namespace Operation

/-- The last of the weakest operations, with those before it and those after it. -/
def lastWeakest? : List Operation → Option (List Operation × Operation × List Operation)
  | [] => none
  | o :: os =>
    match lastWeakest? os with
    | none => some ([], o, [])
    | some (before, w, after) =>
      if w.precedence ≤ o.precedence then some (o :: before, w, after) else some ([], o, os)

theorem lastWeakest?_eq_none {os : List Operation} (h : lastWeakest? os = none) : os = [] := by
  cases os with
  | nil => rfl
  | cons o os =>
    unfold lastWeakest? at h
    split at h
    · cases h
    · split at h <;> cases h

/-- Before the last of the weakest none is weaker, and behind it all are stronger. -/
theorem of_lastWeakest? {os before after : List Operation} {w : Operation}
    (h : lastWeakest? os = some (before, w, after)) :
    os = before ++ w :: after ∧ (∀ o ∈ before, w.precedence ≤ o.precedence) ∧
      ∀ o ∈ after, w.precedence < o.precedence := by
  induction os generalizing before w after with
  | nil => cases h
  | cons o os ih =>
    unfold lastWeakest? at h
    split at h
    · next hn =>
      cases h
      cases lastWeakest?_eq_none hn
      simp
    · next b v a hs =>
      obtain ⟨rfl, hb, ha⟩ := ih hs
      split at h
      · next hle =>
        cases h
        exact ⟨rfl, by simpa using ⟨hle, hb⟩, ha⟩
      · next hlt =>
        cases h
        refine ⟨rfl, by simp, fun x hx => ?_⟩
        rcases List.mem_append.1 hx with hx | hx
        · have := hb x hx
          omega
        · rcases List.mem_cons.1 hx with rfl | hx
          · omega
          · have := ha x hx
            omega

/-- The last of the weakest is determined by these two properties. -/
theorem lastWeakest?_append {before after : List Operation} {w : Operation}
    (hb : ∀ o ∈ before, w.precedence ≤ o.precedence) (ha : ∀ o ∈ after, w.precedence < o.precedence) :
    lastWeakest? (before ++ w :: after) = some (before, w, after) := by
  induction before with
  | nil =>
    rw [List.nil_append, lastWeakest?]
    split
    · next hn => rw [lastWeakest?_eq_none hn]
    · next b v a hs =>
      obtain ⟨rfl, -, -⟩ := of_lastWeakest? hs
      have := ha v (by simp)
      rw [if_neg (by omega)]
  | cons o before ih =>
    rw [List.cons_append, lastWeakest?, ih fun x hx => hb x (List.mem_cons_of_mem o hx)]
    have := hb o (by simp)
    simp only [if_pos this]

/-- The tree of an operand with the operations behind it: the last of the weakest operators is at
the top. -/
def grouped (first : Expr) (os : List Operation) : Expr :=
  match _h : lastWeakest? os with
  | none => first
  | some (before, w, after) => .binary w.op (grouped first before) (grouped w.operand after)
termination_by os.length
decreasing_by
  all_goals
    obtain ⟨rfl, -, -⟩ := of_lastWeakest? _h
    simp only [List.length_append, List.length_cons]
    omega

@[simp] theorem grouped_nil (first : Expr) : grouped first [] = first := by
  rw [grouped]
  rfl

/-- The tree has the last of the weakest at the top, with what is before it on the left and what is
behind it on the right. -/
theorem grouped_append (first : Expr) {before after : List Operation} {w : Operation}
    (hb : ∀ o ∈ before, w.precedence ≤ o.precedence) (ha : ∀ o ∈ after, w.precedence < o.precedence) :
    grouped first (before ++ w :: after) =
      .binary w.op (grouped first before) (grouped w.operand after) := by
  rw [grouped]
  split
  · next hn => rw [lastWeakest?_append hb ha] at hn; cases hn
  · next hs =>
    rw [lastWeakest?_append hb ha] at hs
    cases hs
    rfl

/-- The first operator takes the stronger operators behind it into its right operand, and the tree
goes on from there as soon as an operator comes that is no stronger. -/
theorem grouped_cons (first : Expr) {o : Operation} {strong rest : List Operation}
    (hs : ∀ x ∈ strong, o.precedence < x.precedence)
    (hr : ∀ x ∈ rest.head?, x.precedence ≤ o.precedence) :
    grouped first (o :: (strong ++ rest)) =
      grouped (.binary o.op first (grouped o.operand strong)) rest := by
  cases hw : lastWeakest? rest with
  | none =>
    cases lastWeakest?_eq_none hw
    have alone : ∀ x ∈ ([] : List Operation), o.precedence ≤ x.precedence := by simp
    simpa using grouped_append first alone hs
  | some found =>
    obtain ⟨before, w, after⟩ := found
    obtain ⟨rfl, hb, ha⟩ := of_lastWeakest? hw
    have weaker : w.precedence ≤ o.precedence := by
      cases before with
      | nil => exact hr w rfl
      | cons b before =>
        have h1 := hr b rfl
        have h2 := hb b (by simp)
        omega
    have front : ∀ x ∈ o :: (strong ++ before), w.precedence ≤ x.precedence := by
      intro x hx
      rcases List.mem_cons.1 hx with rfl | hx
      · exact weaker
      · rcases List.mem_append.1 hx with hx | hx
        · have := hs x hx
          omega
        · exact hb x hx
    -- the first operator keeps its stronger ones whatever is behind the weakest
    have inner := grouped_cons first hs fun x (hx : x ∈ before.head?) => hr x (by
      cases before with
      | nil => cases hx
      | cons b before => exact hx)
    rw [grouped_append _ hb ha, ← inner, ← grouped_append _ front ha]
    simp
termination_by rest.length
decreasing_by
  subst_vars
  simp only [List.length_append, List.length_cons]
  omega

/-- The operations up to the first that is weaker than the bound. -/
def upTo (least : Int) (os : List Operation) : List Operation :=
  os.takeWhile fun o => decide (least ≤ o.precedence)

/-- The operations from the first on that is weaker than the bound. -/
def beyond (least : Int) (os : List Operation) : List Operation :=
  os.dropWhile fun o => decide (least ≤ o.precedence)

section Bounds

variable {o : Operation} {os : List Operation} {least : Int}

theorem upTo_of_le (h : least ≤ o.precedence) : upTo least (o :: os) = o :: upTo least os := by
  simp [upTo, h]

theorem upTo_of_lt (h : o.precedence < least) : upTo least (o :: os) = [] := by
  simp [upTo, h]

theorem beyond_of_le (h : least ≤ o.precedence) : beyond least (o :: os) = beyond least os := by
  simp [beyond, h]

theorem beyond_of_lt (h : o.precedence < least) : beyond least (o :: os) = o :: os := by
  simp [beyond, h]

theorem le_of_mem_upTo {x : Operation} (h : x ∈ upTo least os) : least ≤ x.precedence := by
  have := List.all_eq_true.1 List.all_takeWhile x h
  simpa using this

theorem head_upTo {x : Operation} (h : x ∈ (upTo least os).head?) : x ∈ os.head? := by
  rw [upTo, List.head?_takeWhile] at h
  exact (Option.filter_eq_some_iff.1 h).1

theorem lt_of_head_beyond {x : Operation} (h : x ∈ (beyond least os).head?) :
    x.precedence < least := by
  have first := List.head?_dropWhile_not (fun o : Operation => decide (least ≤ o.precedence)) os
  unfold beyond at h
  rw [Option.mem_def.1 h] at first
  simpa using first

theorem upTo_eq_self (h : ∀ o ∈ os, least ≤ o.precedence) : upTo least os = os := by
  induction os with
  | nil => rfl
  | cons o os ih =>
    rw [upTo_of_le (h o (by simp)), ih fun x hx => h x (List.mem_cons_of_mem o hx)]

theorem beyond_eq_nil (h : ∀ o ∈ os, least ≤ o.precedence) : beyond least os = [] := by
  induction os with
  | nil => rfl
  | cons o os ih =>
    rw [beyond_of_le (h o (by simp)), ih fun x hx => h x (List.mem_cons_of_mem o hx)]

theorem length_beyond : (beyond least os).length ≤ os.length :=
  (List.dropWhile_sublist _).length_le

/-- The operations that are stronger than a bound can be split off first. -/
theorem upTo_split (os : List Operation) {p : Int} (h : least ≤ p) :
    upTo least os = upTo p os ++ upTo least (beyond p os) ∧
      beyond least os = beyond least (beyond p os) := by
  induction os with
  | nil => exact ⟨rfl, rfl⟩
  | cons o os ih =>
    by_cases hp : p ≤ o.precedence
    · have hl : least ≤ o.precedence := by omega
      rw [upTo_of_le hl, upTo_of_le hp, beyond_of_le hl, beyond_of_le hp, ih.1, ← ih.2]
      exact ⟨rfl, rfl⟩
    · have hp : o.precedence < p := by omega
      rw [upTo_of_lt hp, beyond_of_lt hp]
      exact ⟨rfl, rfl⟩

end Bounds

end Operation

namespace Read

open Operation

/-- From the reader `r`, behind an operand, follow the operations `os`, and then the token `t`, which
is no operator; `s` is the reader that looks at it. -/
inductive Follows (table : Precedences) : Reader → List Operation → Token → Reader → Prop
  | stop {r s : Reader} {t : Token} :
    peek r = .ok t s → table.operator? t = none → Follows table r [] t s
  | more {r r₁ r₂ s : Reader} {o t : Token} {op : Char} {p : Int} {e : Expr}
      {os : List Operation} :
    peek r = .ok o r₁ → table.operator? o = some (op, p) →
    unary { r₁ with looked := none } = .ok e r₂ → Follows table r₂ os t s →
    Follows table r (⟨op, p, e⟩ :: os) t s

section Steps

variable {r s : Reader}

/-- A token that was looked at is shown again. -/
theorem peek_of_looked {t : Token} (h : r.looked = some t) : peek r = .ok t r := by
  simp only [peek, h]

/-- Looking twice shows the same. -/
theorem peek_idem {t : Token} (h : peek r = .ok t s) : peek s = .ok t s :=
  peek_of_looked (peek_ok h).1

/-- Reading an expression changes no precedences, be it by looking or by using up. -/
theorem peek_precedences {t : Token} (h : peek r = .ok t s) : s.precedences = r.precedences :=
  ((lasting_precedences r.precedences).peek.ok rfl h).1

theorem unary_precedences {e : Expr} (h : unary r = .ok e s) : s.precedences = r.precedences :=
  ((reads_unary (lasting_precedences r.precedences)).ok rfl h).1

theorem accept_none {choose : Token → Option α} {t : Token} (h : peek r = .ok t s)
    (hc : choose t = none) : accept choose r = .ok none s := by
  unfold accept
  rw [bind_of_ok h, hc]
  rfl

theorem accept_some {choose : Token → Option α} {t : Token} {a : α} (h : peek r = .ok t s)
    (hc : choose t = some a) : accept choose r = .ok (some a) { s with looked := none } := by
  unfold accept
  rw [bind_of_ok h, hc]
  rfl

theorem binaryOperator_none (least : Int) {t : Token} (h : peek r = .ok t s)
    (hw : ∀ found ∈ r.precedences.operator? t, found.2 < least) :
    binaryOperator least r = .ok none s := by
  unfold binaryOperator
  rw [bind_of_ok (rfl : (get : Read Reader) r = .ok r r)]
  refine accept_none h (Option.filter_eq_none_iff.2 fun found hf => ?_)
  have := hw found hf
  simpa using this

theorem binaryOperator_some {least p : Int} {op : Char} {t : Token} (h : peek r = .ok t s)
    (ho : r.precedences.operator? t = some (op, p)) (hl : least ≤ p) :
    binaryOperator least r = .ok (some (op, p)) { s with looked := none } := by
  unfold binaryOperator
  rw [bind_of_ok (rfl : (get : Read Reader) r = .ok r r)]
  exact accept_some h (by simp [ho, hl])

/-- The reader compares the next operator, if the next token is one. -/
theorem strongerFollows_eq {p : Int} {t : Token} (h : peek r = .ok t s) :
    strongerFollows p r = .ok ((r.precedences.operator? t).any fun found => p < found.2) s := by
  unfold strongerFollows
  rw [bind_of_ok h, ← peek_precedences h]
  rfl

end Steps

variable {table : Precedences}

/-- What follows is the same once the next token was looked at. -/
theorem Follows.peeked {r r' s : Reader} {os : List Operation} {o t : Token}
    (h : Follows table r os t s) (hp : peek r = .ok o r') : Follows table r' os t s := by
  cases h with
  | stop hp' ho =>
    cases hp.symm.trans hp'
    exact .stop (peek_idem hp) ho
  | more hp' ho hu h =>
    cases hp.symm.trans hp'
    exact .more (peek_idem hp) ho hu h

/-- The first of the operations that follow is the next token. -/
theorem Follows.head {r s : Reader} {os : List Operation} {t : Token} (h : Follows table r os t s) :
    ∃ o r', peek r = .ok o r' ∧
      table.operator? o = os.head?.map fun x => (x.op, x.precedence) := by
  cases h with
  | stop hp ho => exact ⟨_, _, hp, ho⟩
  | more hp ho _ _ => exact ⟨_, _, hp, ho⟩

/-- Operators that follow have positive precedences, so that a call with the least bound takes all
of them. -/
theorem Follows.positive {r s : Reader} {os : List Operation} {t : Token}
    (h : Follows table r os t s) : ∀ o ∈ os, 0 < o.precedence := by
  induction h with
  | stop => simp
  | more _ ho _ _ ih =>
    intro x hx
    rcases List.mem_cons.1 hx with rfl | hx
    · exact Precedences.operator?_pos ho
    · exact ih x hx

/-- With every bound that is large enough, what is strong enough for the call is grouped behind the
left operand, and the reader looks at the first operator that is not. -/
def Climbs (table : Precedences) (os : List Operation) (t : Token) (s : Reader) : Prop :=
  ∀ r, Follows table r os t s → r.precedences = table → ∀ least left, ∃ N r',
    Follows table r' (beyond least os) t s ∧ r'.precedences = table ∧
      (∃ o, r'.looked = some o) ∧
      ∀ n, N ≤ n → binaryWithin n least left r = .ok (grouped left (upTo least os)) r'

/-- The right operand of an operator takes in the stronger operators behind it. -/
theorem rightOperand_eq_grouped {os : List Operation} {t : Token} {r s : Reader}
    (ih : Climbs table os t s) (h : Follows table r os t s) (hr : r.precedences = table) (p : Int)
    (e : Expr) :
    ∃ N r', Follows table r' (beyond (p + 1) os) t s ∧ r'.precedences = table ∧
      ∀ n, N ≤ n → rightOperand (binaryWithin n) p e r = .ok (grouped e (upTo (p + 1) os)) r' := by
  obtain ⟨next, r₁, hp, hn⟩ := h.head
  have hr₁ : r₁.precedences = table := (peek_precedences hp).trans hr
  have stronger := strongerFollows_eq (p := p) hp
  rw [hr, hn] at stronger
  by_cases hs : ∃ x ∈ os.head?, p < x.precedence
  · obtain ⟨x, hx, hlt⟩ := hs
    obtain ⟨N, r', h', hr', -, climb⟩ := ih r₁ (h.peeked hp) hr₁ (p + 1) e
    refine ⟨N, r', h', hr', fun n hn => ?_⟩
    rw [rightOperand, bind_of_ok stronger]
    simp only [Option.mem_def.1 hx, Option.map_some, Option.any_some, hlt, decide_true, if_true]
    exact climb n hn
  · have weak : upTo (p + 1) os = [] ∧ beyond (p + 1) os = os := by
      cases os with
      | nil => exact ⟨rfl, rfl⟩
      | cons x os =>
        have : x.precedence < p + 1 := by
          have : ¬ p < x.precedence := fun hx => hs ⟨x, rfl, hx⟩
          omega
        exact ⟨upTo_of_lt this, beyond_of_lt this⟩
    rw [weak.1, weak.2, grouped_nil]
    refine ⟨0, r₁, h.peeked hp, hr₁, fun n _ => ?_⟩
    rw [rightOperand, bind_of_ok stronger]
    cases hd : os.head? with
    | none => rfl
    | some x =>
      have : ¬ p < x.precedence := fun hx => hs ⟨x, hd, hx⟩
      simp only [Option.map_some, Option.any_some, this, decide_false]
      rfl

/-- Where no operator follows, the call gives back its left operand. -/
theorem climbs_nil {t : Token} {s : Reader} : Climbs table [] t s := by
  intro r h hr least left
  cases h with
  | stop hp ho =>
    refine ⟨1, s, .stop (peek_idem hp) ho, (peek_precedences hp).trans hr, ⟨t, (peek_ok hp).1⟩, ?_⟩
    intro n hn
    obtain ⟨n, rfl⟩ := Nat.exists_eq_add_of_le' hn
    have none := binaryOperator_none least hp (by simp [hr, ho])
    rw [binaryWithin, bind_of_ok none, upTo, List.takeWhile_nil, grouped_nil]
    rfl

/-- An operator that is strong enough for the call, with its right operand. -/
theorem climbs_cons {os : List Operation} {t o : Token} {r r₁ r₂ s : Reader} {op : Char} {p : Int}
    {e : Expr} (ih : ∀ os', os'.length ≤ os.length → Climbs table os' t s)
    (hp : peek r = .ok o r₁) (ho : r.precedences.operator? o = some (op, p))
    (hu : unary { r₁ with looked := none } = .ok e r₂) (h : Follows table r₂ os t s)
    (hr₂ : r₂.precedences = table) {least : Int} (hl : least ≤ p) (left : Expr) :
    ∃ N r', Follows table r' (beyond least os) t s ∧ r'.precedences = table ∧
      (∃ o, r'.looked = some o) ∧ ∀ n, N ≤ n →
        binaryWithin n least left r = .ok (grouped left (⟨op, p, e⟩ :: upTo least os)) r' := by
  obtain ⟨N, r₃, h₃, hr₃, right⟩ := rightOperand_eq_grouped (ih os (Nat.le_refl _)) h hr₂ p e
  obtain ⟨M, r₄, h₄, hr₄, hl₄, climb⟩ := ih (beyond (p + 1) os) length_beyond r₃ h₃ hr₃ least
    (.binary op left (grouped e (upTo (p + 1) os)))
  have split := upTo_split os (show least ≤ p + 1 by omega)
  refine ⟨max (max N M) (fuel { r₁ with looked := none }) + 1, r₄, split.2 ▸ h₄, hr₄, hl₄, ?_⟩
  intro n hn
  obtain ⟨n, rfl⟩ : ∃ m, n = m + 1 := ⟨n - 1, by omega⟩
  have operand : unaryWithin n { r₁ with looked := none } = .ok e r₂ :=
    (unaryWithin_eq (by omega)).trans hu
  have tree : grouped (.binary op left (grouped e (upTo (p + 1) os)))
      (upTo least (beyond (p + 1) os)) = grouped left (⟨op, p, e⟩ :: upTo least os) := by
    rw [split.1]
    refine (grouped_cons left (o := ⟨op, p, e⟩) (fun x hx => ?_) fun x hx => ?_).symm
    · have := le_of_mem_upTo hx
      show p < x.precedence
      omega
    · have := lt_of_head_beyond (head_upTo hx)
      show x.precedence ≤ p
      omega
  rw [binaryWithin, bind_of_ok (binaryOperator_some hp ho hl)]
  show (unaryWithin n >>= _) _ = _
  rw [bind_of_ok operand, bind_of_ok (right n (by omega)), climb n (by omega), tree]

/-- By induction on the number of operations, as the calls for the right operand and for the rest of
the chain have fewer of them. -/
theorem climbs (t : Token) (s : Reader) : ∀ k os, os.length ≤ k → Climbs table os t s := by
  intro k
  induction k with
  | zero =>
    intro os hk
    cases List.eq_nil_of_length_eq_zero (Nat.le_zero.1 hk)
    exact climbs_nil
  | succ k ih =>
    intro os hk
    cases os with
    | nil => exact climbs_nil
    | cons x os =>
      simp only [List.length_cons] at hk
      intro r h hr least left
      cases h with
      | @more _ r₁ r₂ _ o _ op p e _ hp ho hu h =>
        have hr₁ : r₁.precedences = table := (peek_precedences hp).trans hr
        by_cases hl : least ≤ p
        · rw [upTo_of_le hl, beyond_of_le hl]
          exact climbs_cons (fun os' hs => ih os' (by omega)) hp (hr ▸ ho) hu h
            ((unary_precedences hu).trans hr₁) hl left
        · have hl : p < least := by omega
          rw [upTo_of_lt hl, beyond_of_lt hl]
          refine ⟨1, r₁, .more (peek_idem hp) ho hu h, hr₁, ⟨o, (peek_ok hp).1⟩, fun n hn => ?_⟩
          obtain ⟨n, rfl⟩ := Nat.exists_eq_add_of_le' hn
          have none := binaryOperator_none least hp (by simpa [hr, ho] using hl)
          rw [binaryWithin, bind_of_ok none, grouped_nil]
          rfl

/-- **Precedence climbing.** If a unary expression is followed by operators with unary operands, and
then by a token that is no operator, the reader takes all of them, groups them by precedence, and
stops before that token. -/
theorem expression_eq_grouped {r r₁ s : Reader} {first : Expr} {os : List Operation} {t : Token}
    (hu : unary r = .ok first r₁) (h : Follows r.precedences r₁ os t s) :
    expression r = .ok (grouped first os) s ∧ s.looked = some t := by
  have hr₁ := unary_precedences hu
  obtain ⟨N, r', h', -, ⟨o, hl⟩, climb⟩ :=
    climbs t s os.length os (Nat.le_refl _) r₁ h hr₁ 0 first
  have strong : ∀ x ∈ os, 0 ≤ x.precedence := fun x hx => Int.le_of_lt (h.positive x hx)
  rw [upTo_eq_self strong] at climb
  rw [beyond_eq_nil strong] at h'
  have stop : r' = s ∧ o = t := by
    cases h' with
    | stop hp _ =>
      rw [peek_of_looked hl] at hp
      cases hp
      exact ⟨rfl, rfl⟩
  obtain ⟨rfl, rfl⟩ := stop
  refine ⟨?_, hl⟩
  have operand : unaryWithin (max N (fuel r)) r = .ok first r₁ := by
    rw [unaryWithin_eq (by omega), hu]
  rw [← expressionWithin_eq (n := max N (fuel r) + 1) (by omega), expressionWithin,
    bind_of_ok operand]
  exact climb _ (by omega)

theorem expression_eq_grouped_mixed :
    expression { lexer := ⟨['a', '-', 'b', '*', 'c', '-', 'd', ';'], []⟩ } =
        .ok (.binary '-' (.binary '-' (.variable "a") (.binary '*' (.variable "b") (.variable "c")))
          (.variable "d")) { lexer := ⟨[], []⟩, looked := some (.symbol ';') } ∧
      ({ lexer := ⟨[], []⟩, looked := some (.symbol ';') } : Reader).looked = some (.symbol ';') := by
  let rest : List Char → Token → Reader := fun cs t => { lexer := ⟨cs, []⟩, looked := some t }
  have hd : Follows {} (rest [] (.symbol ';')) [] (.symbol ';') (rest [] (.symbol ';')) :=
    .stop rfl (by decide)
  have hc : Follows {} (rest ['d', ';'] (.symbol '-')) [⟨'-', 20, .variable "d"⟩] (.symbol ';')
      (rest [] (.symbol ';')) := .more rfl (by decide) (by rfl) hd
  have hb : Follows {} (rest ['c', '-', 'd', ';'] (.symbol '*'))
      [⟨'*', 40, .variable "c"⟩, ⟨'-', 20, .variable "d"⟩] (.symbol ';')
      (rest [] (.symbol ';')) := .more rfl (by decide) (by rfl) hc
  have ha : Follows {} (rest ['b', '*', 'c', '-', 'd', ';'] (.symbol '-'))
      [⟨'-', 20, .variable "b"⟩, ⟨'*', 40, .variable "c"⟩, ⟨'-', 20, .variable "d"⟩] (.symbol ';')
      (rest [] (.symbol ';')) := .more rfl (by decide) (by rfl) hb
  have hu : unary { lexer := ⟨['a', '-', 'b', '*', 'c', '-', 'd', ';'], []⟩ } =
      .ok (.variable "a") (rest ['b', '*', 'c', '-', 'd', ';'] (.symbol '-')) := by rfl
  have read := expression_eq_grouped hu ha
  have tree : grouped (.variable "a") [⟨'-', 20, .variable "b"⟩, ⟨'*', 40, .variable "c"⟩,
      ⟨'-', 20, .variable "d"⟩] = .binary '-' (.binary '-' (.variable "a")
        (.binary '*' (.variable "b") (.variable "c"))) (.variable "d") := by
    simp [grouped, lastWeakest?]
  rw [tree] at read
  exact read

end Read

end Kaleidoscope
