import Kaleidoscope.Form.Reading
import Kaleidoscope.Proofs.Reading.Stream
import Kaleidoscope.Proofs.Reading.Unbounded

/-!
# What reading uses up, and where it stops

Nothing of a source is read twice or passed over, also where a form cannot be read. `Accounts` says
of a reading that what it uses up is a stretch of tokens at the front of what is left, and that it
fails in one of four ways only (`Stops`): at a place where the text cannot be cut into tokens, at a
token that is not the one wanted, at a number that is no precedence, or behind a prototype that is
refused. In the first and the last case no token is in view, in the others it is the one at fault.

`Accounts.bind` is the rule for sequences. Expressions are accounted for by induction on how much is
left (`descends`).
-/

namespace Kaleidoscope

/-- Behind the end of the source nothing is left. -/
def Reader.Ends (r : Reader) : Prop :=
  r.looked = some .finish → r.lexer.items = []

/-- What the grammar wanted can be made of the token. -/
def Expectation.met : Expectation → Token → Bool
  | .define, t => t.isKeyword .define
  | .declare, t => t.isKeyword .declare
  | .functionName, t => (HeadOpening.ofToken? t).isSome
  | .unaryOperator, t | .binaryOperator, t => (declarable? t).isSome
  | .parametersOpen, t => t.isSymbol '('
  | .parametersClose, t | .groupClose, t => t.isSymbol ')'
  | .expression, t => (unaryOperator? t).isSome || (Opening.ofToken? t).isSome
  | .argumentEnd, t => t.isSymbol ')' || t.isSymbol ','
  | .thenWord, t => t.isKeyword .thenWord
  | .elseWord, t => t.isKeyword .elseWord
  | .loopVariable, t => t.name?.isSome
  | .loopEquals, t => t.isSymbol '='
  | .loopEnd, t => t.isSymbol ','
  | .loopBody, t => t.isKeyword .inWord

namespace Read

variable {α β γ : Type} {k j : Nat} {r s : Reader} {e : Fault}

/-- How reading stops: the tokens used up before, the fault, and the token in view. -/
inductive Stops : List Token → Fault → Option Token → Prop
  | lexical (used : List Token) (cause : LexicalFault) : Stops used (.lexical cause) none
  | unexpected {wanted : Expectation} {t : Token} (used : List Token) :
    wanted.met t = false → Stops used (.unexpected wanted) (some t)
  | precedence {x : Float} (used : List Token) :
    (x < 1 || 100 < x) = true → Stops used .invalidPrecedence (some (.number x))
  /-- A prototype was read up to its end. -/
  | refused {e : Fault} (used : List Token) :
    e = .invalidOperands ∨ e = .invalidPrecedence → Stops (used ++ [.symbol ')']) e none

/-- The same stop, seen from further in front. -/
theorem Stops.after {used : List Token} {t : Option Token} (h : Stops used e t)
    (before : List Token) : Stops (before ++ used) e t := by
  cases h with
  | lexical => exact .lexical _ _
  | unexpected _ hm => exact .unexpected _ hm
  | precedence _ hx => exact .precedence _ hx
  | refused used he =>
    rw [← List.append_assoc]
    exact .refused _ he

/-- What a run of a reading comes to: it has used up some tokens at the front, which satisfy `G`
with its result, and if it fails it stops behind them in one of the ways of `Stops`. -/
def Tally (G : List Token → α → Prop) (r : Reader) : EStateM.Result Fault Reader α → Prop
  | .ok x s => s.Ends ∧ ∃ ts, r.items = ts.map .ok ++ s.items ∧ G ts x
  | .error e s => s.Ends ∧ ∃ ts, r.items = ts.map .ok ++ (e.lost ++ s.items) ∧ Stops ts e s.looked

/-- While no more than `k` items are left, the reading accounts for what it uses up, which satisfies
`G` with its result. -/
def Accounts (k : Nat) (G : List Token → α → Prop) (a : Read α) : Prop :=
  ∀ r, r.items.length ≤ k → r.Ends → Tally G r (a r)

/-- The reading accounts for what it uses up, whatever it is. -/
abbrev Accounted (k : Nat) (a : Read α) : Prop :=
  Accounts k (fun _ _ => True) a

/-- The reading accounts for what it uses up, and uses up a token whenever it succeeds. -/
abbrev Advances (k : Nat) (a : Read α) : Prop :=
  Accounts k (fun ts _ => ts ≠ []) a

section Rules

variable {G H : List Token → α → Prop} {K : List Token → β → Prop} {a : Read α} {f : α → Read β}

theorem Tally.mono {result : EStateM.Result Fault Reader α} (h : Tally G r result)
    (hgh : ∀ ts x, G ts x → H ts x) : Tally H r result := by
  cases result with
  | ok x s =>
    obtain ⟨hs, ts, hi, hg⟩ := h
    exact ⟨hs, ts, hi, hgh ts x hg⟩
  | error e s => exact h

/-- The rule for a sequence: the tokens of the second part come behind those of the first. -/
theorem Tally.bind (ha : Tally G r (a r))
    (hf : ∀ ts x t, a r = .ok x t → t.Ends → r.items = ts.map .ok ++ t.items → G ts x →
      Tally (fun us y => K (ts ++ us) y) t (f x t)) : Tally K r ((a >>= f) r) := by
  cases hx : a r with
  | error e s =>
    rw [bind_of_error hx]
    rw [hx] at ha
    exact ha
  | ok x t =>
    rw [bind_of_ok hx]
    rw [hx] at ha
    obtain ⟨ht, ts, hi, hg⟩ := ha
    have second := hf ts x t hx ht hi hg
    cases hy : f x t with
    | ok y s =>
      rw [hy] at second
      obtain ⟨hs, us, hi', hk⟩ := second
      exact ⟨hs, ts ++ us, by rw [hi, hi', List.map_append, List.append_assoc], hk⟩
    | error e s =>
      rw [hy] at second
      obtain ⟨hs, us, hi', stops⟩ := second
      exact ⟨hs, ts ++ us, by rw [hi, hi', List.map_append, List.append_assoc], stops.after ts⟩

theorem Accounts.mono (h : Accounts k G a) (hgh : ∀ ts x, G ts x → H ts x) : Accounts k H a :=
  fun r hk hr => (h r hk hr).mono hgh

theorem Accounts.any (h : Accounts k G a) : Accounted k a :=
  h.mono fun _ _ _ => trivial

/-- What is accounted for with much left is so with less. -/
theorem Accounts.within (h : Accounts k G a) (hle : j ≤ k) : Accounts j G a :=
  fun r hk hr => h r (Nat.le_trans hk hle) hr

/-- In a sequence the second reading has less left by what the first has used up. -/
theorem Accounts.bind (ha : Accounts k G a)
    (hf : ∀ ts x, ts.length ≤ k → G ts x →
      Accounts (k - ts.length) (fun us y => K (ts ++ us) y) (f x)) :
    Accounts k K (a >>= f) := fun r hk hr =>
  (ha r hk hr).bind fun ts x t _ ht hi hg => by
    simp only [hi, List.length_append, List.length_map] at hk
    exact hf ts x (by omega) hg t (by omega) ht

/-- A sequence accounts for what it uses up if both parts do. -/
theorem Accounts.andThen (ha : Accounts k G a) (hf : ∀ x, Accounted k (f x)) :
    Accounted k (a >>= f) :=
  ha.bind fun _ x _ _ => (hf x).within (Nat.sub_le _ _)

/-- A sequence uses up a token if its first part does, and then less is left for the second. -/
theorem Accounts.advancing (ha : Advances k a) (hf : ∀ j < k, ∀ x, Accounted j (f x)) :
    Advances k (a >>= f) :=
  ha.bind fun ts x hk hts =>
    have shorter : k - ts.length < k := by
      have := List.length_pos_iff.2 hts
      omega
    (hf _ shorter x).mono fun us _ _ => List.append_ne_nil_of_left_ne_nil hts us

theorem accounts_pure {x : α} (h : G [] x) : Accounts k G (pure x) :=
  fun _ _ hr => ⟨hr, [], rfl, h⟩

theorem accounts_get : Accounted k (get : Read Reader) :=
  fun _ _ hr => ⟨hr, [], rfl, trivial⟩

end Rules

section Tokens

/-- Looking at the current token uses up nothing but a fault in its place. -/
theorem accounts_peek : Accounts k (fun ts _ => ts = []) peek := by
  intro r _ hr
  cases hp : peek r with
  | ok t s =>
    refine ⟨fun hf => ?_, [], (items_of_peek hp).symm, rfl⟩
    unfold peek at hp
    split at hp
    · cases hp
      exact hr hf
    · split at hp <;> cases hp
      next hn =>
      cases hf
      show Lexer.items _ = []
      rw [Lexer.eq_of_next_finish hn, Lexer.items_empty]
  | error e s =>
    have left := items_of_peek_error hp
    unfold peek at hp
    split at hp
    · cases hp
    · next hl =>
      split at hp <;> cases hp
      next cause lexer hn =>
      refine ⟨fun hf => ?_, [], left, ?_⟩
      · simp [hl] at hf
      · simp only [hl]
        exact .lexical [] cause

variable {choose : Token → Option α} {other : Token → Option β} {wanted : Expectation}

/-- A token is used up when it is taken, and only then. -/
theorem accounts_accept (hend : choose .finish = none) :
    Accounts k (fun ts o => o.isSome → ts ≠ []) (accept choose) := by
  intro r hk hr
  cases ha : accept choose r with
  | ok o s =>
    cases o with
    | none =>
      obtain ⟨t, hp, -⟩ := of_accept_none ha
      have looked := accounts_peek r hk hr
      rw [hp] at looked
      exact ⟨looked.1, [], (items_of_peek hp).symm, by simp⟩
    | some x =>
      obtain ⟨t, hc, hi⟩ := items_of_accept_some hend ha
      obtain ⟨-, u, -, -, rfl⟩ := of_accept_some ha
      exact ⟨(fun hf => by cases hf), [t], hi, by simp⟩
  | error e s =>
    rcases bind_eq_error.1 ha with hp | ⟨t, u, -, h⟩
    · have looked := accounts_peek r hk hr
      rw [hp] at looked
      exact looked
    · split at h <;> cases h

theorem accounts_acceptIf {test : Token → Bool} (hend : test .finish = false) :
    Accounts k (fun ts b => b = true → ts ≠ []) (acceptIf test) :=
  (accounts_accept (by simp [hend])).bind fun ts o _ ho =>
    accounts_pure fun hb => by simpa using ho hb

/-- A token that is not the one wanted stays in view. -/
theorem tally_demand (hend : choose .finish = none) (hr : r.Ends)
    (hmet : ∀ t s, peek r = .ok t s → choose t = none → wanted.met t = false) :
    Tally (fun ts _ => ts ≠ []) r (demand choose wanted r) := by
  refine (accounts_accept hend r (Nat.le_refl _) hr).bind fun ts o s ha hs _ ho => ?_
  cases o with
  | some x => exact ⟨hs, [], rfl, by simpa using ho⟩
  | none =>
    obtain ⟨t, hp, hc⟩ := of_accept_none ha
    refine ⟨hs, [], rfl, ?_⟩
    rw [(peek_ok hp).1]
    exact .unexpected [] (hmet t s hp hc)

/-- A demand is met by using up a token, or it stops at a token that does not meet it. -/
theorem accounts_demand (hend : choose .finish = none)
    (hmet : ∀ t, choose t = none → wanted.met t = false) : Advances k (demand choose wanted) :=
  fun _ _ hr => tally_demand hend hr fun t _ _ => hmet t

/-- Something is made of the current token in one of two ways; where this cannot be, the token stays
in view. -/
theorem accounts_acceptElse {f : Option α → Read γ} {g : β → Read γ} (hend : choose .finish = none)
    (hend' : other .finish = none)
    (hmet : ∀ t, choose t = none → other t = none → wanted.met t = false)
    (hf : ∀ j < k, ∀ x, Accounted j (f (some x))) (hnone : f none = demand other wanted >>= g)
    (hg : ∀ j < k, ∀ y, Accounted j (g y)) : Advances k (accept choose >>= f) := by
  intro r hk hr
  refine (accounts_accept hend r hk hr).bind fun ts o s ha hs hi ho => ?_
  simp only [hi, List.length_append, List.length_map] at hk
  cases o with
  | some x =>
    have hts := ho rfl
    have := List.length_pos_iff.2 hts
    exact (hf s.items.length (by omega) x s (Nat.le_refl _) hs).mono fun us _ _ =>
      List.append_ne_nil_of_left_ne_nil hts us
  | none =>
    obtain ⟨t, hp, hc⟩ := of_accept_none ha
    rw [hnone]
    refine (tally_demand hend' hs fun t' s' hp' ho' => ?_).bind fun us y u _ hu hi' hus => ?_
    · rw [peek_of_looked (peek_ok hp).1] at hp'
      cases hp'
      exact hmet t hc ho'
    · have := List.length_pos_iff.2 hus
      simp only [hi', List.length_append, List.length_map] at hk
      exact (hg u.items.length (by omega) y u (Nat.le_refl _) hu).mono fun vs _ _ =>
        List.append_ne_nil_of_right_ne_nil ts (List.append_ne_nil_of_left_ne_nil hus vs)

/-- What is wanted is a token of its own. -/
theorem accounts_wanted {test : Token → Bool} (hend : test .finish = false)
    (hmet : ∀ t, wanted.met t = test t) :
    Advances k (demand (fun t => if test t then some () else none) wanted) :=
  accounts_demand (by simp [hend]) fun t ht => by
    rw [hmet]
    exact Bool.eq_false_iff.2 fun h => by simp [h] at ht

theorem accounts_symbol {c : Char} (hmet : ∀ t, wanted.met t = t.isSymbol c) :
    Advances k (symbol c wanted) :=
  accounts_wanted rfl hmet

theorem accounts_keyword {w : Keyword} (hmet : ∀ t, wanted.met t = t.isKeyword w) :
    Advances k (keyword w wanted) :=
  accounts_wanted rfl hmet

/-- An operator is used up only if it is strong enough. -/
theorem accounts_binaryOperator (least : Int) :
    Accounts k (fun ts o => o.isSome → ts ≠ []) (binaryOperator least) := by
  unfold binaryOperator
  refine accounts_get.bind fun ts x _ _ => (accounts_accept ?_).mono fun us o ho hs => ?_
  · simp [Precedences.operator?, Token.symbol?]
  · exact List.append_ne_nil_of_right_ne_nil ts (ho hs)

theorem accounts_strongerFollows (p : Int) : Accounted k (strongerFollows p) :=
  accounts_peek.andThen fun _ => accounts_get.andThen fun _ => accounts_pure trivial

end Tokens

section Expressions

variable {e : Read Expr} {l : Read (List Expr)}

/-- A group that is not closed stops at the token in place of its parenthesis. -/
theorem accounts_group (he : Accounted k e) : Accounted k (group e) := by
  unfold group
  exact he.andThen fun _ => (accounts_symbol fun _ => rfl).andThen fun _ => accounts_pure trivial

/-- A name is a call if a parenthesis follows. -/
theorem accounts_nameOrCall (hl : Accounted k l) (name : String) :
    Accounted k (nameOrCall name l) := by
  unfold nameOrCall
  refine (accounts_acceptIf (by rfl)).andThen fun b => ?_
  split
  · refine (accounts_acceptIf (by rfl)).andThen fun b => ?_
    split
    · exact accounts_pure trivial
    · exact hl.andThen fun _ => accounts_pure trivial
  · exact accounts_pure trivial

theorem accounts_conditional (he : Accounted k e) : Accounted k (conditional e) := by
  unfold conditional
  exact he.andThen fun _ => (accounts_keyword fun _ => rfl).andThen fun _ =>
    he.andThen fun _ => (accounts_keyword fun _ => rfl).andThen fun _ =>
    he.andThen fun _ => accounts_pure trivial

theorem accounts_loopStep (he : Accounted k e) : Accounted k (loopStep e) := by
  unfold loopStep
  refine (accounts_acceptIf (by rfl)).andThen fun b => ?_
  split
  · exact he.andThen fun _ => accounts_pure trivial
  · exact accounts_pure trivial

theorem accounts_loop (he : Accounted k e) : Accounted k (loop e) := by
  unfold loop
  refine (accounts_demand (by rfl) fun t ht => by simp [Expectation.met, ht]).andThen fun var => ?_
  exact (accounts_symbol fun _ => rfl).andThen fun _ => he.andThen fun _ =>
    (accounts_symbol fun _ => rfl).andThen fun _ => he.andThen fun _ =>
    (accounts_loopStep he).andThen fun _ => (accounts_keyword fun _ => rfl).andThen fun _ =>
    he.andThen fun _ => accounts_pure trivial

/-- What comes behind the first token of a primary expression. -/
theorem accounts_opened (he : Accounted k e) (hl : Accounted k l) (opening : Opening) :
    Accounted k (match opening with
      | .name text => nameOrCall text l
      | .number value => pure (.number value)
      | .group => group e
      | .conditional => conditional e
      | .loop => loop e) := by
  cases opening with
  | name text => exact accounts_nameOrCall hl text
  | number value => exact accounts_pure trivial
  | group => exact accounts_group he
  | conditional => exact accounts_conditional he
  | loop => exact accounts_loop he

/-- A right operand takes in what is stronger behind it, if anything is. -/
theorem accounts_rightOperand {climb : Int → Expr → Read Expr} {operand : Expr}
    (hc : ∀ least, Accounted k (climb least operand)) (p : Int) :
    Accounted k (rightOperand climb p operand) := by
  unfold rightOperand
  refine (accounts_strongerFollows p).andThen fun b => ?_
  split
  · exact hc _
  · exact accounts_pure trivial

/-- The calls of recursive descent account for what they use up. -/
structure Descends (k : Nat) : Prop where
  unary : Advances k unary
  binary : ∀ least left, Accounted k (binary least left)
  expression : Advances k expression
  arguments : Accounted k arguments

/-- Behind a unary operator less is left, so that its operand is accounted for. -/
theorem Descends.operand (h : ∀ j < k, Descends j) : Advances k Read.unary := by
  rw [unary_eq]
  refine accounts_acceptElse rfl rfl (fun t ho hp => by simp [Expectation.met, ho, hp])
    (fun j hj op => (h j hj).unary.andThen fun _ => accounts_pure trivial) rfl
    fun j hj opening => accounts_opened (h j hj).expression.any (h j hj).arguments opening

/-- Every operator that is taken leaves less for the rest of the chain. -/
theorem Descends.chain (h : ∀ j < k, Descends j) (least : Int) (left : Expr) :
    Accounted k (Read.binary least left) := by
  rw [binary_eq]
  refine (accounts_binaryOperator least).bind fun ts o hk ho => ?_
  cases o with
  | none => exact accounts_pure trivial
  | some found =>
    have := List.length_pos_iff.2 (ho rfl)
    have below := h (k - ts.length) (by omega)
    exact below.unary.andThen fun x =>
      (accounts_rightOperand (fun least => below.binary least x) _).andThen fun right =>
        below.binary least _

/-- Every argument leaves less for those behind it. -/
theorem Descends.list (h : ∀ j < k, Descends j) (he : Advances k Read.expression) :
    Accounted k Read.arguments := by
  rw [arguments_eq]
  refine (he.advancing fun j hj arg => ?_).any
  unfold acceptIf
  rw [bind_assoc]
  refine Accounts.any (accounts_acceptElse rfl rfl (fun t hc ho => ?_)
    (fun i _ x => accounts_pure trivial)
    (show _ = symbol ',' .argumentEnd >>= fun _ => do return arg :: (← Read.arguments) from rfl)
    fun i hi x => ?_)
  · have close : t.isSymbol ')' = false := Bool.eq_false_iff.2 fun ht => by simp [ht] at hc
    have comma : t.isSymbol ',' = false := Bool.eq_false_iff.2 fun ht => by simp [ht] at ho
    simp only [Expectation.met, close, comma, Bool.or_self]
  · exact (h i (by omega)).arguments.andThen fun _ => accounts_pure trivial

/-- Recursive descent accounts for what it uses up. The induction is on what is left: every call but
the last in a row comes behind a token. -/
theorem descends (k : Nat) : Descends k := by
  induction k using Nat.strongRecOn with
  | ind k ih =>
    have operand := Descends.operand ih
    have expression : Advances k expression := by
      rw [expression_eq]
      exact operand.advancing fun j hj left => (ih j hj).binary 0 left
    exact ⟨operand, Descends.chain ih, expression, Descends.list ih expression⟩

end Expressions

end Read

end Kaleidoscope
