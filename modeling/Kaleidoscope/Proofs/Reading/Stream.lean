import Kaleidoscope.Proofs.Reading.Grouping

/-!
# The tokens that are left

What a reader has still to hand out is a list: tokens, and faults where the text cannot be cut into
tokens. The list ends with the source. Looking at the current token leaves it as it is
(`items_of_peek`), and a token that is used up is its first item (`items_of_accept_some`).
-/

namespace Kaleidoscope

@[simp] theorem Precedences.operator?_symbol (table : Precedences) (op : Char) :
    table.operator? (.symbol op) = (table.get? op).map fun precedence => (op, precedence) := rfl

/-- What stands at one place of a source: a token, or the fault in its place. -/
abbrev Item := Except LexicalFault Token

/-- No word is taken for the end of the source. -/
theorem Token.ofWord_ne_finish (text : String) : Token.ofWord text ≠ .finish := by
  unfold Token.ofWord
  split <;> simp

/-- The end of the source is no token of a line. -/
theorem ne_finish_of_scan {cs after : List Char} {t : Token} (h : scan cs = .token t after) :
    t ≠ .finish := by
  unfold scan at h
  split at h
  · cases h
  · unfold scanAt at h
    split at h
    · cases h
    · split at h
      · split at h <;> cases h
        simp
      · split at h <;> cases h
        · exact Token.ofWord_ne_finish _
        · simp

namespace Lexer

/-- What is left before the end of the source, but no more than the bound says. -/
def itemsWithin : Nat → Lexer → List Item
  | 0, _ => []
  | n + 1, l =>
    match l.next with
    | (.ok .finish, _) => []
    | (item, after) => item :: itemsWithin n after

/-- What is left before the end of the source, in order. -/
def items (l : Lexer) : List Item :=
  itemsWithin l.size l

theorem itemsWithin_of_finish {l after : Lexer} (h : l.next = (.ok .finish, after)) (n : Nat) :
    itemsWithin n l = [] := by
  cases n with
  | zero => rfl
  | succ n => simp only [itemsWithin, h]

/-- Before the end of the source the next item is the first of those that are left. -/
theorem itemsWithin_succ {l after : Lexer} {item : Item} (h : l.next = (item, after))
    (hi : item ≠ .ok .finish) (n : Nat) :
    itemsWithin (n + 1) l = item :: itemsWithin n after := by
  rw [itemsWithin, h]
  split
  · next he =>
    cases he
    exact absurd rfl hi
  · next he =>
    cases he
    rfl

/-- An item is cut from the text, so that less of it is left. -/
theorem size_of_next {l after : Lexer} {item : Item} (h : l.next = (item, after))
    (hi : item ≠ .ok .finish) : after.size < l.size := by
  rcases size_next l with hs | hs
  · rwa [h] at hs
  · rw [h] at hs
    cases hs
    exact absurd rfl hi

/-- A bound that is large enough for what is left may be larger. -/
theorem itemsWithin_eq {l : Lexer} {n m : Nat} (hn : l.size ≤ n) (hm : l.size ≤ m) :
    itemsWithin n l = itemsWithin m l := by
  induction n generalizing l m with
  | zero =>
    rcases size_next l with hs | hs
    · omega
    · rw [itemsWithin_of_finish hs, itemsWithin_of_finish hs]
  | succ n ih =>
    cases hl : l.next with
    | mk item after =>
      by_cases hi : item = .ok .finish
      · rw [itemsWithin_of_finish (hi ▸ hl), itemsWithin_of_finish (hi ▸ hl)]
      · have hs := size_of_next hl hi
        obtain ⟨m, rfl⟩ : ∃ k, m = k + 1 := ⟨m - 1, by omega⟩
        rw [itemsWithin_succ hl hi, itemsWithin_succ hl hi, ih (m := m) (by omega) (by omega)]

theorem items_of_finish {l after : Lexer} (h : l.next = (.ok .finish, after)) : l.items = [] :=
  itemsWithin_of_finish h _

/-- The bound does not show: the next item comes first, and then what is left behind it. -/
theorem items_of_next {l after : Lexer} {item : Item} (h : l.next = (item, after))
    (hi : item ≠ .ok .finish) : l.items = item :: after.items := by
  have hs := size_of_next h hi
  obtain ⟨n, hn⟩ : ∃ n, l.size = n + 1 := ⟨l.size - 1, by omega⟩
  rw [items, items, hn, itemsWithin_succ h hi, itemsWithin_eq (n := n) (by omega) (Nat.le_refl _)]

/-- At the end of the source nothing is left. -/
theorem eq_of_next_finish {l after : Lexer} (h : l.next = (.ok .finish, after)) :
    after = {} := by
  obtain ⟨rest, pending⟩ := l
  unfold next at h
  simp only at h
  induction pending generalizing rest with
  | nil =>
    unfold nextFrom at h
    split at h <;> cases h
    · next hs => exact absurd rfl (ne_finish_of_scan hs)
    · rfl
  | cons line more ih =>
    unfold nextFrom at h
    split at h
    · next hs =>
      cases h
      exact absurd rfl (ne_finish_of_scan hs)
    · cases h
    · split at h
      · exact ih _ h
      · cases h

theorem items_empty : ({} : Lexer).items = [] :=
  items_of_finish (show next {} = (.ok .finish, {}) from rfl)

end Lexer

/-- What the reader has still to hand out, with the token that was looked at. -/
def Reader.items (r : Reader) : List Item :=
  match r.looked with
  | none => r.lexer.items
  | some .finish => []
  | some t => .ok t :: r.lexer.items

/-- What the report of a fault uses up. -/
def Fault.lost : Fault → List Item
  | .lexical cause => [.error cause]
  | _ => []

namespace Read

variable {α β : Type} {r s : Reader} {t : Token} {rest : List Item}

theorem items_of_looked (h : s.looked = some t) (ht : t ≠ .finish) :
    s.items = .ok t :: { s with looked := none : Reader }.items := by
  cases t with
  | finish => exact absurd rfl ht
  | _ => simp only [Reader.items, h]

theorem items_of_looked_finish (h : s.looked = some .finish) : s.items = [] := by
  simp only [Reader.items, h]

/-- Looking at the current token uses up nothing. -/
theorem items_of_peek (h : peek r = .ok t s) : s.items = r.items := by
  unfold peek at h
  split at h
  · cases h
    rfl
  · next hl =>
    split at h <;> cases h
    next hn =>
    by_cases ht : t = .finish
    · subst ht
      simp only [Reader.items, hl, Lexer.items_of_finish hn]
    · rw [items_of_looked rfl ht]
      simp only [Reader.items, hl]
      exact (Lexer.items_of_next hn fun he => ht (by cases he; rfl)).symm

/-- The fault in the place of the current token is used up when it is reported. -/
theorem items_of_peek_error {e : Fault} (h : peek r = .error e s) : r.items = e.lost ++ s.items := by
  unfold peek at h
  split at h
  · cases h
  · next hl =>
    split at h <;> cases h
    next cause lexer hn =>
    simp only [Reader.items, hl]
    exact Lexer.items_of_next hn (by simp)

/-- The token at the front of what is left; at the end of the source this is its end, and in the
place of a fault there is none. -/
def current? : List Item → Option Token
  | [] => some .finish
  | .ok t :: _ => some t
  | .error _ :: _ => none

theorem current?_of_looked (h : s.looked = some t) : current? s.items = some t := by
  by_cases ht : t = .finish
  · rw [items_of_looked_finish (ht ▸ h), ht]
    rfl
  · rw [items_of_looked h ht]
    rfl

theorem current?_of_peek (h : peek r = .ok t s) : current? r.items = some t := by
  rw [← items_of_peek h]
  exact current?_of_looked (peek_ok h).1

/-- A token at the front can be looked at. -/
theorem peek_of_current? (h : current? r.items = some t) : ∃ s, peek r = .ok t s := by
  cases hl : r.looked with
  | some t' =>
    rw [current?_of_looked hl] at h
    cases h
    exact ⟨r, peek_of_looked hl⟩
  | none =>
    have hi : r.items = r.lexer.items := by simp only [Reader.items, hl]
    obtain ⟨item, after, hn⟩ : ∃ item after, r.lexer.next = (item, after) := ⟨_, _, rfl⟩
    have shown : ∀ t', item = .ok t' →
        peek r = .ok t' { r with lexer := after, looked := some t' } := by
      rintro t' rfl
      simp only [peek, hl, hn]
    by_cases hf : item = .ok .finish
    · rw [hi, Lexer.items_of_finish (hf ▸ hn)] at h
      cases h
      exact ⟨_, shown _ hf⟩
    · rw [hi, Lexer.items_of_next hn hf] at h
      cases item with
      | error cause => cases h
      | ok t' =>
        cases h
        exact ⟨_, shown _ rfl⟩

section Accepting

variable {choose : Token → Option α} {a : α}

theorem of_accept_none (h : accept choose r = .ok none s) :
    ∃ t, peek r = .ok t s ∧ choose t = none := by
  obtain ⟨t, u, hp, h⟩ := bind_eq_ok.1 h
  cases hc : choose t with
  | none =>
    rw [hc] at h
    cases h
    exact ⟨t, hp, hc⟩
  | some a =>
    rw [hc] at h
    cases h

/-- A token that is taken was looked at, and is no more in view. -/
theorem of_accept_some (h : accept choose r = .ok (some a) s) :
    ∃ t u, peek r = .ok t u ∧ choose t = some a ∧ s = { u with looked := none } := by
  obtain ⟨t, u, hp, h⟩ := bind_eq_ok.1 h
  cases hc : choose t with
  | none =>
    rw [hc] at h
    cases h
  | some b =>
    rw [hc] at h
    cases h
    exact ⟨t, u, hp, hc, rfl⟩

/-- Taking a token fails only where there is none to look at. -/
theorem items_of_accept_error {e : Fault} (h : accept choose r = .error e s) :
    r.items = e.lost ++ s.items := by
  rcases bind_eq_error.1 h with hp | ⟨t, u, -, h⟩
  · exact items_of_peek_error hp
  · split at h <;> cases h

/-- A token of which nothing is made stays. -/
theorem items_of_accept_none (h : accept choose r = .ok none s) :
    s.items = r.items ∧ ∃ t, current? r.items = some t ∧ choose t = none := by
  obtain ⟨t, hp, hc⟩ := of_accept_none h
  exact ⟨items_of_peek hp, t, current?_of_peek hp, hc⟩

/-- A token of which something is made is used up. -/
theorem items_of_accept_some (hend : choose .finish = none)
    (h : accept choose r = .ok (some a) s) :
    ∃ t, choose t = some a ∧ r.items = .ok t :: s.items := by
  obtain ⟨t, u, hp, hc, rfl⟩ := of_accept_some h
  have ht : t ≠ .finish := by
    rintro rfl
    rw [hend] at hc
    cases hc
  exact ⟨t, hc, by rw [← items_of_peek hp, items_of_looked (peek_ok hp).1 ht]⟩

/-- The token at the front is used up if something can be made of it. -/
theorem accept_some_of_items (h : r.items = .ok t :: rest) (hc : choose t = some a)
    (hend : choose .finish = none) :
    ∃ s, accept choose r = .ok (some a) s ∧ s.items = rest ∧ s.precedences = r.precedences := by
  obtain ⟨u, hp⟩ := peek_of_current? (r := r) (by rw [h]; rfl)
  have ha := accept_some hp hc
  have kept : u.precedences = r.precedences := peek_precedences hp
  refine ⟨_, ha, ?_, kept⟩
  obtain ⟨t', -, hi⟩ := items_of_accept_some hend ha
  rw [h] at hi
  cases hi
  rfl

/-- The token at the front stays if nothing can be made of it. -/
theorem accept_none_of_items (h : current? r.items = some t) (hc : choose t = none) :
    ∃ s, accept choose r = .ok none s ∧ s.items = r.items ∧ s.precedences = r.precedences := by
  obtain ⟨u, hp⟩ := peek_of_current? h
  exact ⟨u, accept_none hp hc, items_of_peek hp, peek_precedences hp⟩

end Accepting

end Read

end Kaleidoscope
