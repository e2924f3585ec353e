import Kaleidoscope.Dict
import Kaleidoscope.Fault
import Kaleidoscope.Token.Basic

/-!
# The precedences of operators

Which symbols are binary operators, and how strongly they bind, is data that a program extends as it
is read. A declared precedence lies in 1 to 100. `get?_declare` says what a declaration changes, and
`get?_putBack` that it can be taken back.
-/

namespace Kaleidoscope

/-- The precedence of every binary operator. -/
structure Precedences where
  entries : Dict Char Int := ⟨[('<', 10), ('+', 20), ('-', 20), ('*', 40)]⟩

namespace Precedences

/-- The weakest precedence that can be declared. -/
def weakest : Int := 1

/-- The strongest precedence that can be declared. -/
def strongest : Int := 100

/-- The precedence of an operator declared without one. -/
def unstated : Int := 30

/-- The precedence of an operator: an ASCII symbol with a positive entry. -/
def get? (table : Precedences) (op : Char) : Option Int :=
  if op.toNat < 128 then (table.entries.get? op).filter (0 < ·) else none

/-- The table with the operator declared, and the entry that it had before. -/
def declare (table : Precedences) (op : Char) (precedence : Int) :
    Except Fault (Option Int × Precedences) :=
  if precedence < weakest ∨ strongest < precedence then .error .invalidPrecedence
  else .ok (table.entries.get? op, ⟨table.entries.insert op precedence⟩)

/-- The table with an earlier entry of an operator put back. -/
def putBack (table : Precedences) (op : Char) (previous : Option Int) : Precedences :=
  ⟨table.entries.put op previous⟩

/-- The operator that a token stands for, with its precedence. -/
def operator? (table : Precedences) (t : Token) : Option (Char × Int) :=
  t.symbol?.bind fun op => (table.get? op).map fun precedence => (op, precedence)

/-- An operator that is declared has the precedence it was given, and no other operator has another
one. -/
theorem get?_declare {table table' : Precedences} {op : Char} {p : Int} {previous : Option Int}
    (h : table.declare op p = .ok (previous, table')) (c : Char) :
    table'.get? c = if c = op ∧ op.toNat < 128 then some p else table.get? c := by
  unfold declare at h
  split at h
  · cases h
  · next hp =>
    cases h
    simp only [weakest, strongest] at hp
    by_cases hc : c = op
    · subst hc
      have : 0 < p := by omega
      by_cases ha : c.toNat < 128 <;> simp [get?, ha, this]
    · simp [get?, Dict.get?_insert, hc]

/-- Putting back what a declaration replaced restores every precedence. -/
theorem get?_putBack {table table' : Precedences} {op : Char} {p : Int} {previous : Option Int}
    (h : table.declare op p = .ok (previous, table')) (c : Char) :
    (table'.putBack op previous).get? c = table.get? c := by
  unfold declare at h
  split at h
  · cases h
  · cases h
    by_cases hc : c = op <;> simp [get?, putBack, Dict.get?_put, Dict.get?_insert, hc]

/-- Every precedence lies in the range that can be declared. -/
theorem range_of_declare {table table' : Precedences} {op : Char} {p : Int} {previous : Option Int}
    (h : table.declare op p = .ok (previous, table')) : weakest ≤ p ∧ p ≤ strongest := by
  unfold declare at h
  split at h
  · cases h
  · next hp => omega

end Precedences

end Kaleidoscope
