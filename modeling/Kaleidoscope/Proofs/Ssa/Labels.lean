import Kaleidoscope.Proofs.Ssa.Layout
import Mathlib.Data.List.Nodup

/-!
# What labels tell apart

A slot and a value that is no parameter are shown by their name with their number behind it; a
parameter and a block by their name alone. So the labels of slots are always different, since the
number can be read off the label. The label of a value does not tell where its name ends: those of
two values are different unless the name of one of them ends in a digit. The labels of blocks are
different exactly if their names are.
-/

namespace Kaleidoscope.Ssa

/-- The last character of the name is a digit. -/
def EndsInDigit (name : String) : Prop :=
  name.toList.getLast?.any Char.isDigit

instance (name : String) : Decidable (EndsInDigit name) :=
  inferInstanceAs (Decidable (_ = true))

section Digits

variable {name name' : String} {m n : Nat}

theorem toList_toString (n : Nat) : (toString n).toList = Nat.toDigits 10 n :=
  Nat.toList_repr

theorem isDigit_of_mem {c : Char} (h : c ∈ Nat.toDigits 10 n) : c.isDigit :=
  Nat.isDigit_of_mem_toDigits (by decide) (by decide) h

/-- A number can be read off its digits. -/
theorem toDigits_inj (h : Nat.toDigits 10 m = Nat.toDigits 10 n) : m = n := by
  simpa using congrArg (Nat.ofDigitChars 10 · 0) h

/-- The digits at the end can be told from what is no digit before them. -/
theorem digits_inj {c d : Char} {before before' digits digits' : List Char}
    (hd : ∀ x ∈ digits, x.isDigit) (hd' : ∀ x ∈ digits', x.isDigit) (hc : c.isDigit = false)
    (hc' : d.isDigit = false) (h : before ++ c :: digits = before' ++ d :: digits') :
    digits = digits' := by
  have back : ∀ {c : Char} {before digits : List Char}, (∀ x ∈ digits, x.isDigit) →
      c.isDigit = false →
      (before ++ c :: digits).reverse.takeWhile Char.isDigit = digits.reverse := by
    intro c before digits hd hc
    rw [List.reverse_append, List.reverse_cons, List.append_assoc,
      List.takeWhile_append_of_pos fun x hx => hd x (List.mem_reverse.1 hx)]
    simp [hc]
  have same := congrArg (fun l => l.reverse.takeWhile Char.isDigit) h
  simp only [back hd hc, back hd' hc'] at same
  exact List.reverse_injective same

/-- A name that goes on with digits ends in one. -/
theorem endsInDigit_append {before digits : List Char} (h : name.toList = before ++ digits)
    (ne : digits ≠ []) (hd : ∀ x ∈ digits, x.isDigit) : EndsInDigit name := by
  rw [EndsInDigit, h, List.getLast?_append_of_ne_nil _ ne, List.getLast?_eq_some_getLast ne]
  exact hd _ (List.getLast_mem ne)

/-- A name with a number behind it ends in a digit. -/
theorem endsInDigit_numbered (name : String) (n : Nat) : EndsInDigit (name ++ toString n) := by
  have chars : (name ++ toString n).toList = name.toList ++ Nat.toDigits 10 n := by
    rw [String.toList_append, toList_toString]
  exact endsInDigit_append chars Nat.toDigits_ne_nil fun x => isDigit_of_mem

/-- Two numbered names are different, unless one of the names ends in a digit. -/
theorem numbered_inj (h : name ++ toString m = name' ++ toString n) :
    m = n ∨ EndsInDigit name ∨ EndsInDigit name' := by
  have chars := congrArg String.toList h
  simp only [String.toList_append, toList_toString] at chars
  rcases List.append_eq_append_iff.1 chars with ⟨more, hn, hm⟩ | ⟨more, hn, hm⟩
  · by_cases ne : more = []
    · subst ne
      exact .inl (toDigits_inj hm)
    · refine .inr (.inr (endsInDigit_append hn ne fun x hx => isDigit_of_mem (n := m) ?_))
      exact hm ▸ List.mem_append_left _ hx
  · by_cases ne : more = []
    · subst ne
      exact .inl (toDigits_inj hm.symm)
    · refine .inr (.inl (endsInDigit_append hn ne fun x hx => isDigit_of_mem (n := n) ?_))
      exact hm ▸ List.mem_append_left _ hx

end Digits

namespace Func

variable {f : Func}

theorem slotLabel_eq {s : SlotId} {name : String} (h : f.slots[s.index]? = some name) :
    f.slotLabel s = "%" ++ name ++ ".addr" ++ toString s.index := by
  simp only [slotLabel, h]
  rfl

theorem valueLabel_param {v : ValueId} {name : String} (h : f.values[v.index]? = some name)
    (hv : v.index < f.arity) : f.valueLabel v = "%" ++ name := by
  simp only [valueLabel, h, if_pos hv]
  rfl

/-- A value that is no parameter is shown by its name with its number behind it. -/
theorem valueLabel_numbered {v : ValueId} {name : String} (h : f.values[v.index]? = some name)
    (hv : ¬ v.index < f.arity) : f.valueLabel v = "%" ++ (name ++ toString v.index) := by
  simp only [valueLabel, h, if_neg hv, ← String.append_assoc]
  rfl

theorem blockLabel_eq {b : BlockId} {block : Block} (h : f.blocks[b.index]? = some block) :
    f.blockLabel b = "%" ++ block.label := by
  simp only [blockLabel, h]
  rfl

/-- **Slots have labels of their own.** -/
theorem slotLabel_inj {s t : SlotId} (hs : s.index < f.slots.size) (ht : t.index < f.slots.size)
    (h : f.slotLabel s = f.slotLabel t) : s = t := by
  have shown : ∀ {s : SlotId}, s.index < f.slots.size → ∃ before,
      (f.slotLabel s).toList = before ++ 'r' :: Nat.toDigits 10 s.index := by
    intro s hs
    refine ⟨'%' :: f.slots[s.index].toList ++ ['.', 'a', 'd', 'd'], ?_⟩
    rw [slotLabel_eq (Array.getElem?_eq_getElem hs)]
    simp
  obtain ⟨before, hb⟩ := shown hs
  obtain ⟨before', hb'⟩ := shown ht
  have same := digits_inj (fun _ => isDigit_of_mem) (fun _ => isDigit_of_mem) rfl rfl
    (hb.symm.trans ((congrArg String.toList h).trans hb'))
  cases s
  cases t
  exact congrArg SlotId.mk (toDigits_inj same)

/-- Two values have different labels, unless they are parameters of one name or the name of one of
them ends in a digit. -/
theorem valueLabel_inj {v w : ValueId} {name name' : String} (hv : f.values[v.index]? = some name)
    (hw : f.values[w.index]? = some name') (h : f.valueLabel v = f.valueLabel w) :
    v = w ∨ (v.index < f.arity ∧ w.index < f.arity ∧ name = name') ∨
      EndsInDigit name ∨ EndsInDigit name' := by
  by_cases pv : v.index < f.arity <;> by_cases pw : w.index < f.arity
  · rw [valueLabel_param hv pv, valueLabel_param hw pw, String.append_right_inj] at h
    exact .inr (.inl ⟨pv, pw, h⟩)
  · rw [valueLabel_param hv pv, valueLabel_numbered hw pw, String.append_right_inj] at h
    exact .inr (.inr (.inl (h ▸ endsInDigit_numbered name' w.index)))
  · rw [valueLabel_numbered hv pv, valueLabel_param hw pw, String.append_right_inj] at h
    exact .inr (.inr (.inr (h ▸ endsInDigit_numbered name v.index)))
  · rw [valueLabel_numbered hv pv, valueLabel_numbered hw pw, String.append_right_inj] at h
    rcases numbered_inj h with same | digit
    · cases v
      cases w
      exact .inl (congrArg ValueId.mk same)
    · exact .inr (.inr digit)

/-- Blocks have labels of their own exactly if their names are different. -/
theorem blockLabel_inj_iff (f : Func) :
    (∀ b c : BlockId, b.index < f.blocks.size → c.index < f.blocks.size →
      f.blockLabel b = f.blockLabel c → b = c) ↔ (f.blocks.toList.map (·.label)).Nodup := by
  have shown : ∀ {b : BlockId} (hb : b.index < f.blocks.size),
      f.blockLabel b = "%" ++ f.blocks[b.index].label :=
    fun hb => blockLabel_eq (Array.getElem?_eq_getElem hb)
  rw [List.nodup_iff_injective_get]
  constructor
  · rintro apart ⟨i, hi⟩ ⟨j, hj⟩ h
    simp only [List.length_map, Array.length_toList] at hi hj
    have := apart ⟨i⟩ ⟨j⟩ hi hj
    rw [shown hi, shown hj, String.append_right_inj] at this
    simpa using this (by simpa using h)
  · rintro apart ⟨i⟩ ⟨j⟩ hi hj h
    rw [shown hi, shown hj, String.append_right_inj] at h
    have := @apart ⟨i, by simpa using hi⟩ ⟨j, by simpa using hj⟩ (by simpa using h)
    simpa using this

end Func

end Kaleidoscope.Ssa
