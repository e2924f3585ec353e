import Kaleidoscope.Ssa.Basic

/-!
# Where code stands

A `Mark` is a place in the code of a function: a block with the number of instructions before the
place, and the numbers of values and slots that are taken there. What a finished function has at a
mark is said by `Func.InstAt`, `Func.Defines` and `Func.EndsAt`.

While a function is built it only grows (`Func.Extends`): a block without terminator gets further
instructions, a block with terminator stays as it is. What stands at a mark stands there for good.
-/

namespace Kaleidoscope.Ssa

theorem BlockId.index_inj {i j : BlockId} : i.index = j.index ↔ i = j := by
  cases i
  cases j
  simp

theorem FuncId.index_inj {i j : FuncId} : i.index = j.index ↔ i = j := by
  cases i
  cases j
  simp

/-- A place in a function, with the numbers of values and slots that are taken there. -/
structure Mark where
  block : BlockId
  index : Nat
  values : Nat
  slots : Nat

namespace Mark

/-- The first value that is not taken. -/
def fresh (m : Mark) : ValueId := ⟨m.values⟩

/-- The first slot that is not taken. -/
def freshSlot (m : Mark) : SlotId := ⟨m.slots⟩

/-- The place behind an instruction. -/
def next (m : Mark) : Mark := { m with index := m.index + 1 }

/-- The place behind an instruction that defines the first value not taken. -/
def define (m : Mark) : Mark := { m with index := m.index + 1, values := m.values + 1 }

/-- The same place with a slot more. -/
def allot (m : Mark) : Mark := { m with slots := m.slots + 1 }

/-- The start of a block, with the same values and slots. -/
def enter (m : Mark) (b : BlockId) : Mark := { m with block := b, index := 0 }

end Mark

/-- The second block is the first one further built; a finished block stays as it is. -/
structure Block.Extends (b b' : Block) : Prop where
  label : b'.label = b.label
  insts : b.insts <+: b'.insts
  finished : b.term.isSome → b' = b

theorem Block.Extends.refl (b : Block) : b.Extends b :=
  ⟨rfl, List.prefix_rfl, fun _ => rfl⟩

/-- Building a block further is building it. -/
theorem Block.Extends.trans {a b c : Block} (h : a.Extends b) (h' : b.Extends c) : a.Extends c where
  label := h'.label.trans h.label
  insts := h.insts.trans h'.insts
  finished ht := by
    have he := h.finished ht
    rw [h'.finished (he ▸ ht), he]

namespace Func

variable {f g h : Func} {b : BlockId} {n : Nat} {m : Mark}

/-- The instruction with the given number in a block. -/
def InstAt (f : Func) (b : BlockId) (n : Nat) (i : Inst) : Prop :=
  ∃ blk, f.blocks[b.index]? = some blk ∧ blk.insts[n]? = some i

/-- The block has so many instructions and ends with the terminator. -/
def EndsAt (f : Func) (b : BlockId) (n : Nat) (t : Terminator) : Prop :=
  ∃ blk, f.blocks[b.index]? = some blk ∧ blk.insts.length = n ∧ blk.term = some t

/-- The instruction at the mark defines the first value that is not taken. -/
structure Defines (f : Func) (m : Mark) (inst : ValueId → Inst) : Prop where
  inst : f.InstAt m.block m.index (inst m.fresh)
  value : m.values < f.values.size

/-- The second function is the first one further built. -/
structure Extends (f g : Func) : Prop where
  name : g.name = f.name
  params : g.params = f.params
  values : f.values.size ≤ g.values.size
  slots : f.slots.size ≤ g.slots.size
  block : ∀ {k : Nat} {b : Block}, f.blocks[k]? = some b → ∃ b', g.blocks[k]? = some b' ∧ b.Extends b'

namespace Extends

theorem refl (f : Func) : f.Extends f where
  name := rfl
  params := rfl
  values := Nat.le_refl _
  slots := Nat.le_refl _
  block {_ b} hb := ⟨b, hb, .refl b⟩

/-- Building a function further is building it: a block that was finished stays as it is, and one
that was not may have been built twice. -/
theorem trans (hf : f.Extends g) (hg : g.Extends h) : f.Extends h where
  name := hg.name.trans hf.name
  params := hg.params.trans hf.params
  values := Nat.le_trans hf.values hg.values
  slots := Nat.le_trans hf.slots hg.slots
  block := by
    intro k b hb
    obtain ⟨b₁, h₁, e₁⟩ := hf.block hb
    obtain ⟨b₂, h₂, e₂⟩ := hg.block h₁
    exact ⟨b₂, h₂, e₁.trans e₂⟩

/-- Instructions stay where they are. -/
theorem instAt (h : f.Extends g) {i : Inst} (hi : f.InstAt b n i) : g.InstAt b n i := by
  obtain ⟨blk, hb, hi⟩ := hi
  obtain ⟨blk', hb', -, ⟨more, hp⟩, -⟩ := h.block hb
  refine ⟨blk', hb', ?_⟩
  rw [← hp, List.getElem?_append_left (List.getElem?_eq_some_iff.1 hi).1, hi]

/-- An exit that was set stays, and nothing comes before it any more. -/
theorem endsAt (h : f.Extends g) {t : Terminator} (ht : f.EndsAt b n t) : g.EndsAt b n t := by
  obtain ⟨blk, hb, hn, ht⟩ := ht
  obtain ⟨blk', hb', -, -, same⟩ := h.block hb
  obtain rfl := same (by rw [ht]; rfl)
  exact ⟨blk', hb', hn, ht⟩

/-- What was defined stays defined, by the same instruction. -/
theorem defines (h : f.Extends g) {inst : ValueId → Inst} (hd : f.Defines m inst) :
    g.Defines m inst :=
  ⟨h.instAt hd.inst, Nat.lt_of_lt_of_le hd.value h.values⟩

end Extends

end Func

end Kaleidoscope.Ssa
