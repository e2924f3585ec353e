import Kaleidoscope.Proofs.Lowering.Widening
import Kaleidoscope.Proofs.Ssa.Layout

/-!
# What the operations of a builder do to its function

A `View` is the function under construction as its builder sees it: the block at whose end code
goes, which is still open, and the instructions that it has. `Builds w w'` says that code was built
from the one view to the other: the function was extended, and of the blocks that it had only the
current one was touched. There is one lemma for each operation; `builds_jump` takes the end of a
block and the move to another one together.
-/

namespace Kaleidoscope

open Ssa

/-- The function under construction, with the open block where code goes and its instructions. -/
structure View where
  func : Func
  block : BlockId
  insts : List Inst

/-- The place where code goes. -/
def View.mark (w : View) : Mark :=
  ⟨w.block, w.insts.length, w.func.values.size, w.func.slots.size⟩

/-- The block of the view that code goes to has these instructions and no terminator. -/
def View.Open (w : View) (k : BlockId) (insts : List Inst) : Prop :=
  ∃ label, w.func.blocks[k.index]? = some { label, insts }

/-- The builder's view of the given function. -/
structure Sees (id : FuncId) (b : Builder) (w : View) : Prop where
  func : b.func? id = some w.func
  place : b.place = ⟨id, w.block⟩
  current : w.Open w.block w.insts

/-- Code was built from one view to another. -/
structure Builds (w w' : View) : Prop where
  extend : w.func.Extends w'.func
  others : ∀ k < w.func.blocks.size, k ≠ w.block.index → w'.func.blocks[k]? = w.func.blocks[k]?
  stays : w'.block = w.block ∨ w.func.blocks.size ≤ w'.block.index

section Views

variable {id : FuncId} {b : Builder} {w w₁ w₂ : View} {k : BlockId} {i : Inst}

theorem Builds.refl (w : View) : Builds w w :=
  ⟨.refl _, fun _ _ _ => rfl, .inl rfl⟩

theorem size_of_extends {f g : Func} (h : f.Extends g) : f.blocks.size ≤ g.blocks.size := by
  rcases Nat.eq_zero_or_pos f.blocks.size with h₀ | h₀
  · omega
  · have hlt : f.blocks.size - 1 < f.blocks.size := by omega
    obtain ⟨b', hb', -⟩ := h.block (Array.getElem?_eq_getElem hlt)
    have := (Array.getElem?_eq_some_iff.1 hb').1
    omega

/-- Building goes on: a block that the first part touches is either the current one or new, and so
out of reach of the second part's promise. -/
theorem Builds.trans (h : Builds w w₁) (h' : Builds w₁ w₂) : Builds w w₂ where
  extend := h.extend.trans h'.extend
  others := by
    intro k hk hn
    have hs := size_of_extends h.extend
    have hn₁ : k ≠ w₁.block.index := by
      rcases h.stays with he | hl
      · rwa [he]
      · omega
    rw [h'.others k (by omega) hn₁, h.others k hk hn]
  stays := by
    have hs := size_of_extends h.extend
    rcases h'.stays with he | hl
    · rw [he]
      exact h.stays
    · exact .inr (by omega)

/-- A block that is left stays open while code goes elsewhere. -/
theorem Builds.open (h : Builds w w₁) {is : List Inst} (ho : w.Open k is) (hk : k ≠ w.block) :
    w₁.Open k is := by
  obtain ⟨label, hb⟩ := ho
  refine ⟨label, (h.others _ (Array.getElem?_eq_some_iff.1 hb).1 fun he => hk ?_).trans hb⟩
  cases k
  simp_all

theorem Sees.bound (h : Sees id b w) : w.block.index < w.func.blocks.size := by
  obtain ⟨label, hb⟩ := h.current
  exact (Array.getElem?_eq_some_iff.1 hb).1

theorem Sees.emitting (h : Sees id b w) : Emitting id b :=
  ⟨by rw [h.place], func?_lt h.func⟩

/-- Changing the function, but not its blocks. -/
theorem sees_modifyFunc (h : Sees id b w) (change : Func → Func) {f : Func}
    (hf : change w.func = f) (hn : f.name = w.func.name) (hp : f.params = w.func.params)
    (hb : f.blocks = w.func.blocks) (hv : w.func.values.size ≤ f.values.size)
    (hs : w.func.slots.size ≤ f.slots.size) :
    Sees id (b.modifyFunc id change) { w with func := f } ∧ Builds w { w with func := f } := by
  refine ⟨⟨?_, h.place, ?_⟩, ⟨hn, hp, hv, hs, fun {k b} hk => ⟨b, hb ▸ hk, .refl b⟩⟩,
    fun _ _ _ => by rw [hb], .inl rfl⟩
  · rw [func?_modifyFunc, if_pos rfl, h.func, Option.map_some, hf]
  · obtain ⟨label, hc⟩ := h.current
    exact ⟨label, hb ▸ hc⟩

/-- Adding instructions to the current block. -/
theorem sees_modifyBlock (h : Sees id b w) (change : Block → Block) {more : List Inst}
    (hc : ∀ label, change { label, insts := w.insts } = { label, insts := w.insts ++ more }) :
    ∃ w', Sees id (b.modifyBlock change) w' ∧ Builds w w' ∧ w'.block = w.block ∧
      w'.insts = w.insts ++ more ∧ w'.func.values = w.func.values ∧
      w'.func.slots = w.func.slots := by
  obtain ⟨label, hb⟩ := h.current
  let f : Func := { w.func with blocks := w.func.blocks.modify w.block.index change }
  have here : f.blocks[w.block.index]? = some { label, insts := w.insts ++ more } := by
    simp only [f, Array.getElem?_modify, if_pos, hb, Option.map_some, hc]
  have there : ∀ k ≠ w.block.index, f.blocks[k]? = w.func.blocks[k]? := by
    intro k hk
    simp only [f, Array.getElem?_modify, if_neg (Ne.symm hk)]
  refine ⟨⟨f, w.block, w.insts ++ more⟩, ⟨?_, h.place, label, here⟩,
    ⟨⟨rfl, rfl, Nat.le_refl _, Nat.le_refl _, ?_⟩, fun k _ hk => there k hk, .inl rfl⟩,
    rfl, rfl, rfl, rfl⟩
  · rw [Builder.modifyBlock, h.place, func?_modifyFunc, if_pos rfl, h.func, Option.map_some]
  · intro k blk hk
    by_cases he : k = w.block.index
    · subst he
      rw [hb] at hk
      cases hk
      exact ⟨_, here, rfl, List.prefix_append _ _, nofun⟩
    · exact ⟨blk, (there k he).trans hk, .refl blk⟩

theorem instAt_of_sees (h : Sees id b w) {n : Nat} (hi : w.insts[n]? = some i) :
    w.func.InstAt w.block n i := by
  obtain ⟨label, hb⟩ := h.current
  exact ⟨_, hb, hi⟩

/-- An instruction that defines nothing. -/
theorem builds_emit (h : Sees id b w) (i : Inst) :
    ∃ w', Sees id (b.emit i) w' ∧ Builds w w' ∧ w'.mark = w.mark.next ∧
      w'.func.InstAt w.block w.insts.length i := by
  obtain ⟨w', hs, hb, block, insts, values, slots⟩ :=
    sees_modifyBlock h (fun blk => { blk with insts := blk.insts ++ [i] }) fun _ => rfl
  refine ⟨w', hs, hb, ?_, ?_⟩
  · simp [View.mark, Mark.next, block, insts, values, slots]
  · exact block ▸ instAt_of_sees hs (by simp [insts])

/-- A new value gets the number that the mark is at. -/
theorem newValue_eq (h : Sees id b w) (name : String) : b.newValue name =
    (w.mark.fresh, b.modifyFunc id fun f => { f with values := f.values.push name }) := by
  simp only [Builder.newValue, h.place, h.func, Option.map_some, Option.getD_some]
  rfl

/-- An instruction that defines a new value, put into the current block in whatever way. -/
theorem builds_value (h : Sees id b w) (name : String) (inst : ValueId → Inst)
    (change : Block → Block) (hc : ∀ label, change { label, insts := w.insts } =
      { label, insts := w.insts ++ [inst w.mark.fresh] }) :
    ∃ w', Sees id ((b.newValue name).2.modifyBlock change) w' ∧ Builds w w' ∧
      w'.mark = w.mark.define ∧ w'.func.Defines w.mark inst := by
  rw [newValue_eq h]
  obtain ⟨hs, hb⟩ := sees_modifyFunc h (fun f => { f with values := f.values.push name })
    (f := { w.func with values := w.func.values.push name }) rfl rfl rfl rfl
    (by simp) (Nat.le_refl _)
  obtain ⟨w', hs', hb', block, insts, values, slots⟩ := sees_modifyBlock hs change hc
  refine ⟨w', hs', hb.trans hb', ?_, ?_, ?_⟩
  · simp [View.mark, Mark.define, block, insts, values, slots]
  · have hi : w'.func.InstAt w'.block w.insts.length (inst w.mark.fresh) :=
      instAt_of_sees hs' (by simp [insts])
    rwa [block] at hi
  · simp [View.mark, values]

/-- An instruction that defines a new value. -/
theorem builds_define (h : Sees id b w) (name : String) (inst : ValueId → Inst) :
    (b.define name inst).1 = w.mark.fresh ∧ ∃ w', Sees id (b.define name inst).2 w' ∧
      Builds w w' ∧ w'.mark = w.mark.define ∧ w'.func.Defines w.mark inst := by
  have he := newValue_eq h name
  obtain ⟨w', hw⟩ := builds_value h name inst
    (fun blk => { blk with insts := blk.insts ++ [inst w.mark.fresh] }) fun _ => rfl
  refine ⟨congrArg Prod.fst he, w', ?_⟩
  rw [he] at hw
  simp only [Builder.define, he]
  exact hw

/-- A join at the top of a block without instructions. -/
theorem builds_phi (h : Sees id b w) (hn : w.insts = []) (incoming : List (ValueId × Place))
    (name : String) :
    (b.phi incoming name).1 = w.mark.fresh ∧ ∃ w', Sees id (b.phi incoming name).2 w' ∧
      Builds w w' ∧ w'.mark = w.mark.define ∧
      w'.func.Defines w.mark (.phi · (incoming.map fun edge => (edge.1, edge.2.block))) := by
  have he := newValue_eq h name
  let join := Inst.phi w.mark.fresh (incoming.map fun edge => (edge.1, edge.2.block))
  obtain ⟨w', hw⟩ := builds_value h name
    (.phi · (incoming.map fun edge => (edge.1, edge.2.block)))
    (fun blk => { blk with
      insts := blk.insts.takeWhile Inst.isPhi ++ join :: blk.insts.dropWhile Inst.isPhi })
    fun _ => by simp [join, hn]
  refine ⟨congrArg Prod.fst he, w', ?_⟩
  rw [he] at hw
  simp only [Builder.phi, he]
  exact hw

/-- A slot more. -/
theorem builds_addSlot (h : Sees id b w) (name : String) :
    (b.addSlot id name).1 = w.mark.freshSlot ∧ ∃ w', Sees id (b.addSlot id name).2 w' ∧
      Builds w w' ∧ w'.mark = w.mark.allot ∧ w.mark.slots < w'.func.slots.size := by
  obtain ⟨hs, hb⟩ := sees_modifyFunc h (fun f => { f with slots := f.slots.push name })
    (f := { w.func with slots := w.func.slots.push name }) rfl rfl rfl rfl
    (Nat.le_refl _) (by simp)
  refine ⟨?_, _, hs, hb, ?_, ?_⟩
  · simp only [Builder.addSlot, h.func, Option.map_some, Option.getD_some]
    rfl
  · simp [View.mark, Mark.allot]
  · simp [View.mark]

/-- An empty block more. -/
theorem builds_appendBlock (h : Sees id b w) (label : String) :
    (b.appendBlock id label).1 = ⟨id, ⟨w.func.blocks.size⟩⟩ ∧
      ∃ w', Sees id (b.appendBlock id label).2 w' ∧ Builds w w' ∧ w'.mark = w.mark ∧
        w'.func.blocks.size = w.func.blocks.size + 1 ∧ w'.Open ⟨w.func.blocks.size⟩ [] := by
  let f : Func := { w.func with blocks := w.func.blocks.push { label } }
  have old : ∀ k < w.func.blocks.size, f.blocks[k]? = w.func.blocks[k]? := by
    intro k hk
    simp only [f, Array.getElem?_push, if_neg (Nat.ne_of_lt hk)]
  refine ⟨?_, ⟨f, w.block, w.insts⟩, ⟨?_, h.place, ?_⟩,
    ⟨⟨rfl, rfl, Nat.le_refl _, Nat.le_refl _, ?_⟩, fun k hk _ => old k hk, .inl rfl⟩, rfl,
    by simp [f], label, by simp [f]⟩
  · simp only [Builder.appendBlock, h.func, Option.map_some, Option.getD_some]
  · simp only [Builder.appendBlock, func?_modifyFunc, if_pos, h.func, Option.map_some]
    rfl
  · obtain ⟨label, hb⟩ := h.current
    exact ⟨label, (old _ h.bound).trans hb⟩
  · intro k blk hk
    exact ⟨blk, (old k (Array.getElem?_eq_some_iff.1 hk).1).trans hk, .refl blk⟩

/-- The current block ends. -/
theorem func?_terminate (h : Sees id b w) (t : Terminator) :
    ∃ f, (b.terminate t).func? id = some f ∧ w.func.Extends f ∧
      f.EndsAt w.block w.insts.length t ∧ f.blocks.size = w.func.blocks.size ∧
      ∀ j ≠ w.block.index, f.blocks[j]? = w.func.blocks[j]? := by
  obtain ⟨label, hb⟩ := h.current
  let f : Func := { w.func with
    blocks := w.func.blocks.modify w.block.index fun blk => { blk with term := some t } }
  have here : f.blocks[w.block.index]? = some { label, insts := w.insts, term := some t } := by
    simp only [f, Array.getElem?_modify, if_pos, hb, Option.map_some]
  have there : ∀ j ≠ w.block.index, f.blocks[j]? = w.func.blocks[j]? := by
    intro j hj
    simp only [f, Array.getElem?_modify, if_neg (Ne.symm hj)]
  refine ⟨f, ?_, ⟨rfl, rfl, Nat.le_refl _, Nat.le_refl _, fun {j blk} hj => ?_⟩,
    ⟨_, here, rfl, rfl⟩, by simp [f], there⟩
  · rw [Builder.terminate, Builder.modifyBlock, h.place, func?_modifyFunc, if_pos rfl, h.func,
      Option.map_some]
  · by_cases he : j = w.block.index
    · subst he
      rw [hb] at hj
      cases hj
      exact ⟨_, here, rfl, List.prefix_rfl, nofun⟩
    · exact ⟨blk, (there j he).trans hj, .refl blk⟩

/-- The current block ends, and code goes on in another one, which is open. Seen from an earlier view
`w` that does not have this other block yet, this is building on. -/
theorem builds_jump (h : Sees id b w₁) (hw : Builds w w₁) (t : Terminator) {is : List Inst}
    (ho : w₁.Open k is) (hk : k ≠ w₁.block) (hn : w.func.blocks.size ≤ k.index) :
    ∃ w', Sees id ((b.terminate t).moveTo ⟨id, k⟩) w' ∧ Builds w w' ∧
      w'.mark = { w₁.mark with block := k, index := is.length } ∧ w'.insts = is ∧
      w₁.func.Extends w'.func ∧ w'.func.EndsAt w₁.block w₁.insts.length t ∧
      w₁.func.blocks.size = w'.func.blocks.size ∧
      ∀ {j js}, j ≠ w₁.block → w₁.Open j js → w'.Open j js := by
  obtain ⟨f, hf, extend, ends, size, there⟩ := func?_terminate h t
  have opens : ∀ {j js}, j ≠ w₁.block → w₁.Open j js → View.Open ⟨f, k, is⟩ j js := by
    intro j js hj ⟨label, ho⟩
    exact ⟨label, (there _ (mt BlockId.index_inj.1 hj)).trans ho⟩
  obtain ⟨values, slots⟩ : f.values = w₁.func.values ∧ f.slots = w₁.func.slots := by
    rw [Builder.terminate, Builder.modifyBlock, h.place, func?_modifyFunc, if_pos rfl, h.func] at hf
    cases hf
    exact ⟨rfl, rfl⟩
  refine ⟨⟨f, k, is⟩, ⟨hf, rfl, opens hk ho⟩, ⟨hw.extend.trans extend, ?_, .inr hn⟩, ?_, rfl,
    extend, ends, size.symm, opens⟩
  · intro j hj hne
    have hs := size_of_extends hw.extend
    have : j ≠ w₁.block.index := by
      rcases hw.stays with he | hl
      · rwa [he]
      · omega
    rw [there j this, hw.others j hj hne]
  · simp [View.mark, values, slots]

/-- A function that is called is declared if need be. -/
theorem sees_declare (h : Sees id b w) (name : String) (params : List String) :
    Sees id (b.declare name params).2 w := by
  cases hf : b.find? name with
  | some i =>
    rw [declare_of_some hf]
    exact h
  | none =>
    rw [declare_of_none hf]
    refine ⟨?_, h.place, h.current⟩
    show (b.module.functions.push (.declare name params))[id.index]? = some w.func
    rw [Array.getElem?_push, if_neg (Nat.ne_of_lt h.emitting.bound)]
    exact h.func

end Views

end Kaleidoscope
