import Kaleidoscope.Proofs.Ssa.Dominance

/-!
# How far folding goes

A function is saturated if no operation is left in it whose operands are all constants. Folding does
not always get there. A pass learns a constant where it stands, and an operation that is listed
before it is folded by the next pass only; but there is a next pass only if this one has folded
something. So a function all of whose constants are listed behind the operations on them stays as it
is (`lateConstant_unfolded`).

Nothing else is missed. If the first pass folds anything, then all constants are known to the passes
after it, and each of these but the last folds at least one operation more, so that the last one
leaves none (`saturated_foldWithin`).

Main statement: `Func.saturated_fold_iff`.
-/

namespace Kaleidoscope.Ssa

/-- One of the instructions defines the value as a constant. -/
def Fixes (is : List Inst) (v : ValueId) : Prop :=
  ∃ c, Inst.const v c ∈ is

/-- Some operation stands behind constants that, with what is known, are all its operands. -/
def FoldableAfter (known : Known) (is : List Inst) : Prop :=
  ∃ before i after, is = before ++ i :: after ∧ i.isOperation ∧
    ∀ v ∈ i.operands, known.contains v ∨ Fixes before v

namespace Func

/-- No operation is left whose operands are all constants of the function. -/
def Saturated (f : Func) : Prop :=
  ∀ i ∈ f.insts, i.isOperation → ∃ v ∈ i.operands, ¬ Fixes f.insts v

/-- In the order of the blocks, some operation stands behind constants that are all its operands. -/
def Foldable (f : Func) : Prop :=
  ∃ before i after, f.insts = before ++ i :: after ∧ i.isOperation ∧
    ∀ v ∈ i.operands, Fixes before v

/-- In the order of the blocks, constants stand before the operations on them. -/
def ConstantsFirst (f : Func) : Prop :=
  ∀ before i after, f.insts = before ++ i :: after → i.isOperation →
    ∀ v ∈ i.operands, Fixes f.insts v → Fixes before v

end Func

section Constants

variable {is js : List Inst} {i : Inst} {v w : ValueId} {c : Float} {known : Known}

@[simp] theorem isOperation_const : (Inst.const v c).isOperation = false := rfl

@[simp] theorem not_fixes_nil : ¬ Fixes [] v := by
  simp [Fixes]

theorem fixes_cons : Fixes (i :: is) v ↔ (∃ c, i = .const v c) ∨ Fixes is v := by
  simp only [Fixes, List.mem_cons, exists_or]
  exact or_congr_left (exists_congr fun _ => eq_comm)

theorem Fixes.append_left (h : Fixes is v) (js : List Inst) : Fixes (is ++ js) v := by
  obtain ⟨c, hc⟩ := h
  exact ⟨c, List.mem_append_left js hc⟩

theorem contains_insert : (known.insert v c).contains w ↔ w = v ∨ known.contains w := by
  simp only [Dict.contains, Dict.get?_insert]
  split <;> simp [*]

theorem exists_target (h : i.isOperation) : ∃ v, i.target = some v := by
  cases i <;> first | exact ⟨_, rfl⟩ | cases h

/-- The first instruction can be folded, or a later one once a constant is learned from the first. -/
theorem foldableAfter_cons : FoldableAfter known (i :: is) ↔
    (i.isOperation ∧ ∀ v ∈ i.operands, known.contains v) ∨
      ∃ before j after, is = before ++ j :: after ∧ j.isOperation ∧
        ∀ v ∈ j.operands, known.contains v ∨ Fixes (i :: before) v := by
  constructor
  · rintro ⟨before, j, after, he, hj, hv⟩
    cases before with
    | nil =>
      obtain ⟨rfl, -⟩ := List.cons.inj he
      exact .inl ⟨hj, fun v hm => (hv v hm).resolve_right not_fixes_nil⟩
    | cons k before =>
      obtain ⟨rfl, rfl⟩ := List.cons.inj he
      exact .inr ⟨before, j, after, rfl, hj, hv⟩
  · rintro (⟨hi, hv⟩ | ⟨before, j, after, rfl, hj, hv⟩)
    · exact ⟨[], i, is, rfl, hi, fun v hm => .inl (hv v hm)⟩
    · exact ⟨i :: before, j, after, rfl, hj, hv⟩

/-- A constant at the front counts like one that is known. -/
theorem foldableAfter_const : FoldableAfter known (.const v c :: is) ↔
    FoldableAfter (known.insert v c) is := by
  rw [foldableAfter_cons]
  simp only [Inst.isOperation, Bool.false_eq_true, false_and, false_or, FoldableAfter, fixes_cons,
    contains_insert, Inst.const.injEq, exists_and_left, exists_eq', and_true]
  simp only [eq_comm, ← or_assoc, or_comm]

/-- An instruction that is neither a constant nor an operation on known constants may be passed
over. -/
theorem foldableAfter_other (hc : ∀ v c, i ≠ .const v c)
    (hi : ¬ (i.isOperation ∧ ∀ v ∈ i.operands, known.contains v)) :
    FoldableAfter known (i :: is) ↔ FoldableAfter known is := by
  rw [foldableAfter_cons, or_iff_right hi]
  have same : ∀ {before v}, Fixes (i :: before) v ↔ Fixes before v := by
    intro before v
    rw [fixes_cons, or_iff_right fun ⟨c, he⟩ => hc v c he]
  simp only [same, FoldableAfter]

end Constants

section Passes

variable {is js : List Inst} {i : Inst} {bs : List Block} {v : ValueId} {known : Known}

/-- A pass learns a constant, or folds an operation whose operands it knows, or goes on. -/
theorem Pass.inst_cases (pass : Pass) (i : Inst) :
    (∃ v c, i = .const v c ∧ pass.inst i = (i, { pass with known := pass.known.insert v c })) ∨
    (i.isOperation ∧ (∀ v ∈ i.operands, pass.known.contains v) ∧
      ∃ v c, pass.inst i = (.const v c, ⟨pass.known.insert v c, true⟩)) ∨
    ((∀ v c, i ≠ .const v c) ∧ ¬ (i.isOperation ∧ ∀ v ∈ i.operands, pass.known.contains v) ∧
      pass.inst i = (i, pass)) := by
  have folds := folded?_isSome_iff pass.known i
  cases hf : i.folded? pass.known with
  | some c =>
    obtain ⟨hi, hv⟩ := folds.1 (by rw [hf]; rfl)
    obtain ⟨dst, ht⟩ := exists_target hi
    refine .inr (.inl ⟨hi, hv, dst, c, ?_⟩)
    cases i with
    | arith | less | nonzero =>
      cases ht
      simp only [Pass.inst, Inst.target, hf]
    | _ => cases hi
  | none =>
    rw [hf] at folds
    cases i with
    | const v c => exact .inl ⟨v, c, rfl, rfl⟩
    | _ =>
      refine .inr (.inr ⟨fun _ _ h => ?_, fun h => ?_, ?_⟩)
      · cases h
      · cases folds.2 h
      · simp only [Pass.inst, Inst.target, hf]

/-- After a pass, what was known before and all constants that are there by now are known. -/
theorem contains_insts (is : List Inst) : ∀ {pass : Pass},
    (pass.insts is).2.known.contains v ↔
      pass.known.contains v ∨ Fixes (pass.insts is).1 v := by
  induction is with
  | nil => simp [Pass.insts]
  | cons i is ih =>
    intro pass
    simp only [Pass.insts, ih, fixes_cons]
    rcases pass.inst_cases i with ⟨w, c, rfl, he⟩ | ⟨-, -, w, c, he⟩ | ⟨hc, -, he⟩
    · simp only [he, contains_insert, Inst.const.injEq, exists_and_left, exists_eq', and_true]
      tauto
    · simp only [he, contains_insert, Inst.const.injEq, exists_and_left, exists_eq', and_true]
      tauto
    · simp [he, hc]

/-- A pass has changed something if it folds an operation, and only then. -/
theorem changed_insts (is : List Inst) : ∀ {pass : Pass},
    (pass.insts is).2.changed ↔ pass.changed ∨ FoldableAfter pass.known is := by
  induction is with
  | nil => simp [Pass.insts, FoldableAfter]
  | cons i is ih =>
    intro pass
    simp only [Pass.insts, ih]
    rcases pass.inst_cases i with ⟨w, c, rfl, he⟩ | ⟨hi, hv, w, c, he⟩ | ⟨hc, hi, he⟩
    · rw [he, foldableAfter_const]
    · rw [he, foldableAfter_cons]
      exact iff_of_true (.inl rfl) (.inr (.inl ⟨hi, hv⟩))
    · rw [he, foldableAfter_other hc hi]

/-- A pass that changes nothing leaves the instructions. -/
theorem insts_eq_self (is : List Inst) : ∀ {pass : Pass}, (pass.insts is).2.changed = false →
    (pass.insts is).1 = is := by
  induction is with
  | nil => exact fun _ => rfl
  | cons i is ih =>
    intro pass h
    simp only [Pass.insts] at h ⊢
    rcases pass.inst_cases i with ⟨w, c, rfl, he⟩ | ⟨-, -, w, c, he⟩ | ⟨-, -, he⟩
    · rw [he] at h ⊢
      rw [ih h]
    · rw [he] at h
      have : (Pass.insts ⟨pass.known.insert w c, true⟩ is).2.changed = true :=
        (changed_insts is).2 (.inl rfl)
      rw [this] at h
      cases h
    · rw [he] at h ⊢
      rw [ih h]

/-- A pass makes no operations, and if it can fold one there is one less. -/
theorem operations_insts (is : List Inst) : ∀ {pass : Pass},
    (pass.insts is).1.countP Inst.isOperation ≤ is.countP Inst.isOperation ∧
      (FoldableAfter pass.known is →
        (pass.insts is).1.countP Inst.isOperation < is.countP Inst.isOperation) := by
  induction is with
  | nil => simp [Pass.insts, FoldableAfter]
  | cons i is ih =>
    intro pass
    simp only [Pass.insts, List.countP_cons]
    rcases pass.inst_cases i with ⟨w, c, rfl, he⟩ | ⟨hi, -, w, c, he⟩ | ⟨hc, hi, he⟩
    · simp only [he, foldableAfter_const, isOperation_const, Bool.false_eq_true, if_false,
        Nat.add_zero]
      exact ih
    · obtain ⟨rest, -⟩ := @ih ⟨pass.known.insert w c, true⟩
      simp only [he, hi, isOperation_const, Bool.false_eq_true, if_false, if_true, Nat.add_zero]
      exact ⟨Nat.le_succ_of_le rest, fun _ => Nat.lt_succ_of_le rest⟩
    · obtain ⟨rest, fewer⟩ := @ih pass
      simp only [he, foldableAfter_other hc hi]
      exact ⟨Nat.add_le_add_right rest _, fun h => Nat.add_lt_add_right (fewer h) _⟩

/-- A pass over instructions goes on where it has come to. -/
theorem insts_append (is js : List Inst) : ∀ pass : Pass, pass.insts (is ++ js) =
    ((pass.insts is).1 ++ ((pass.insts is).2.insts js).1, ((pass.insts is).2.insts js).2) := by
  induction is with
  | nil => exact fun _ => rfl
  | cons i is ih => simp [Pass.insts, ih]

/-- A pass over blocks is a pass over their instructions. -/
theorem blocks_insts (bs : List Block) : ∀ pass : Pass,
    ((pass.blocks bs).1.flatMap (·.insts), (pass.blocks bs).2) = pass.insts (bs.flatMap (·.insts)) := by
  induction bs with
  | nil => exact fun _ => rfl
  | cons b bs ih =>
    intro pass
    have rest := ih (pass.insts b.insts).2
    rw [List.flatMap_cons, insts_append, ← rest]
    simp [Pass.blocks]

/-- A pass over blocks does to the code what a pass over its instructions in a row would do. -/
theorem blocks_code (pass : Pass) (bs : List Block) :
    (pass.blocks bs).1.flatMap (·.insts) = (pass.insts (bs.flatMap (·.insts))).1 :=
  congrArg Prod.fst (blocks_insts bs pass)

/-- A pass over blocks learns what a pass over their instructions in a row would learn. -/
theorem blocks_pass (pass : Pass) (bs : List Block) :
    (pass.blocks bs).2 = (pass.insts (bs.flatMap (·.insts))).2 :=
  congrArg Prod.snd (blocks_insts bs pass)

/-- A pass changes something if and only if an operation stands behind all its constants. -/
theorem changed_blocks (pass : Pass) (bs : List Block) : (pass.blocks bs).2.changed ↔
    pass.changed ∨ FoldableAfter pass.known (bs.flatMap (·.insts)) := by
  rw [blocks_pass, changed_insts]

/-- A pass that changes something leaves fewer operations. -/
theorem operations_blocks (known : Known) (bs : List Block)
    (h : (({ known } : Pass).blocks bs).2.changed) :
    ((({ known } : Pass).blocks bs).1.flatMap (·.insts)).countP Inst.isOperation <
      (bs.flatMap (·.insts)).countP Inst.isOperation := by
  have foldable := ((changed_blocks _ _).1 h).resolve_left Bool.false_ne_true
  rw [blocks_code]
  exact (operations_insts _).2 foldable

/-- After a pass all constants that are there are known. -/
theorem contains_blocks (pass : Pass) (bs : List Block)
    (h : Fixes ((pass.blocks bs).1.flatMap (·.insts)) v) : (pass.blocks bs).2.known.contains v := by
  rw [blocks_code] at h
  rw [blocks_pass]
  exact (contains_insts _).2 (.inr h)

/-- A pass that changes nothing leaves the blocks as they are. -/
theorem blocks_eq_self (bs : List Block) : ∀ {pass : Pass}, (pass.blocks bs).2.changed = false →
    (pass.blocks bs).1 = bs := by
  induction bs with
  | nil => exact fun _ => rfl
  | cons b bs ih =>
    intro pass h
    simp only [Pass.blocks] at h ⊢
    have first : (pass.insts b.insts).2.changed = false := by
      rw [← Bool.not_eq_true]
      intro changed
      rw [← Bool.not_eq_true, changed_blocks] at h
      exact h (.inl changed)
    rw [ih h, insts_eq_self b.insts first]

/-- A pass that changes something is followed by another. -/
theorem foldWithin_of_changed (n : Nat) {bs : List Block}
    (h : (({ known } : Pass).blocks bs).2.changed = true) : foldWithin known (n + 1) bs =
      foldWithin (({ known } : Pass).blocks bs).2.known n (({ known } : Pass).blocks bs).1 := by
  simp only [foldWithin, h, if_true]

/-- A pass that changes nothing is the last. -/
theorem foldWithin_of_unchanged (n : Nat) {bs : List Block}
    (h : (({ known } : Pass).blocks bs).2.changed = false) : foldWithin known (n + 1) bs = bs := by
  simp only [foldWithin, h, Bool.false_eq_true, if_false, blocks_eq_self bs h]

/-- Once all constants that are there are known, folding goes on until it is saturated. -/
theorem saturated_foldWithin (n : Nat) : ∀ {known : Known} {bs : List Block},
    (bs.flatMap (·.insts)).countP Inst.isOperation < n →
    (∀ v, Fixes (bs.flatMap (·.insts)) v → known.contains v) →
    ∀ i ∈ (foldWithin known n bs).flatMap (·.insts), i.isOperation →
      ∃ v ∈ i.operands, ¬ Fixes ((foldWithin known n bs).flatMap (·.insts)) v := by
  induction n with
  | zero => exact fun h => absurd h (Nat.not_lt_zero _)
  | succ n ih =>
    intro known bs bound learned
    cases hc : (({ known } : Pass).blocks bs).2.changed with
    | true =>
      have fewer := operations_blocks known bs hc
      rw [foldWithin_of_changed n hc]
      exact ih (by omega) fun v => contains_blocks _ bs
    | false =>
      rw [foldWithin_of_unchanged n hc]
      intro i hi operation
      by_contra all
      push Not at all
      obtain ⟨before, later, split⟩ := List.append_of_mem hi
      have foldable : FoldableAfter known (bs.flatMap (·.insts)) :=
        ⟨before, i, later, split, operation, fun v hv => .inl (learned v (all v hv))⟩
      rw [← Bool.not_eq_true, changed_blocks] at hc
      exact hc (.inr foldable)

end Passes

namespace Func

variable {f : Func}

theorem foldable_iff (f : Func) : f.Foldable ↔ FoldableAfter ∅ f.insts := by
  simp [Foldable, FoldableAfter, Dict.contains]

/-- Folding begins with nothing known, and may pass over the code once more than it has
instructions. -/
theorem insts_fold (f : Func) :
    f.fold.insts = (foldWithin ∅ (f.insts.length + 1) f.blocks.toList).flatMap (·.insts) := by
  simp [insts, fold]

/-- The first pass changes something if the function is foldable. -/
theorem changed_iff (f : Func) :
    (({} : Pass).blocks f.blocks.toList).2.changed ↔ f.Foldable := by
  rw [changed_blocks, foldable_iff]
  exact or_iff_right Bool.false_ne_true

/-- A function that is not foldable stays as it is. -/
theorem fold_eq_self (h : ¬ f.Foldable) : f.fold = f := by
  have unchanged : (({} : Pass).blocks f.blocks.toList).2.changed = false := by
    rw [← Bool.not_eq_true, changed_iff]
    exact h
  rw [fold, foldWithin_of_unchanged _ unchanged]

/-- A function that is foldable is folded until it is saturated. -/
theorem Foldable.saturated_fold (h : f.Foldable) : f.fold.Saturated := by
  have changed := (changed_iff f).2 h
  have fewer := operations_blocks ∅ f.blocks.toList changed
  unfold Saturated
  rw [insts_fold, foldWithin_of_changed _ changed]
  exact saturated_foldWithin _ (Nat.lt_of_lt_of_le fewer List.countP_le_length)
    fun v => contains_blocks _ _

/-- Where no operation on constants is left, nothing can be folded. -/
theorem Saturated.not_foldable (h : f.Saturated) : ¬ f.Foldable := by
  rintro ⟨before, i, after, split, operation, hv⟩
  obtain ⟨v, hm, free⟩ := h i (by simp [split]) operation
  exact free (split ▸ (hv v hm).append_left _)

/-- Where constants stand before the operations on them, there is nothing to be folded, or the first
pass folds something. -/
theorem ConstantsFirst.foldable_or_saturated (h : f.ConstantsFirst) : f.Foldable ∨ f.Saturated := by
  by_contra neither
  obtain ⟨unfoldable, unsaturated⟩ := not_or.1 neither
  refine unsaturated fun i hi operation => ?_
  by_contra all
  push Not at all
  obtain ⟨before, after, split⟩ := List.append_of_mem hi
  exact unfoldable ⟨before, i, after, split, operation,
    fun v hv => h before i after split operation v hv (all v hv)⟩

/-- **How far folding goes.** Folding leaves no operation on constants if the function had none, or
had one that is listed behind the constants it is on; otherwise it leaves the function as it is. So
it leaves none whenever constants are listed before the operations on them. -/
theorem saturated_fold_iff (f : Func) :
    (f.fold.Saturated ↔ f.Saturated ∨ f.Foldable) ∧ (¬ f.Foldable → f.fold = f) ∧
      (f.ConstantsFirst → f.fold.Saturated) := by
  have enough : f.Saturated ∨ f.Foldable → f.fold.Saturated := by
    rintro (saturated | foldable)
    · rwa [fold_eq_self saturated.not_foldable]
    · exact foldable.saturated_fold
  refine ⟨⟨fun h => ?_, enough⟩, fold_eq_self, fun h => enough h.foldable_or_saturated.symm⟩
  by_cases foldable : f.Foldable
  · exact .inr foldable
  · exact .inl (fold_eq_self foldable ▸ h)

/-- The block with the constant is listed behind the block with the operation on it. -/
def lateConstant : Func where
  name := "late"
  params := []
  blocks := #[
    { label := "entry", term := some (.branch ⟨2⟩) },
    { label := "use"
      insts := [.arith .add ⟨1⟩ ⟨0⟩ ⟨0⟩]
      term := some (.ret ⟨1⟩) },
    { label := "constant"
      insts := [.const ⟨0⟩ 1.0]
      term := some (.branch ⟨1⟩) }]
  values := #["a", "c"]

theorem shaped_lateConstant : lateConstant.Shaped where
  entry := by decide
  ended := by
    have all : ∀ blk ∈ lateConstant.blocks, ∃ t ∈ blk.term,
        ∀ next ∈ t.successors, next.index < lateConstant.blocks.size := by decide
    intro b blk hb
    exact all blk (Array.mem_of_getElem? hb)
  reached := by
    have constant : lateConstant.Walk [⟨0⟩] ⟨2⟩ := .step .entry (by decide)
    have use : lateConstant.Walk [⟨0⟩, ⟨2⟩] ⟨1⟩ := constant.step (by decide)
    rintro ⟨b⟩ hb
    have : b < 3 := hb
    obtain rfl | rfl | rfl : b = 0 ∨ b = 1 ∨ b = 2 := by omega
    · exact ⟨_, .entry⟩
    · exact ⟨_, use⟩
    · exact ⟨_, constant⟩
  defined := by decide
  joins := by
    have none : ∀ i ∈ lateConstant.insts, i.isPhi = false := by decide
    intro b n dst incoming h
    cases none _ h.mem_insts
  slots := by
    have none : ∀ i ∈ lateConstant.insts, i.slot? = none := by decide
    intro b n i h s hs
    rw [none i h.mem_insts] at hs
    cases hs

/-- **Folding does not always get there.** The function is accepted, and its definitions dominate
their uses, but a sum of constants is left in it. -/
theorem lateConstant_unfolded : lateConstant.check = .ok () ∧ lateConstant.StrictSsa ∧
    ¬ lateConstant.fold.Saturated := by
  have cover : lateConstant.Covers [[], [⟨0⟩], []] := by decide
  have strict : lateConstant.StrictSsa := shaped_lateConstant.strictSsa cover.definesBeforeUse
  refine ⟨strict.check, strict, fun saturated => ?_⟩
  have same : lateConstant.fold.insts = [.arith .add ⟨1⟩ ⟨0⟩ ⟨0⟩, .const ⟨0⟩ 1.0] := by rfl
  unfold Saturated at saturated
  rw [same] at saturated
  obtain ⟨v, hv, free⟩ := saturated (.arith .add ⟨1⟩ ⟨0⟩ ⟨0⟩) (by simp) rfl
  obtain rfl : v = ⟨0⟩ := by simpa [Inst.operands] using hv
  exact free ⟨1.0, by simp⟩

end Func

end Kaleidoscope.Ssa
