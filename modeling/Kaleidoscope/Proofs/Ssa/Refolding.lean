import Kaleidoscope.Proofs.Lowering.Emission
import Kaleidoscope.Proofs.Ssa.Saturation

/-!
# Folding once is enough

The folder passes over the blocks until a pass changes nothing. No bound is needed for that: every
pass but the last turns an operation into a constant, and no pass makes operations (`Passes`,
`passes_fold`). What comes out is not folded further, although a second run begins knowing nothing:
a function that is folded at all is left without operations on constants, and any other is left as
it was (`fold_fold`).

No check on a function can tell whether it has been folded (`check_fold`). An operation that is
folded uses only values that the function defines, the constant in its place uses none, and neither
of them can stand before a join. Everything else the checks look at is left alone. This holds of all
functions, accepted or not, and so what is checked before it is folded needs no second check.

Main statement: `fold_keeps`.
-/

namespace Kaleidoscope.Ssa

/-- The passes over the blocks that a loop without a bound makes, with their number and what they
leave: each but the last changes something, and knows what those before it have learned. -/
inductive Passes : Known → List Block → Nat → List Block → Prop
  | last {known : Known} {bs : List Block} : (({ known } : Pass).blocks bs).2.changed = false →
    Passes known bs 1 (({ known } : Pass).blocks bs).1
  | more {known : Known} {bs cs : List Block} {n : Nat} :
    (({ known } : Pass).blocks bs).2.changed = true →
    Passes (({ known } : Pass).blocks bs).2.known (({ known } : Pass).blocks bs).1 n cs →
    Passes known bs (n + 1) cs

section Passes

/-- With a bound above the number of operations, the passes come to their end. -/
theorem passes_foldWithin (n : Nat) : ∀ {known : Known} {bs : List Block},
    (bs.flatMap (·.insts)).countP Inst.isOperation < n →
    ∃ m ≤ (bs.flatMap (·.insts)).countP Inst.isOperation + 1,
      Passes known bs m (foldWithin known n bs) := by
  induction n with
  | zero => exact fun h => absurd h (Nat.not_lt_zero _)
  | succ n ih =>
    intro known bs bound
    cases hc : (({ known } : Pass).blocks bs).2.changed with
    | true =>
      have fewer := operations_blocks known bs hc
      obtain ⟨m, hm, rest⟩ := @ih (({ known } : Pass).blocks bs).2.known _
        (Nat.lt_of_lt_of_le fewer (Nat.le_of_lt_succ bound))
      rw [foldWithin_of_changed n hc]
      exact ⟨m + 1, by omega, .more hc rest⟩
    | false =>
      have ended := Passes.last hc
      rw [blocks_eq_self bs hc] at ended
      rw [foldWithin_of_unchanged n hc]
      exact ⟨1, Nat.le_add_left 1 _, ended⟩

end Passes

namespace Func

variable {f : Func}

/-- Folding comes to an end, after at most as many passes as there are operations and one more. -/
theorem passes_fold (f : Func) : ∃ n ≤ f.insts.countP Inst.isOperation + 1,
    Passes ∅ f.blocks.toList n f.fold.blocks.toList := by
  have bound : f.insts.countP Inst.isOperation < f.insts.length + 1 :=
    Nat.lt_succ_of_le List.countP_le_length
  exact @passes_foldWithin (f.insts.length + 1) ∅ f.blocks.toList bound

/-- A folded function has nothing to be folded, or was not touched. -/
theorem fold_fold (f : Func) : f.fold.fold = f.fold := by
  by_cases foldable : f.Foldable
  · exact fold_eq_self foldable.saturated_fold.not_foldable
  · rw [fold_eq_self foldable, fold_eq_self foldable]

section Checks

variable {is js : List Inst} {b b' : Block} {k : BlockId} {label : String}

/-- The instructions have the same first defect before and after folding. -/
theorem instsDefect_fold (h : List.Forall₂ f.Recodes is js) : ∀ {atTop : Bool},
    f.fold.instsDefect f.definitions k label atTop js =
      f.instsDefect f.definitions k label atTop is := by
  induction h with
  | nil => exact fun {_} => rfl
  | @cons i j is js recodes _ ih =>
    intro atTop
    cases recodes with
    | same =>
      cases i with
      | phi dst incoming =>
        have sources : ∀ edge : ValueId × BlockId, f.fold.precedes edge.2 k = f.precedes edge.2 k :=
          fun edge => Bool.eq_iff_iff.2 precedes_fold
        simp only [instsDefect, phiDefect, sources, ih]
        rfl
      | _ =>
        simp only [instsDefect, ih]
        rfl
    | constant operation known =>
      -- what the operation uses is defined, or the folder would not know it
      have defined : f.undefinedAmong f.definitions i.operands = none := by
        refine undefinedAmong_eq_none fun v hv => ?_
        obtain ⟨c, certified⟩ := known v hv
        exact mem_definitions.2 (.inr certified.mem_targets)
      have written : f.instsDefect f.definitions k label atTop (i :: is) =
          f.instsDefect f.definitions k label false is := by
        simp only [instsDefect, defined]
        cases i with
        | arith | less | nonzero => rfl
        | _ => cases operation
      rw [written, ← ih]
      rfl

/-- What the checks find in a block does not change when its operations become constants. -/
theorem blockDefect_fold (h : f.RecodesBlock b b') :
    f.fold.blockDefect f.definitions k b' = f.blockDefect f.definitions k b := by
  simp only [blockDefect, h.term, h.label, size_fold, instsDefect_fold h.insts]
  rfl

/-- A function has the same first defect before and after folding. -/
theorem defect_fold (f : Func) : f.fold.defect = f.defect := by
  have blocks : ∀ {bs cs : List Block}, List.Forall₂ f.RecodesBlock bs cs → ∀ k,
      (cs.zipIdx k).findSome? (fun e => f.fold.blockDefect f.definitions ⟨e.2⟩ e.1) =
        (bs.zipIdx k).findSome? fun e => f.blockDefect f.definitions ⟨e.2⟩ e.1 := by
    intro bs cs h
    induction h with
    | nil => exact fun _ => rfl
    | cons hb _ ih =>
      intro k
      simp only [List.zipIdx_cons, List.findSome?_cons, blockDefect_fold hb, ih]
  simp only [defect, isDeclaration_fold, targets_fold, definitions_fold, blocks (fold_blocks f) 0]
  rfl

/-- The checks accept a function folded or not, and refuse it for the same defect. -/
theorem check_fold (f : Func) : f.fold.check = f.check := by
  simp only [check, defect_fold]
  rfl

end Checks

end Func

section Lowering

variable {registry : Registry} {id : FuncId} {d : Definition} {st st' : Emitter} {f : Func}

/-- Code is accepted by folding it. -/
theorem func?_accept (h : Emit.accept id st = .ok () st') :
    st'.builder.func? id = (st.builder.func? id).map Func.fold := by
  unfold Emit.accept at h
  obtain ⟨b, st₁, hb, h⟩ := bind_eq_ok.1 h
  cases hb
  cases hc : st.builder.check id with
  | ok =>
    rw [hc] at h
    cases h
    show (st.builder.modifyFunc id Func.fold).func? id = _
    rw [func?_modifyFunc, if_pos rfl]
  | error =>
    rw [hc] at h
    cases h

/-- What a body is filled with was checked before it was folded. -/
theorem checked_of_body (h : Emit.body registry id d st = .ok () st')
    (hf : st'.builder.func? id = some f) : ∃ g : Func, g.check = .ok () ∧ f = g.fold := by
  rw [Emit.body_eq] at h
  obtain ⟨-, st₁, -, accepted⟩ := bind_eq_ok.1 h
  obtain ⟨g, hg, rfl⟩ := Option.map_eq_some_iff.1 ((func?_accept accepted).symm.trans hf)
  exact ⟨g, (Emit.accept_ok hg accepted).1, rfl⟩

end Lowering

/-- **What folding keeps.** Of every function, accepted or not: the passes over it come to an end,
and leave the function that `fold` gives; folding that once more changes nothing; all that has
changed is that operations on certified constants have become those constants, at the same places
and for the same values; and the checks say of it what they said before. So a function that lowering
has filled, and checked before it was folded, would be accepted, and left as it is, once more. -/
theorem Func.fold_keeps (f : Func) :
    (∃ n ≤ f.insts.countP Inst.isOperation + 1,
      Passes ∅ f.blocks.toList n f.fold.blocks.toList) ∧
    f.fold.fold = f.fold ∧
    (f.fold = { f with blocks := f.fold.blocks } ∧
      List.Forall₂ f.RecodesBlock f.blocks.toList f.fold.blocks.toList) ∧
    f.fold.check = f.check ∧
    ∀ {registry id d st st'}, Emit.body registry id d st = .ok () st' →
      st'.builder.func? id = some f → (∃ g : Func, g.check = .ok () ∧ f = g.fold) ∧
        f.check = .ok () ∧ f.fold = f := by
  refine ⟨f.passes_fold, f.fold_fold, ⟨rfl, fold_blocks f⟩, f.check_fold, fun filled hf => ?_⟩
  obtain ⟨g, checked, rfl⟩ := checked_of_body filled hf
  exact ⟨⟨g, checked, rfl⟩, g.check_fold.trans checked, g.fold_fold⟩

end Kaleidoscope.Ssa
