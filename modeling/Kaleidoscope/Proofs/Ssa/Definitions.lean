import Kaleidoscope.Engine.Frame
import Kaleidoscope.Proofs.Ssa.Layout
import Kaleidoscope.Ssa.Verify

/-!
# Definitions and uses

An accepted function defines each of its values once (`eq_of_target`). Where a value is defined
before it is used is a matter of paths: a path of control begins at the entry of a function and
follows terminators, and it carries along the values that are defined on it, which are the
parameters and the targets of the instructions it has passed. `Func.DefinesBeforeUse` says that on
every path each value is defined before it is read; for a given function it can be decided with the
help of a cover (`Covers.definesBeforeUse`). A join reads one value only, that of the edge which
control came along.
-/

namespace Kaleidoscope.Ssa

/-- The values that an instruction reads in a block that was reached from `source`. -/
def Inst.reads (source : Option BlockId) : Inst → List ValueId
  | .phi _ incoming => ((Engine.edgeFrom source incoming).map (·.1)).toList
  | inst => inst.operands

/-- The values that a block defines. -/
def Block.targets (b : Block) : List ValueId :=
  b.insts.filterMap Inst.target

/-- Every instruction reads only values that are defined before it. -/
def ReadsDefined (source : Option BlockId) : List ValueId → List Inst → Prop
  | _, [] => True
  | defined, inst :: rest =>
    (∀ v ∈ inst.reads source, v ∈ defined) ∧
      ReadsDefined source (defined ++ inst.target.toList) rest

instance (source : Option BlockId) :
    ∀ defined insts, Decidable (ReadsDefined source defined insts)
  | _, [] => isTrue trivial
  | defined, inst :: rest =>
    have := instDecidableReadsDefined source (defined ++ inst.target.toList) rest
    inferInstanceAs (Decidable (_ ∧ _))

theorem ReadsDefined.mono {source : Option BlockId} {insts : List Inst} :
    ∀ {defined defined' : List ValueId}, ReadsDefined source defined insts →
      (∀ v ∈ defined, v ∈ defined') → ReadsDefined source defined' insts := by
  induction insts with
  | nil => exact fun _ _ => trivial
  | cons inst rest ih =>
    intro defined defined' h hs
    refine ⟨fun v hv => hs v (h.1 v hv), ih h.2 fun v hv => ?_⟩
    rcases List.mem_append.1 hv with hv | hv
    · exact List.mem_append_left _ (hs v hv)
    · exact List.mem_append_right _ hv

namespace Func

/-- Control can come from the entry to the start of the block `current`, by way of `source`, on a path
that defines these values. -/
inductive Path (f : Func) : List ValueId → Option BlockId → BlockId → Prop
  | entry : Path f f.paramValues none ⟨0⟩
  | step {defined : List ValueId} {source : Option BlockId} {current next : BlockId} {b : Block}
      {term : Terminator} :
    Path f defined source current → f.blocks[current.index]? = some b → b.term = some term →
    next ∈ term.successors → Path f (defined ++ b.targets) (some current) next

/-- On every path from the entry each value is defined before it is read. -/
def DefinesBeforeUse (f : Func) : Prop :=
  ∀ {defined source current b}, f.Path defined source current →
    f.blocks[current.index]? = some b →
    ReadsDefined source defined b.insts ∧
      ∀ term ∈ b.term, ∀ v ∈ term.operand, v ∈ defined ++ b.targets

section Cover

variable {f : Func} {available : List (List ValueId)}

/-- Behind `defined`, the block can be entered from `source`: what it reads is defined, and so is what
the cover lists for it. -/
def Entered (f : Func) (available : List (List ValueId)) (source : Option BlockId)
    (defined : List ValueId) (next : BlockId) : Prop :=
  (∀ v ∈ available.getD next.index [], v ∈ defined) ∧
    ∀ b ∈ f.blocks[next.index]?, ReadsDefined source defined b.insts ∧
      ∀ term ∈ b.term, ∀ v ∈ term.operand, v ∈ defined ++ b.targets

instance (source : Option BlockId) (defined : List ValueId) (next : BlockId) :
    Decidable (f.Entered available source defined next) := by
  unfold Entered
  infer_instance

/-- For each block, some values that are defined on all paths to it; enough of them that every edge
can be checked by itself. -/
def Covers (f : Func) (available : List (List ValueId)) : Prop :=
  f.Entered available none f.paramValues ⟨0⟩ ∧
    ∀ entry ∈ f.blocks.toList.zipIdx, ∀ term ∈ entry.1.term, ∀ next ∈ term.successors,
      f.Entered available (some ⟨entry.2⟩) (available.getD entry.2 [] ++ entry.1.targets) next

instance : Decidable (f.Covers available) := by
  unfold Covers
  infer_instance

theorem Entered.mono {source : Option BlockId} {defined defined' : List ValueId} {next : BlockId}
    (h : f.Entered available source defined next) (hs : ∀ v ∈ defined, v ∈ defined') :
    f.Entered available source defined' next := by
  refine ⟨fun v hv => hs v (h.1 v hv), fun b hb => ?_⟩
  obtain ⟨hr, ht⟩ := h.2 b hb
  refine ⟨hr.mono hs, fun term hterm v hv => ?_⟩
  rcases List.mem_append.1 (ht term hterm v hv) with hv | hv
  · exact List.mem_append_left _ (hs v hv)
  · exact List.mem_append_right _ hv

/-- By induction on the path, each edge of which the cover has checked. -/
theorem Covers.entered (h : f.Covers available) {defined : List ValueId}
    {source : Option BlockId} {current : BlockId} (hp : f.Path defined source current) :
    f.Entered available source defined current := by
  induction hp with
  | entry => exact h.1
  | @step defined source current next b term _ hb ht hn ih =>
    have mem : (b, current.index) ∈ f.blocks.toList.zipIdx :=
      List.mem_zipIdx_iff_getElem?.2 (by simpa using hb)
    apply (h.2 _ mem term ht next hn).mono
    intro v hv
    rcases List.mem_append.1 hv with hv | hv
    · exact List.mem_append_left _ (ih.1 v hv)
    · exact List.mem_append_right _ hv

/-- A cover shows that values are defined before they are used. -/
theorem Covers.definesBeforeUse (h : f.Covers available) : f.DefinesBeforeUse :=
  fun hp hb => (h.entered hp).2 _ hb

end Cover

section Walks

variable {f : Func} {n : Nat} {defined : List ValueId} {source : Option BlockId} {current : BlockId}
  {k : Nat}

/-- Whoever walks from the given instruction of a block through at most `n` blocks, this one included,
with these values defined, reads only what is defined by then. -/
def SafeFrom (f : Func) : Nat → List ValueId → Option BlockId → BlockId → Nat → Prop
  | 0, _, _, _, _ => True
  | n + 1, defined, source, current, k =>
    ∀ b, f.blocks[current.index]? = some b →
      ReadsDefined source defined (b.insts.drop k) ∧
        ∀ term ∈ b.term,
          (∀ v ∈ term.operand, v ∈ defined ++ (b.insts.drop k).filterMap Inst.target) ∧
            ∀ next ∈ term.successors,
              f.SafeFrom n (defined ++ (b.insts.drop k).filterMap Inst.target) (some current) next 0

/-- Walking past an instruction is safe if what it reads is defined, and going on with its target is
safe. -/
theorem safeFrom_inst {i : Inst} (hi : f.InstAt current k i)
    (hr : ∀ v ∈ i.reads source, v ∈ defined)
    (h : f.SafeFrom n (defined ++ i.target.toList) source current (k + 1)) :
    f.SafeFrom n defined source current k := by
  cases n with
  | zero => trivial
  | succ n =>
    intro b hb
    obtain ⟨b', hb', hi⟩ := hi
    rw [hb] at hb'
    cases hb'
    obtain ⟨hk, rfl⟩ := List.getElem?_eq_some_iff.1 hi
    obtain ⟨hreads, hterm⟩ := h b hb
    have targets : ∀ is : List Inst, defined ++ (b.insts[k] :: is).filterMap Inst.target =
        defined ++ b.insts[k].target.toList ++ is.filterMap Inst.target := by
      intro is
      cases ht : b.insts[k].target <;> simp [ht]
    rw [List.drop_eq_getElem_cons hk, targets]
    exact ⟨⟨hr, hreads⟩, hterm⟩

/-- Walking out of a block is safe if its exit reads what is defined, and every successor can be
entered. -/
theorem safeFrom_end {t : Terminator} (ht : f.EndsAt current k t)
    (ho : ∀ v ∈ t.operand, v ∈ defined)
    (h : ∀ l < n, ∀ next ∈ t.successors, f.SafeFrom l defined (some current) next 0) :
    f.SafeFrom n defined source current k := by
  cases n with
  | zero => trivial
  | succ n =>
    intro b hb
    obtain ⟨b', hb', rfl, ht⟩ := ht
    rw [hb] at hb'
    cases hb'
    rw [List.drop_length]
    refine ⟨trivial, fun term hterm => ?_⟩
    rw [ht] at hterm
    cases hterm
    simp only [List.filterMap_nil, List.append_nil]
    exact ⟨ho, h n (Nat.lt_succ_self n)⟩

/-- What is safe to walk from the entry, however far, defines its values before it uses them. -/
theorem definesBeforeUse_of_safeFrom (h : ∀ n, f.SafeFrom n f.paramValues none ⟨0⟩ 0) :
    f.DefinesBeforeUse := by
  have walk : ∀ {defined source current}, f.Path defined source current →
      ∀ n, f.SafeFrom n defined source current 0 := by
    intro defined source current hp
    induction hp with
    | entry => exact h
    | step _ hb ht hn ih => exact fun n => ((ih (n + 1) _ hb).2 _ ht).2 _ hn
  intro defined source current b hp hb
  obtain ⟨hr, ht⟩ := walk hp 1 b hb
  exact ⟨hr, fun term hterm => (ht term hterm).1⟩

end Walks

section Accepted

/-- Where no value is repeated, all are different. -/
theorem nodup_of_firstRepeated {seen vs : List ValueId} (h : firstRepeated seen vs = none) :
    vs.Nodup ∧ ∀ v ∈ vs, v ∉ seen := by
  induction vs generalizing seen with
  | nil => simp
  | cons v vs ih =>
    unfold firstRepeated at h
    split at h
    · cases h
    · next hv =>
      obtain ⟨hn, hs⟩ := ih h
      refine ⟨List.nodup_cons.2 ⟨fun hm => hs v hm (by simp), hn⟩, ?_⟩
      intro w hw
      rcases List.mem_cons.1 hw with rfl | hw
      · exact hv
      · exact fun hm => hs w hw (List.mem_cons_of_mem v hm)

variable {f : Func}

theorem defect_of_check (h : f.check = .ok ()) : f.defect = none := by
  unfold check at h
  split at h
  · next hd => exact hd
  · cases h

theorem firstRepeated_of_check (h : f.check = .ok ()) :
    firstRepeated f.paramValues.reverse f.targets = none := by
  have hd := defect_of_check h
  unfold defect at hd
  split at hd
  · cases hd
  · split at hd
    · cases hd
    · next hr => exact hr

/-- An accepted function defines no value twice. -/
theorem targets_nodup (h : f.check = .ok ()) : f.targets.Nodup :=
  (nodup_of_firstRepeated (firstRepeated_of_check h)).1

/-- No instruction of an accepted function defines a parameter. -/
theorem not_mem_paramValues (h : f.check = .ok ()) {v : ValueId} (hv : v ∈ f.targets) :
    v ∉ f.paramValues := by
  have := (nodup_of_firstRepeated (firstRepeated_of_check h)).2 v hv
  simpa using this

theorem mem_targets {i : Inst} (hi : i ∈ f.insts) {v : ValueId} (h : i.target = some v) :
    v ∈ f.targets :=
  List.mem_filterMap.2 ⟨i, hi, h⟩

/-- Among instructions that define different values, the value tells the instruction. -/
theorem eq_of_target_of_nodup {is : List Inst} (hn : (is.filterMap Inst.target).Nodup) {i j : Inst}
    (hi : i ∈ is) (hj : j ∈ is) {v : ValueId} (h : i.target = some v) (h' : j.target = some v) :
    i = j := by
  induction is with
  | nil => cases hi
  | cons k is ih =>
    rcases List.mem_cons.1 hi with hik | hi <;> rcases List.mem_cons.1 hj with hjk | hj
    · rw [hik, hjk]
    · rw [List.filterMap_cons_some (hik ▸ h)] at hn
      exact absurd (List.mem_filterMap.2 ⟨j, hj, h'⟩) (List.nodup_cons.1 hn).1
    · rw [List.filterMap_cons_some (hjk ▸ h')] at hn
      exact absurd (List.mem_filterMap.2 ⟨i, hi, h⟩) (List.nodup_cons.1 hn).1
    · refine ih ?_ hi hj
      exact List.Sublist.nodup ((List.sublist_cons_self k is).filterMap _) hn

/-- A value is defined by one instruction. -/
theorem eq_of_target (hn : f.targets.Nodup) {i j : Inst} (hi : i ∈ f.insts) (hj : j ∈ f.insts)
    {v : ValueId} (h : i.target = some v) (h' : j.target = some v) : i = j :=
  eq_of_target_of_nodup hn hi hj h h'

theorem mem_insts {b : Block} (hb : b ∈ f.blocks.toList) {i : Inst} (hi : i ∈ b.insts) :
    i ∈ f.insts :=
  List.mem_flatMap.2 ⟨b, hb, hi⟩

end Accepted

end Func

end Kaleidoscope.Ssa
