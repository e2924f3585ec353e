import Kaleidoscope.Proofs.Ssa.Framing
import Kaleidoscope.Proofs.Ssa.Handles
import Mathlib.Data.List.TakeWhile

/-!
# What a builder cannot get wrong

Whatever a builder is told to do, in whichever order and wherever its place has been left, each of
its functions is well built (`Func.WellBuilt`): the names of the values begin with the parameters,
instructions define values of the table behind these, each value once, and joins stand at the top
of their blocks.

A value is new when the instruction that defines it is added, as its number is the size the table
had, and nothing ever takes a value out of the table. What is done to the code of a function is
always of one form: a block gets further instructions somewhere, and joins only behind the joins it
begins with (`WellBuilt.insert`). Folding changes neither what instructions define nor which of
them are joins.

So two of the defects that the checks look for are never found in a function that a builder has
built. Main statement: `Builder.wellBuilt_after`.
-/

namespace Kaleidoscope

/-- The defects that a builder may leave in a function. -/
def Defect.buildable : Defect → Bool
  | .definedTwice _ | .phiNotAtTop _ => false
  | _ => true

namespace Ssa

/-- Joins come before all other instructions. -/
def JoinsFirst (is : List Inst) : Prop :=
  is.Pairwise fun i j => j.isPhi → i.isPhi

/-- What holds of every function that a builder has built. -/
structure Func.WellBuilt (f : Func) : Prop where
  /-- The names of the values begin with the parameters. -/
  params : f.params <+: f.values.toList
  /-- Instructions define values of the table that are no parameters. -/
  inside : ∀ v ∈ f.targets, f.arity ≤ v.index ∧ v.index < f.values.size
  /-- No two instructions define the same value. -/
  once : f.targets.Nodup
  joins : ∀ blk ∈ f.blocks.toList, JoinsFirst blk.insts

/-- All functions of the module are well built. -/
def Builder.WellBuilt (b : Builder) : Prop :=
  ∀ i f, b.func? i = some f → f.WellBuilt

section Joins

variable {is js : List Inst} {i : Inst}

/-- An instruction that is no join may come last. -/
theorem JoinsFirst.append (h : JoinsFirst is) (hi : i.isPhi = false) : JoinsFirst (is ++ [i]) := by
  refine List.pairwise_append.2 ⟨h, List.pairwise_singleton _ i, fun _ _ j hj join => ?_⟩
  rw [List.mem_singleton.1 hj, hi] at join
  cases join

/-- A join may be added behind the joins at the top. -/
theorem JoinsFirst.insert (h : JoinsFirst is) (hi : i.isPhi) :
    JoinsFirst (is.takeWhile Inst.isPhi ++ i :: is.dropWhile Inst.isPhi) := by
  refine List.pairwise_append.2 ⟨h.sublist (List.takeWhile_sublist _), ?_, ?_⟩
  · exact List.pairwise_cons.2 ⟨fun _ _ _ => hi, h.sublist (List.dropWhile_sublist _)⟩
  · exact fun j hj _ _ _ => List.mem_takeWhile_imp hj

/-- Folding turns no join into something else, and nothing into a join. -/
theorem Func.Recodes.isPhi_eq {f : Func} {j : Inst} (h : f.Recodes i j) : j.isPhi = i.isPhi := by
  cases h with
  | same => rfl
  | constant operation =>
    cases i with
    | arith | less | nonzero => rfl
    | _ => cases operation

theorem JoinsFirst.recodes {f : Func} (h : JoinsFirst is) (hr : List.Forall₂ f.Recodes is js) :
    JoinsFirst js := by
  have same : js.map Inst.isPhi = is.map Inst.isPhi := by
    induction hr with
    | nil => rfl
    | cons recodes _ ih => rw [List.map_cons, List.map_cons, recodes.isPhi_eq, ih h.of_cons]
  have first : (is.map Inst.isPhi).Pairwise fun p q => q = true → p = true := List.pairwise_map.2 h
  rw [← same] at first
  exact List.pairwise_map.1 first

end Joins

namespace Func

variable {f : Func} {k : BlockId} {change : Block → Block} {added : List Inst}

theorem WellBuilt.arity_le (h : f.WellBuilt) : f.arity ≤ f.values.size := by
  simpa [arity] using h.params.length_le

/-- A function that was just declared has its parameters and no code. -/
theorem wellBuilt_declare (name : String) (params : List String) :
    (declare name params).WellBuilt where
  params := by simp [declare]
  inside := by simp [declare, targets, insts]
  once := by simp [declare, targets, insts]
  joins := by simp [declare]

theorem WellBuilt.pushBlock (h : f.WellBuilt) (label : String) :
    WellBuilt { f with blocks := f.blocks.push { label } } := by
  have same : targets { f with blocks := f.blocks.push { label } } = f.targets := by
    simp [targets, insts]
  refine ⟨h.params, same ▸ h.inside, same ▸ h.once, fun blk hb => ?_⟩
  rw [Array.toList_push, List.mem_append, List.mem_singleton] at hb
  rcases hb with hb | rfl
  · exact h.joins blk hb
  · exact .nil

theorem WellBuilt.pushSlot (h : f.WellBuilt) (name : String) :
    WellBuilt { f with slots := f.slots.push name } :=
  ⟨h.params, h.inside, h.once, h.joins⟩

/-- A new value is defined by nothing yet. -/
theorem WellBuilt.pushValue (h : f.WellBuilt) (name : String) :
    WellBuilt { f with values := f.values.push name } where
  params := by
    rw [Array.toList_push]
    exact h.params.trans (List.prefix_append _ _)
  inside v hv := by
    obtain ⟨low, high⟩ := h.inside v hv
    exact ⟨low, by simpa using Nat.lt_succ_of_lt high⟩
  once := h.once
  joins := h.joins

/-- The value that is added next is not yet defined. -/
theorem WellBuilt.fresh (h : f.WellBuilt) : ⟨f.values.size⟩ ∉ f.targets :=
  fun hv => absurd (h.inside _ hv).2 (Nat.lt_irrefl _)

/-- A block that is not there is not changed. -/
theorem modify_of_none (hb : f.blocks[k.index]? = none) :
    f.blocks.modify k.index change = f.blocks := by
  refine Array.ext_getElem? fun n => ?_
  rw [Array.getElem?_modify]
  split
  · next he => rw [← he, hb, Option.map_none]
  · rfl

/-- Further instructions of a block bring what they define. -/
theorem targets_insert {blk : Block} (hb : f.blocks[k.index]? = some blk)
    (hp : (change blk).insts.Perm (added ++ blk.insts)) :
    (targets { f with blocks := f.blocks.modify k.index change }).Perm
      (added.filterMap Inst.target ++ f.targets) := by
  obtain ⟨before, behind, old, new⟩ := toList_modify change hb
  have block : (change blk).targets.Perm (added.filterMap Inst.target ++ blk.targets) := by
    rw [Block.targets, Block.targets, ← List.filterMap_append]
    exact hp.filterMap _
  rw [targets_eq, targets_eq, new, old]
  simp only [List.flatMap_append, List.flatMap_cons]
  refine ((block.append_right _).append_left _).trans ?_
  rw [List.append_assoc]
  exact List.perm_append_comm_assoc _ _ _

/-- Changing one block keeps the joins first if it does so in that block. -/
theorem joinsFirst_modify (h : ∀ blk ∈ f.blocks.toList, JoinsFirst blk.insts)
    (hj : ∀ blk, JoinsFirst blk.insts → JoinsFirst (change blk).insts) :
    ∀ blk ∈ (f.blocks.modify k.index change).toList, JoinsFirst blk.insts := by
  intro blk hmem
  obtain ⟨n, hn⟩ := List.getElem?_of_mem hmem
  rw [Array.getElem?_toList, Array.getElem?_modify] at hn
  split at hn
  · obtain ⟨old, hold, rfl⟩ := Option.map_eq_some_iff.1 hn
    exact hj old (h old (Array.mem_toList_iff.2 (Array.mem_of_getElem? hold)))
  · exact h blk (Array.mem_toList_iff.2 (Array.mem_of_getElem? hn))

/-- A block gets further instructions, which define values of the table that were not defined
before. -/
theorem WellBuilt.insert (h : f.WellBuilt) (added : List Inst)
    (hp : ∀ blk, (change blk).insts.Perm (added ++ blk.insts))
    (hj : ∀ blk, JoinsFirst blk.insts → JoinsFirst (change blk).insts)
    (ha : ∀ v ∈ added.filterMap Inst.target,
      f.arity ≤ v.index ∧ v.index < f.values.size ∧ v ∉ f.targets)
    (hn : (added.filterMap Inst.target).Nodup) :
    WellBuilt { f with blocks := f.blocks.modify k.index change } := by
  cases hb : f.blocks[k.index]? with
  | none =>
    rw [modify_of_none hb]
    exact h
  | some blk =>
    have targets := targets_insert hb (hp blk)
    refine ⟨h.params, fun v hv => ?_, targets.nodup_iff.2 ?_, joinsFirst_modify h.joins hj⟩
    · rcases List.mem_append.1 (targets.mem_iff.1 hv) with hv | hv
      · obtain ⟨low, high, -⟩ := ha v hv
        exact ⟨low, high⟩
      · exact h.inside v hv
    · refine List.nodup_append.2 ⟨hn, h.once, fun v hv w hw he => ?_⟩
      exact (ha v hv).2.2 (he ▸ hw)

/-- A constant defines what the operation in its place has defined. -/
theorem WellBuilt.fold (h : f.WellBuilt) : f.fold.WellBuilt where
  params := h.params
  inside := by
    rw [targets_fold]
    exact h.inside
  once := by
    rw [targets_fold]
    exact h.once
  joins := by
    have all : ∀ {bs cs : List Block}, List.Forall₂ f.RecodesBlock bs cs →
        (∀ blk ∈ bs, JoinsFirst blk.insts) → ∀ blk ∈ cs, JoinsFirst blk.insts := by
      intro bs cs hr
      induction hr with
      | nil => exact fun h => h
      | cons hb _ ih =>
        intro h
        rw [List.forall_mem_cons] at h ⊢
        exact ⟨h.1.recodes hb.insts, ih h.2⟩
    exact all (fold_blocks f) h.joins

end Func

namespace Builder

variable {b : Builder}

/-- What keeps a function well built keeps the builder so. -/
theorem WellBuilt.modifyFunc (h : b.WellBuilt) (i : FuncId) {change : Func → Func}
    (hc : ∀ {f : Func}, f.WellBuilt → (change f).WellBuilt) :
    (b.modifyFunc i change).WellBuilt := by
  intro j f hf
  rw [func?_modifyFunc] at hf
  split at hf
  · obtain ⟨g, hg, rfl⟩ := Option.map_eq_some_iff.1 hf
    exact hc (h j g hg)
  · exact h j f hf

/-- An instruction that defines nothing, or the exit of a block. -/
theorem WellBuilt.modifyBlock (h : b.WellBuilt) {change : Block → Block} (added : List Inst)
    (hp : ∀ blk, (change blk).insts.Perm (added ++ blk.insts))
    (hj : ∀ blk, JoinsFirst blk.insts → JoinsFirst (change blk).insts)
    (ha : added.filterMap Inst.target = []) : (b.modifyBlock change).WellBuilt := by
  refine h.modifyFunc b.place.func fun hf => hf.insert added hp hj ?_ ?_
  · simp [ha]
  · simp [ha]

/-- An instruction that defines a new value. -/
theorem WellBuilt.define (h : b.WellBuilt) (name : String) (inst : ValueId → Inst)
    (change : ValueId → Block → Block) (ht : ∀ v, (inst v).target = some v)
    (hp : ∀ v blk, (change v blk).insts.Perm (inst v :: blk.insts))
    (hj : ∀ v blk, JoinsFirst blk.insts → JoinsFirst (change v blk).insts) :
    ((b.newValue name).2.modifyBlock (change (b.newValue name).1)).WellBuilt := by
  intro j f hf
  simp only [Builder.modifyBlock, newValue, func?_modifyFunc] at hf
  have place : (b.modifyFunc b.place.func fun f => { f with values := f.values.push name }).place =
    b.place := rfl
  rw [place] at hf
  by_cases here : b.place.func = j
  · rw [if_pos here, if_pos here, Option.map_map] at hf
    obtain ⟨g, hg, rfl⟩ := Option.map_eq_some_iff.1 hf
    have size : ((b.func? b.place.func).map (·.values.size)).getD 0 = g.values.size := by
      rw [here, hg]
      rfl
    simp only [size]
    have built := h j g hg
    refine (built.pushValue name).insert [inst ⟨g.values.size⟩] (hp _) (hj _) ?_ ?_
    · intro v hv
      simp only [List.filterMap_cons_some (ht _), List.filterMap_nil, List.mem_singleton] at hv
      subst hv
      exact ⟨built.arity_le, by simp, built.fresh⟩
    · simp [ht]
  · rw [if_neg here, if_neg here] at hf
    exact h j f hf

/-- One operation keeps the functions well built. -/
theorem WellBuilt.perform (h : b.WellBuilt) (op : Operation) : (b.perform op).WellBuilt := by
  have defines : ∀ (name : String) {inst : ValueId → Inst}, (∀ v, (inst v).target = some v) →
      (∀ v, (inst v).isPhi = false) → (b.define name inst).2.WellBuilt := by
    intro name inst ht hi
    exact h.define name inst (fun v blk => { blk with insts := blk.insts ++ [inst v] }) ht
      (fun v blk => List.perm_append_singleton _ _) (fun v blk hj => hj.append (hi v))
  have ends : ∀ term, (b.terminate term).WellBuilt := fun term =>
    h.modifyBlock [] (fun _ => .refl _) (fun _ hj => hj) rfl
  cases op with
  | declare name params =>
    cases hf : b.find? name with
    | some i =>
      rw [Builder.perform, declare_of_some hf]
      exact h
    | none =>
      rw [Builder.perform, declare_of_none hf]
      intro i f hi
      rw [func?_push rfl] at hi
      split at hi
      · cases hi
        exact Func.wellBuilt_declare name params
      · exact h i f hi
  | delete g =>
    intro i f hi
    rcases Nat.lt_or_ge g.index b.module.functions.size with hg | hg
    · rw [Builder.perform, func?_delete_eq hg] at hi
      split at hi
      · exact h _ f hi
      · exact h _ f hi
    · rw [Builder.perform, delete_of_le hg] at hi
      exact h i f hi
  | moveTo place => exact h
  | take =>
    intro i f hi
    cases hi
  | appendBlock i label => exact h.modifyFunc i fun hf => hf.pushBlock label
  | addSlot i name => exact h.modifyFunc i fun hf => hf.pushSlot name
  | optimize i => exact h.modifyFunc i fun hf => hf.fold
  | load slot name | const value | arith op lhs rhs name | less lhs rhs | nonzero src name =>
    exact defines _ (fun _ => rfl) fun _ => rfl
  | store src slot =>
    exact h.modifyBlock [.store slot src] (fun _ => List.perm_append_singleton _ _)
      (fun _ hj => hj.append rfl) rfl
  | select | branch | ret => exact ends _
  | call i args name =>
    rw [Builder.perform, Builder.call]
    split
    · exact defines name (fun _ => rfl) fun _ => rfl
    -- nothing has the handle: only the value is numbered
    · exact h.modifyFunc b.place.func fun hf => hf.pushValue name
  -- a join goes behind the joins of its block, all other instructions to the end
  | phi incoming name =>
    let inst (v : ValueId) : Inst := .phi v (incoming.map fun edge => (edge.1, edge.2.block))
    refine h.define name inst
      (fun v blk =>
        { blk with
          insts := blk.insts.takeWhile Inst.isPhi ++ inst v :: blk.insts.dropWhile Inst.isPhi })
      (fun _ => rfl) (fun v blk => ?_) fun v blk hj => hj.insert rfl
    refine List.perm_middle.trans (.cons _ ?_)
    rw [List.takeWhile_append_dropWhile]

/-- By induction on the operations, each of which keeps all functions well built. -/
theorem WellBuilt.after (ops : List Operation) : ∀ {b : Builder}, b.WellBuilt →
    (b.after ops).WellBuilt := by
  induction ops with
  | nil => exact id
  | cons op ops ih => exact fun h => ih (h.perform op)

end Builder

namespace Func

variable {f : Func} {is : List Inst} {defined : List ValueId} {k : BlockId} {label : String}
  {atTop : Bool} {a b : Option Defect} {d : Defect}

theorem buildable_orElse (ha : ∀ d ∈ a, d.buildable)
    (hb : ∀ d ∈ b, d.buildable) : ∀ d ∈ (a <|> b), d.buildable := by
  cases a with
  | none => exact hb
  | some => exact ha

theorem buildable_undefinedAmong (vs : List ValueId) :
    ∀ d ∈ f.undefinedAmong defined vs, d.buildable := by
  intro d hd
  obtain ⟨v, -, rfl⟩ := Option.map_eq_some_iff.1 hd
  rfl

theorem buildable_slotDefect (s : SlotId) :
    ∀ d ∈ f.slotDefect label s, d.buildable := by
  intro d hd
  unfold slotDefect at hd
  split at hd
  · cases hd
  · cases hd
    rfl

/-- A join that stands at the top is not reported for its place. -/
theorem buildable_phiDefect (incoming : List (ValueId × BlockId)) :
    ∀ d ∈ f.phiDefect k label true incoming, d.buildable := by
  intro d hd
  simp only [phiDefect, Bool.not_true, Bool.false_eq_true, if_false] at hd
  split at hd
  · cases hd
  · cases hd
    rfl

/-- A join that follows another instruction is not found, as long as joins come first. -/
theorem buildable_instsDefect (hj : JoinsFirst is) : ∀ {atTop : Bool},
    (atTop = false → ∀ i ∈ is, i.isPhi = false) →
      ∀ d ∈ f.instsDefect defined k label atTop is, d.buildable := by
  induction is with
  | nil =>
    intro _ _ d hd
    cases hd
  | cons i is ih =>
    intro atTop top
    obtain ⟨first, rest⟩ := List.pairwise_cons.1 hj
    -- behind an instruction that is no join, there is none
    have behind : i.isPhi = false →
        ∀ d ∈ f.instsDefect defined k label false is, d.buildable := by
      refine fun hi => ih rest fun _ j hm => Bool.eq_false_iff.2 fun join => ?_
      rw [first j hm join] at hi
      cases hi
    unfold instsDefect
    refine buildable_orElse (buildable_undefinedAmong _) ?_
    cases i with
    | phi dst incoming =>
      cases atTop with
      | true =>
        refine buildable_orElse (buildable_phiDefect incoming) (ih rest fun h => ?_)
        exact Bool.noConfusion h
      | false => cases top rfl _ List.mem_cons_self
    | load dst s => exact buildable_orElse (buildable_slotDefect s) (behind rfl)
    | store s src => exact buildable_orElse (buildable_slotDefect s) (behind rfl)
    | _ => exact behind rfl

/-- In a block that begins with its joins, none is found below the top. -/
theorem buildable_blockDefect {blk : Block} (hj : JoinsFirst blk.insts) :
    ∀ d ∈ f.blockDefect defined k blk, d.buildable := by
  unfold blockDefect
  cases blk.term with
  | none =>
    intro d hd
    cases hd
    rfl
  | some term =>
    simp only
    split
    · refine buildable_orElse (buildable_instsDefect hj fun h => ?_) (buildable_undefinedAmong _)
      exact Bool.noConfusion h
    · intro d hd
      cases hd
      rfl

/-- A well-built function can have other defects only. -/
theorem WellBuilt.defect (h : f.WellBuilt) : ∀ d ∈ f.defect, d.buildable := by
  have apart : ∀ v ∈ f.targets, v ∉ f.paramValues.reverse := by
    intro v hv hp
    obtain ⟨n, hn, rfl⟩ := List.mem_map.1 (List.mem_reverse.1 hp)
    exact absurd (h.inside _ hv).1 (Nat.not_le.2 (List.mem_range.1 hn))
  unfold Func.defect
  rw [firstRepeated_eq_none h.once apart]
  split
  · intro d hd
    cases hd
    rfl
  · intro d hd
    obtain ⟨⟨blk, n⟩, hm, hd⟩ := List.exists_of_findSome?_eq_some hd
    refine buildable_blockDefect (h.joins blk ?_) d hd
    exact List.mem_of_getElem? (by simpa using List.mem_zipIdx_iff_getElem?.1 hm)

/-- What the checks find in a well-built function is one of the defects that a builder may leave. -/
theorem WellBuilt.check (h : f.WellBuilt) {name : String}
    (hc : f.check = .error (.unverified name d)) : d.buildable := by
  unfold Func.check at hc
  split at hc
  · cases hc
  · next found =>
    cases hc
    exact h.defect d found

end Func

/-- **What a builder cannot get wrong.** After any operations, the names of the values of each
function begin with its parameters, its instructions define values of the table behind these, and
each value once, and in its blocks joins come first. So the checks never find that it defines a
value twice, or that it has a join anywhere but at the top of a block. -/
theorem Builder.wellBuilt_after (moduleName : String) (ops : List Operation) :
    ∀ f ∈ ((Builder.empty moduleName).after ops).module.functions, f.WellBuilt ∧
      ∀ name text, f.check ≠ .error (.unverified name (.definedTwice text)) ∧
        f.check ≠ .error (.unverified name (.phiNotAtTop text)) := by
  intro f hf
  obtain ⟨n, hn⟩ := Array.getElem?_of_mem hf
  have empty : (Builder.empty moduleName).WellBuilt := by
    intro i f hi
    cases hi
  have built : f.WellBuilt := empty.after ops ⟨n⟩ f hn
  exact ⟨built, fun name text => ⟨fun hc => Bool.noConfusion (built.check hc),
    fun hc => Bool.noConfusion (built.check hc)⟩⟩

/-- Two functions are built in turns, a join is added behind other instructions, and when the first
function is deleted, the place in it becomes a place in the second. -/
def interleaved : List Operation := [
  .declare "f" ["x"], .declare "g" ["x", "y"],
  .appendBlock ⟨0⟩ "entry", .appendBlock ⟨1⟩ "entry", .appendBlock ⟨1⟩ "loop",
  .moveTo ⟨⟨1⟩, ⟨1⟩⟩, .const 1.0, .const 2.0, .arith .add ⟨2⟩ ⟨3⟩ "sum",
  .moveTo ⟨⟨0⟩, ⟨0⟩⟩, .const 3.0,
  .moveTo ⟨⟨1⟩, ⟨1⟩⟩, .phi [(⟨0⟩, ⟨⟨1⟩, ⟨0⟩⟩), (⟨4⟩, ⟨⟨1⟩, ⟨1⟩⟩)] "acc", .ret ⟨5⟩,
  .moveTo ⟨⟨0⟩, ⟨0⟩⟩, .delete ⟨0⟩, .nonzero ⟨0⟩ "truth", .optimize ⟨0⟩]

theorem wellBuilt_after_interleaved :
    ∃ f ∈ ((Builder.empty "turns").after interleaved).module.functions,
      (f.name = "g" ∧ f.targets = [⟨6⟩, ⟨5⟩, ⟨2⟩, ⟨3⟩, ⟨4⟩] ∧
        f.insts.map Inst.isConst = [false, false, true, true, true]) ∧
      f.WellBuilt ∧ ∀ name text, f.check ≠ .error (.unverified name (.definedTwice text)) ∧
        f.check ≠ .error (.unverified name (.phiNotAtTop text)) := by
  obtain ⟨f, hf, code⟩ : ∃ f ∈ ((Builder.empty "turns").after interleaved).module.functions,
      f.name = "g" ∧ f.targets = [⟨6⟩, ⟨5⟩, ⟨2⟩, ⟨3⟩, ⟨4⟩] ∧
        f.insts.map Inst.isConst = [false, false, true, true, true] := by
    decide +kernel
  exact ⟨f, hf, code, Builder.wellBuilt_after "turns" interleaved f hf⟩

end Ssa

end Kaleidoscope
