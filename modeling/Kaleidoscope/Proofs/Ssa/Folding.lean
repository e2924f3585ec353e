import Kaleidoscope.Engine.Basic
import Kaleidoscope.Proofs.Engine.Step
import Kaleidoscope.Proofs.Ssa.Definitions
import Kaleidoscope.Ssa.Fold
import Mathlib.Data.List.Forall2

/-!
# Folding keeps the meaning of a function

What the folder knows is certified by the function itself: `Func.Constant f v c` is derived from the
constants of `f` and from its operations on constants, whatever the blocks are and however often
they are passed over. `fold_blocks` says that the folded function differs from the function only in
instructions that have become certified constants.

At run time the certificates are an invariant of the frame, `Func.Settled`: every value that is
defined on the path so far and has a certificate holds its constant. It is here that a value must
have one definition only, and that it must be defined before it is read. Main statement:
`run_fold_eq`.
-/

namespace Kaleidoscope.Ssa

/-- The instruction is an operation, which is a constant if its operands are. -/
def Inst.isOperation : Inst → Bool
  | .arith _ _ _ _ | .less _ _ _ | .nonzero _ _ => true
  | _ => false

/-- The value is the constant, by the instructions of the function. -/
inductive Func.Constant (f : Func) : ValueId → Float → Prop
  | const {v : ValueId} {c : Float} : .const v c ∈ f.insts → Constant f v c
  | arith {op : Arith} {v l r : ValueId} {x y : Float} :
    .arith op v l r ∈ f.insts → Constant f l x → Constant f r y → Constant f v (op.eval x y)
  | less {v l r : ValueId} {x y : Float} :
    .less v l r ∈ f.insts → Constant f l x → Constant f r y → Constant f v (lessOrUnordered x y)
  | nonzero {v w : ValueId} {x : Float} :
    .nonzero v w ∈ f.insts → Constant f w x → Constant f v (truthOf x)

/-- The second instruction is the first, or the first is an operation on constants and the second the
constant that it comes to. -/
inductive Func.Recodes (f : Func) : Inst → Inst → Prop
  | same (i : Inst) : Recodes f i i
  | constant {i : Inst} {v : ValueId} {c : Float} :
    i.isOperation → (∀ w ∈ i.operands, ∃ d, f.Constant w d) → i.target = some v →
    f.Constant v c → Recodes f i (.const v c)

/-- The second block is the first with some of its instructions turned into constants. -/
structure Func.RecodesBlock (f : Func) (b b' : Block) : Prop where
  label : b'.label = b.label
  term : b'.term = b.term
  insts : List.Forall₂ f.Recodes b.insts b'.insts

section Passes

variable {f : Func}

/-- An operation is folded if its operands are known. -/
theorem folded?_isSome_iff (known : Known) (i : Inst) :
    (i.folded? known).isSome ↔ i.isOperation ∧ ∀ v ∈ i.operands, known.contains v := by
  cases i with
  | arith op dst l r =>
    cases hl : known.get? l <;> cases hr : known.get? r <;>
      simp [Inst.folded?, Inst.isOperation, Inst.operands, Dict.contains, hl, hr]
  | less dst l r =>
    cases hl : known.get? l <;> cases hr : known.get? r <;>
      simp [Inst.folded?, Inst.isOperation, Inst.operands, Dict.contains, hl, hr]
  | nonzero dst src =>
    cases hs : known.get? src <;>
      simp [Inst.folded?, Inst.isOperation, Inst.operands, Dict.contains, hs]
  | _ => simp [Inst.folded?, Inst.isOperation]

/-- What the folder knows is certified. -/
def Known.Sound (f : Func) (known : Known) : Prop :=
  ∀ v c, known.get? v = some c → f.Constant v c

theorem Known.Sound.insert {known : Known} (h : known.Sound f) {v : ValueId} {c : Float}
    (hc : f.Constant v c) : Known.Sound f (known.insert v c) := by
  intro w d hw
  rw [Dict.get?_insert] at hw
  split at hw
  · next he =>
    cases hw
    exact he ▸ hc
  · exact h w d hw

theorem Known.Sound.constant {known : Known} (h : known.Sound f) {v : ValueId}
    (hv : known.contains v) : ∃ c, f.Constant v c := by
  obtain ⟨c, hc⟩ := Option.isSome_iff_exists.1 hv
  exact ⟨c, h v c hc⟩

/-- An operation that is folded is certified by the constants that are its operands. -/
theorem constant_of_folded? {known : Known} (h : known.Sound f) {i : Inst} (hi : i ∈ f.insts)
    {v : ValueId} {c : Float} (ht : i.target = some v) (hc : i.folded? known = some c) :
    f.Constant v c := by
  cases i with
  | arith op dst l r =>
    cases ht
    simp only [Inst.folded?, Option.bind_eq_bind, Option.bind_eq_some_iff] at hc
    obtain ⟨x, hx, y, hy, hc⟩ := hc
    cases hc
    exact .arith hi (h l x hx) (h r y hy)
  | less dst l r =>
    cases ht
    simp only [Inst.folded?, Option.bind_eq_bind, Option.bind_eq_some_iff] at hc
    obtain ⟨x, hx, y, hy, hc⟩ := hc
    cases hc
    exact .less hi (h l x hx) (h r y hy)
  | nonzero dst w =>
    cases ht
    simp only [Inst.folded?, Option.bind_eq_bind, Option.bind_eq_some_iff] at hc
    obtain ⟨x, hx, hc⟩ := hc
    cases hc
    exact .nonzero hi (h w x hx)
  | _ => cases hc

/-- One instruction of a pass: what is learned is certified, and so is what is written. -/
theorem inst_sound {pass : Pass} (h : pass.known.Sound f) {i j : Inst} (hi : i ∈ f.insts)
    (hj : f.Recodes i j) :
    (pass.inst j).2.known.Sound f ∧ f.Recodes i (pass.inst j).1 := by
  cases j with
  | const v c =>
    refine ⟨h.insert ?_, hj⟩
    cases hj with
    | same => exact .const hi
    | constant _ _ _ hc => exact hc
  | _ =>
    cases hj
    simp only [Pass.inst]
    split
    · next ht hc =>
      have certified := constant_of_folded? h hi ht hc
      obtain ⟨operation, known⟩ := (folded?_isSome_iff pass.known _).1 (Option.isSome_of_eq_some hc)
      exact ⟨h.insert certified,
        .constant operation (fun w hw => h.constant (known w hw)) ht certified⟩
    · exact ⟨h, .same _⟩

/-- By induction on the instructions: what a pass learns at one of them is certified for those
behind it. -/
theorem insts_sound {is js : List Inst} (hr : List.Forall₂ f.Recodes is js) :
    ∀ {pass : Pass}, pass.known.Sound f → (∀ i ∈ is, i ∈ f.insts) →
      (pass.insts js).2.known.Sound f ∧ List.Forall₂ f.Recodes is (pass.insts js).1 := by
  induction hr with
  | nil => exact fun h _ => ⟨h, .nil⟩
  | cons hj _ ih =>
    intro pass h hi
    obtain ⟨h₁, hj₁⟩ := inst_sound h (hi _ (by simp)) hj
    obtain ⟨h₂, hjs⟩ := ih h₁ fun i hm => hi i (List.mem_cons_of_mem _ hm)
    exact ⟨h₂, .cons hj₁ hjs⟩

/-- What is learned in one block is known in those listed behind it. -/
theorem blocks_sound {bs cs : List Block} (hr : List.Forall₂ f.RecodesBlock bs cs) :
    ∀ {pass : Pass}, pass.known.Sound f → (∀ b ∈ bs, ∀ i ∈ b.insts, i ∈ f.insts) →
      (pass.blocks cs).2.known.Sound f ∧ List.Forall₂ f.RecodesBlock bs (pass.blocks cs).1 := by
  induction hr with
  | nil => exact fun h _ => ⟨h, .nil⟩
  | cons hb _ ih =>
    intro pass h hi
    obtain ⟨h₁, hb₁⟩ := insts_sound hb.insts h (hi _ (by simp))
    obtain ⟨h₂, hbs⟩ := ih h₁ fun b hm => hi b (List.mem_cons_of_mem _ hm)
    exact ⟨h₂, .cons ⟨hb.label, hb.term, hb₁⟩ hbs⟩

/-- Another pass begins with instructions that were recoded already. -/
theorem foldWithin_sound {bs : List Block} (hi : ∀ b ∈ bs, ∀ i ∈ b.insts, i ∈ f.insts) (n : Nat) :
    ∀ {known : Known} {cs : List Block}, known.Sound f → List.Forall₂ f.RecodesBlock bs cs →
      List.Forall₂ f.RecodesBlock bs (foldWithin known n cs) := by
  induction n with
  | zero => exact fun _ hr => hr
  | succ n ih =>
    intro known cs h hr
    have sound : ({ known } : Pass).known.Sound f := h
    obtain ⟨h', hr'⟩ := blocks_sound hr sound hi
    simp only [foldWithin]
    split
    · exact ih h' hr'
    · exact hr'

/-- Folding turns some instructions into certified constants and changes nothing else. -/
theorem fold_blocks (f : Func) :
    List.Forall₂ f.RecodesBlock f.blocks.toList f.fold.blocks.toList := by
  have same : List.Forall₂ f.RecodesBlock f.blocks.toList f.blocks.toList := by
    refine List.forall₂_same.2 fun b _ => ⟨rfl, rfl, ?_⟩
    exact List.forall₂_same.2 fun i _ => .same i
  exact foldWithin_sound (fun b hb i hi => Func.mem_insts hb hi) _ (fun v c h => nomatch h) same

theorem isDeclaration_fold (f : Func) : f.fold.isDeclaration = f.isDeclaration := by
  have h := (fold_blocks f).length_eq
  simp only [Array.length_toList] at h
  simp only [Func.isDeclaration, Array.isEmpty, h]

end Passes

section Runs

open Engine

variable {f : Func} {call : Caller} {source : Option BlockId} {label : String} {fr fr' : Frame}
  {defined : List ValueId} {i j : Inst} {v : ValueId} {c : Float} {log log' : String}

/-- The defined values that are certified constants hold their constants. -/
def Func.Settled (f : Func) (defined : List ValueId) (fr : Frame) : Prop :=
  ∀ v ∈ defined, ∀ c, f.Constant v c → fr.values[v.index]? = some c

/-- Constants are values that instructions define. -/
theorem Func.Constant.mem_targets (h : f.Constant v c) : v ∈ f.targets := by
  cases h with
  | const h => exact Func.mem_targets h rfl
  | arith h _ _ => exact Func.mem_targets h rfl
  | less h _ _ => exact Func.mem_targets h rfl
  | nonzero h _ => exact Func.mem_targets h rfl

/-- Reading a value that is defined and certified gives its constant. -/
theorem Func.Settled.get (hs : f.Settled defined fr) (hv : v ∈ defined) (hc : f.Constant v c) :
    fr.get v = pure c := by
  simp only [Frame.get, hs v hv c hc]

/-- An instruction whose target is a certified constant writes this constant. -/
theorem runInst_constant (hn : f.targets.Nodup) (hi : i ∈ f.insts) (ht : i.target = some v)
    (hr : ∀ w ∈ i.reads source, w ∈ defined) (hs : f.Settled defined fr) (hc : f.Constant v c) :
    runInst call f source label fr i = fr.set v c := by
  have unique : ∀ {j : Inst}, j ∈ f.insts → j.target = some v → i = j :=
    fun hj hjt => Func.eq_of_target hn hi hj ht hjt
  cases hc with
  | const h =>
    cases unique h rfl
    rfl
  | arith h hx hy =>
    cases unique h rfl
    simp only [runInst, hs.get (hr _ (by simp [Inst.reads, Inst.operands])) hx,
      hs.get (hr _ (by simp [Inst.reads, Inst.operands])) hy]
    rfl
  | less h hx hy =>
    cases unique h rfl
    simp only [runInst, hs.get (hr _ (by simp [Inst.reads, Inst.operands])) hx,
      hs.get (hr _ (by simp [Inst.reads, Inst.operands])) hy]
    rfl
  | nonzero h hx =>
    cases unique h rfl
    simp only [runInst, hs.get (hr _ (by simp [Inst.reads, Inst.operands])) hx]
    rfl

/-- An instruction keeps the invariant, and adds its own target to it. -/
theorem settled_runInst (hn : f.targets.Nodup) (hi : i ∈ f.insts)
    (hr : ∀ w ∈ i.reads source, w ∈ defined) (hs : f.Settled defined fr)
    (h : runInst call f source label fr i log = .ok fr' log') :
    f.Settled (defined ++ i.target.toList) fr' := by
  intro v hv c hc
  by_cases ht : i.target = some v
  · rw [runInst_constant hn hi ht hr hs hc] at h
    obtain ⟨hlt, hset⟩ := set_ok h
    rw [hset, Array.getElem?_setIfInBounds_self_of_lt hlt]
  · have old : v ∈ defined := by simpa [ht] using hv
    rw [runInst_values h ht]
    exact hs v old c hc

/-- A constant that stands for an operation comes to what the operation would come to, since its
operands hold their constants. -/
theorem runInst_recodes (hn : f.targets.Nodup) (hi : i ∈ f.insts)
    (hr : ∀ w ∈ i.reads source, w ∈ defined) (hs : f.Settled defined fr) (hj : f.Recodes i j) :
    runInst call f.fold source label fr j = runInst call f source label fr i := by
  cases hj with
  | same => cases i <;> rfl
  | constant _ _ ht hc =>
    rw [runInst_constant hn hi ht hr hs hc]
    rfl

/-- By induction on the instructions, with the values that are defined by then. -/
theorem runInsts_recodes (hn : f.targets.Nodup) {is js : List Inst}
    (hj : List.Forall₂ f.Recodes is js) :
    ∀ {defined fr}, (∀ i ∈ is, i ∈ f.insts) → ReadsDefined source defined is →
      f.Settled defined fr →
      runInsts call f.fold source label fr js = runInsts call f source label fr is ∧
        ∀ {fr' log log'}, runInsts call f source label fr is log = .ok fr' log' →
          f.Settled (defined ++ is.filterMap Inst.target) fr' := by
  induction hj with
  | nil =>
    intro defined fr _ _ hs
    refine ⟨rfl, fun h => ?_⟩
    cases h
    simpa using hs
  | @cons i j is js hij _ ih =>
    intro defined fr hi hr hs
    have hi₁ := hi i (by simp)
    have hi₂ : ∀ k ∈ is, k ∈ f.insts := fun k hk => hi k (List.mem_cons_of_mem i hk)
    constructor
    · funext log
      simp only [runInsts, runInst_recodes hn hi₁ hr.1 hs hij]
      cases h : runInst call f source label fr i log with
      | error e log' => rw [bind_of_error h, bind_of_error h]
      | ok fr₁ log₁ =>
        rw [bind_of_ok h, bind_of_ok h,
          (ih hi₂ hr.2 (settled_runInst hn hi₁ hr.1 hs h)).1]
    · intro fr' log log' h
      obtain ⟨fr₁, log₁, h₁, h₂⟩ := bind_eq_ok.1 h
      have := (ih hi₂ hr.2 (settled_runInst hn hi₁ hr.1 hs h₁)).2 h₂
      rw [List.append_assoc] at this
      cases ht : i.target <;> simpa [List.filterMap_cons, ht] using this

theorem fold_getElem? (f : Func) (k : Nat) :
    Option.Rel f.RecodesBlock f.blocks[k]? f.fold.blocks[k]? := by
  have blocks := fold_blocks f
  have get : ∀ {bs cs : List Block}, List.Forall₂ f.RecodesBlock bs cs →
      ∀ k : Nat, Option.Rel f.RecodesBlock bs[k]? cs[k]? := by
    intro bs cs h
    induction h with
    | nil => exact fun k => by simp
    | cons hb _ ih =>
      intro k
      cases k with
      | zero => simpa using Option.Rel.some hb
      | succ k => simpa using ih k
  simpa using get blocks k

/-- Control leaves the folded block as it leaves the block. -/
theorem leave_fold {current : BlockId} {term : Option Terminator} {fuel : Nat}
    (h : ∀ t next, term = some t → next ∈ t.successors →
      runBlocks call f.fold fuel (some current) next fr =
        runBlocks call f fuel (some current) next fr) (label : String) (log : String) :
    leave call f.fold fuel current label term fr log =
      leave call f fuel current label term fr log := by
  cases term with
  | none => rfl
  | some t =>
    cases t with
    | ret value => rfl
    | branch dest => exact congrFun (h _ dest rfl (by simp [Terminator.successors])) log
    | select condition yes no =>
      apply bind_congr_ok
      intro x log₁ _
      refine congrFun (h _ _ rfl ?_) log₁
      split <;> simp [Terminator.successors]

/-- Along every path the folded function does what the function does. -/
theorem runBlocks_fold (hn : f.targets.Nodup) (hd : f.DefinesBeforeUse) (fuel : Nat) :
    ∀ {defined source current fr}, f.Path defined source current → f.Settled defined fr →
      runBlocks call f.fold fuel source current fr = runBlocks call f fuel source current fr := by
  induction fuel with
  | zero => exact fun _ _ => rfl
  | succ fuel ih =>
    intro defined source current fr hp hs
    have blocks := fold_getElem? f current.index
    cases hb : f.blocks[current.index]? with
    | none =>
      rw [hb] at blocks
      cases hb' : f.fold.blocks[current.index]? with
      | none => simp only [runBlocks, hb, hb']
      | some b' => rw [hb'] at blocks; cases blocks
    | some b =>
      cases hb' : f.fold.blocks[current.index]? with
      | none => rw [hb, hb'] at blocks; cases blocks
      | some b' =>
        rw [hb, hb'] at blocks
        obtain ⟨hlabel, hterm, hinsts⟩ : f.RecodesBlock b b' := by cases blocks; assumption
        have mem : ∀ i ∈ b.insts, i ∈ f.insts := fun i hi =>
          Func.mem_insts (Array.mem_toList_iff.2 (Array.mem_of_getElem? hb)) hi
        obtain ⟨same, settled⟩ := @runInsts_recodes _ call source b.label hn _ _ hinsts _ fr mem
          (hd hp hb).1 hs
        rw [runBlocks_succ hb', runBlocks_succ hb, hlabel, hterm, same]
        funext log
        apply bind_congr_ok
        intro fr₁ log₁ h
        exact leave_fold (fun term next ht hn => ih (.step hp hb ht hn) (settled h)) b.label log₁

/-- Parameters are defined by no instruction, so none of them is certified. -/
theorem settled_params (hc : f.check = .ok ()) (fr : Frame) : f.Settled f.paramValues fr :=
  fun _ hv _ hk => absurd hv (Func.not_mem_paramValues hc hk.mem_targets)

/-- A call enters the folded function as it enters the function. -/
theorem runFunc_fold (hc : f.check = .ok ()) (hd : f.DefinesBeforeUse) (fuel : Nat)
    (args : List Float) : runFunc call fuel f.fold args = runFunc call fuel f args := by
  unfold runFunc
  rw [show Frame.enter? f.fold args = Frame.enter? f args from rfl]
  cases Frame.enter? f args with
  | none => rfl
  | some fr => exact runBlocks_fold (Func.targets_nodup hc) hd fuel .entry (settled_params hc fr)

/-- **Folding keeps the meaning.** An accepted function in which every value is defined before it is
used runs as before once its constants are folded: in every engine, with every depth of calls that
is left, on every list of arguments, and under every bound on the blocks visited, those included at
which the run is cut off. -/
theorem run_fold_eq {f : Func} (hc : f.check = .ok ()) (hd : f.DefinesBeforeUse) (e : Engine)
    (depth fuel : Nat) (args : List Float) :
    runFunc (e.callWithin fuel depth) fuel f.fold args =
      runFunc (e.callWithin fuel depth) fuel f args :=
  runFunc_fold hc hd fuel args

/-- Adds a product of constants to a slot until the sum passes the parameter. -/
def summing : Func where
  name := "summing"
  params := ["x"]
  blocks := #[
    { label := "entry"
      insts := [.const ⟨1⟩ 2.0, .const ⟨2⟩ 3.0, .arith .mul ⟨3⟩ ⟨1⟩ ⟨2⟩]
      term := some (.branch ⟨1⟩) },
    { label := "loop"
      insts := [.load ⟨4⟩ ⟨0⟩, .arith .add ⟨5⟩ ⟨4⟩ ⟨3⟩, .store ⟨0⟩ ⟨5⟩, .less ⟨6⟩ ⟨5⟩ ⟨0⟩]
      term := some (.select ⟨6⟩ ⟨1⟩ ⟨2⟩) },
    { label := "afterloop"
      insts := [.phi ⟨7⟩ [(⟨5⟩, ⟨1⟩)]]
      term := some (.ret ⟨7⟩) }]
  values := #["x", "", "", "", "", "", "", ""]
  slots := #["s"]

theorem run_fold_eq_summing :
    summing.check = .ok () ∧ summing.Covers [[⟨0⟩], [⟨0⟩, ⟨3⟩], [⟨5⟩]] ∧
      ∀ (e : Engine) (depth fuel : Nat) (args : List Float),
        runFunc (e.callWithin fuel depth) fuel summing.fold args =
          runFunc (e.callWithin fuel depth) fuel summing args := by
  have accepted : summing.check = .ok () := by rfl
  have cover : summing.Covers [[⟨0⟩], [⟨0⟩, ⟨3⟩], [⟨5⟩]] := by decide
  exact ⟨accepted, cover, run_fold_eq accepted cover.definesBeforeUse⟩

end Runs

end Kaleidoscope.Ssa
