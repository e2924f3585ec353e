import Kaleidoscope.Proofs.Engine.Bounded
import Kaleidoscope.Proofs.Ssa.Layout

/-!
# What the parts of a run do

The instructions of a block run up to its terminator, and `leave` carries on from there; `runFrom`
begins in the middle of a block. A run writes to the end of the text only (`grows_runBlocks`), and an
instruction changes no value but its target.
-/

namespace Kaleidoscope.Engine

open Ssa

/-- Carries on from the end of a block. -/
def leave (call : Caller) (f : Func) (fuel : Nat) (current : BlockId) (label : String)
    (term : Option Terminator) (fr : Frame) : Run Float :=
  match term with
  | some (.ret value) => fr.get value
  | some (.branch dest) => runBlocks call f fuel (some current) dest fr
  | some (.select condition yes no) => do
    let x ← fr.get condition
    runBlocks call f fuel (some current) (if x != 0.0 then yes else no) fr
  | none => throw (.fellOff f.name label)

/-- Runs from an instruction of a block to the end of the call. -/
def runFrom (call : Caller) (f : Func) (fuel : Nat) (source : Option BlockId) (current : BlockId)
    (n : Nat) (fr : Frame) : Run Float :=
  match f.blocks[current.index]? with
  | none => throw .outOfRange
  | some b =>
    runInsts call f source b.label fr (b.insts.drop n) >>= leave call f fuel current b.label b.term

/-- A value of the frame. -/
def Frame.Holds (fr : Frame) (v : ValueId) (x : Float) : Prop :=
  fr.values[v.index]? = some x

/-- The frame with a value written. -/
def Frame.put (fr : Frame) (v : ValueId) (x : Float) : Frame :=
  { fr with values := fr.values.setIfInBounds v.index x }

/-- The frame with a slot written. -/
def Frame.putSlot (fr : Frame) (s : SlotId) (x : Float) : Frame :=
  { fr with slots := fr.slots.setIfInBounds s.index x }

/-- The frame has the tables of the function. -/
structure Frame.Fits (fr : Frame) (f : Func) : Prop where
  values : fr.values.size = f.values.size
  slots : fr.slots.size = f.slots.size

variable {call : Caller} {f : Func} {source : Option BlockId} {label : String} {fr fr' : Frame}
  {i : Inst} {v : ValueId} {log log' : String} {fuel : Nat} {current : BlockId} {n : Nat}

/-- Entering a block runs its instructions and then leaves it. -/
theorem runBlocks_succ {b : Block} {current : BlockId} (h : f.blocks[current.index]? = some b)
    (fuel : Nat) :
    runBlocks call f (fuel + 1) source current fr =
      runInsts call f source b.label fr b.insts >>= leave call f fuel current b.label b.term := by
  rw [runBlocks, h]
  rfl

/-- Running a block is running it from its first instruction. -/
theorem runBlocks_eq_runFrom (fr : Frame) :
    runBlocks call f (fuel + 1) source current fr = runFrom call f fuel source current 0 fr := by
  unfold runFrom
  cases hb : f.blocks[current.index]? with
  | none => simp only [runBlocks, hb]
  | some b => exact runBlocks_succ hb fuel

theorem runFrom_of_getElem? {b : Block} (hb : f.blocks[current.index]? = some b)
    (hi : b.insts[n]? = some i) (fr : Frame) :
    runFrom call f fuel source current n fr =
      runInst call f source b.label fr i >>= runFrom call f fuel source current (n + 1) := by
  obtain ⟨hn, rfl⟩ := List.getElem?_eq_some_iff.1 hi
  unfold runFrom
  rw [hb]
  simp only [List.drop_eq_getElem_cons hn, runInsts, bind_assoc]

/-- One step of a run: an instruction, and then the rest of the block. -/
theorem runFrom_inst (h : f.InstAt current n i) (fr : Frame) :
    ∃ label, runFrom call f fuel source current n fr =
      runInst call f source label fr i >>= runFrom call f fuel source current (n + 1) := by
  obtain ⟨b, hb, hi⟩ := h
  exact ⟨b.label, runFrom_of_getElem? hb hi fr⟩

/-- The last step in a block: no instruction is left, and the terminator decides. -/
theorem runFrom_end {t : Terminator} (h : f.EndsAt current n t) (fr : Frame) :
    ∃ label, runFrom call f fuel source current n fr =
      leave call f fuel current label (some t) fr := by
  obtain ⟨b, hb, rfl, ht⟩ := h
  refine ⟨b.label, ?_⟩
  unfold runFrom
  rw [hb]
  simp only [List.drop_length, runInsts, ht, pure_bind]

section Frames

variable {slot : SlotId} {x : Float}

theorem get_of_holds (h : fr.Holds v x) : fr.get v = pure x := by
  unfold Frame.Holds at h
  simp only [Frame.get, h]

theorem getSlot_of_eq (h : fr.slots[slot.index]? = some x) : fr.getSlot slot = pure x := by
  simp only [Frame.getSlot, h]

theorem set_of_lt (h : v.index < fr.values.size) (x : Float) : fr.set v x = pure (fr.put v x) := by
  simp only [Frame.set, if_pos h, Frame.put]

theorem setSlot_of_lt (h : slot.index < fr.slots.size) (x : Float) :
    fr.setSlot slot x = pure (fr.putSlot slot x) := by
  simp only [Frame.setSlot, if_pos h, Frame.putSlot]

theorem holds_put (h : v.index < fr.values.size) (x : Float) : (fr.put v x).Holds v x := by
  simp only [Frame.Holds, Frame.put]
  exact Array.getElem?_setIfInBounds_self_of_lt h

theorem slot_putSlot (h : slot.index < fr.slots.size) (x : Float) :
    (fr.putSlot slot x).slots[slot.index]? = some x := by
  simp only [Frame.putSlot]
  exact Array.getElem?_setIfInBounds_self_of_lt h

end Frames

section Growth

variable (hc : ∀ name args, Grows (call name args))

theorem grows_get (fr : Frame) (v : ValueId) : Grows (fr.get v) := by
  unfold Frame.get
  split
  · exact grows_pure _
  · exact grows_throw _

theorem grows_getSlot (fr : Frame) (s : SlotId) : Grows (fr.getSlot s) := by
  unfold Frame.getSlot
  split
  · exact grows_pure _
  · exact grows_throw _

theorem grows_set (fr : Frame) (v : ValueId) (x : Float) : Grows (fr.set v x) := by
  unfold Frame.set
  split
  · exact grows_pure _
  · exact grows_throw _

theorem grows_setSlot (fr : Frame) (s : SlotId) (x : Float) : Grows (fr.setSlot s x) := by
  unfold Frame.setSlot
  split
  · exact grows_pure _
  · exact grows_throw _

theorem grows_getAll (fr : Frame) (vs : List ValueId) : Grows (fr.getAll vs) := by
  induction vs with
  | nil => exact grows_pure _
  | cons v vs ih => exact (grows_get fr v).bind fun _ => ih.bind fun _ => grows_pure _

include hc

/-- An instruction writes to the end of the text; it writes at all only through the functions that
it calls. -/
theorem grows_runInst (fr : Frame) (i : Inst) : Grows (runInst call f source label fr i) := by
  cases i with
  | const dst value => exact grows_set fr dst value
  | load dst slot => exact (grows_getSlot fr slot).bind fun _ => grows_set fr dst _
  | store slot src => exact (grows_get fr src).bind fun _ => grows_setSlot fr slot _
  | arith op dst l r =>
    exact (grows_get fr l).bind fun _ => (grows_get fr r).bind fun _ => grows_set fr dst _
  | less dst l r =>
    exact (grows_get fr l).bind fun _ => (grows_get fr r).bind fun _ => grows_set fr dst _
  | nonzero dst src => exact (grows_get fr src).bind fun _ => grows_set fr dst _
  | call dst callee args =>
    exact (grows_getAll fr args).bind fun _ => (hc _ _).bind fun _ => grows_set fr dst _
  | phi dst incoming =>
    simp only [runInst]
    split
    · exact (grows_get fr _).bind fun _ => grows_set fr dst _
    · exact grows_throw _

theorem grows_runInsts (is : List Inst) (fr : Frame) :
    Grows (runInsts call f source label fr is) := by
  induction is generalizing fr with
  | nil => exact grows_pure _
  | cons i is ih => exact (grows_runInst hc fr i).bind fun fr => ih fr

/-- By induction on the bound, as every block that is entered takes one from it. -/
theorem grows_runBlocks (fuel : Nat) (source : Option BlockId) (current : BlockId) (fr : Frame) :
    Grows (runBlocks call f fuel source current fr) := by
  induction fuel generalizing source current fr with
  | zero => exact grows_throw _
  | succ fuel ih =>
    rw [runBlocks_eq_runFrom, runFrom]
    split
    · exact grows_throw _
    · apply (grows_runInsts hc _ fr).bind
      intro fr
      unfold leave
      split
      · exact grows_get fr _
      · exact ih _ _ fr
      · exact (grows_get fr _).bind fun _ => ih _ _ fr
      · exact grows_throw _

end Growth

/-- Only values of the table are written, and only the one that was meant changes. -/
theorem set_ok {x : Float} (h : fr.set v x log = .ok fr' log') :
    v.index < fr.values.size ∧ fr'.values = fr.values.setIfInBounds v.index x := by
  unfold Frame.set at h
  split at h
  · next hv =>
    cases h
    exact ⟨hv, rfl⟩
  · cases h

/-- An instruction writes its target, or a slot if it has none. -/
theorem runInst_frame (h : runInst call f source label fr i log = .ok fr' log') :
    (∃ v x, i.target = some v ∧ fr' = fr.put v x) ∨ ∃ s x, i.target = none ∧ fr' = fr.putSlot s x := by
  have written : ∀ {w x l}, i.target = some w → fr.set w x l = .ok fr' log' →
      (∃ v x, i.target = some v ∧ fr' = fr.put v x) ∨
        ∃ s x, i.target = none ∧ fr' = fr.putSlot s x := by
    intro w x l hw hset
    unfold Frame.set at hset
    split at hset <;> cases hset
    exact .inl ⟨w, x, hw, rfl⟩
  cases i with
  | const dst value => exact written rfl h
  | load dst slot =>
    obtain ⟨x, _, -, h⟩ := bind_eq_ok.1 h
    exact written rfl h
  | store slot src =>
    obtain ⟨x, _, -, h⟩ := bind_eq_ok.1 h
    simp only [Frame.setSlot] at h
    split at h <;> cases h
    exact .inr ⟨slot, x, rfl, rfl⟩
  | arith op dst l r =>
    obtain ⟨x, _, -, h⟩ := bind_eq_ok.1 h
    obtain ⟨y, _, -, h⟩ := bind_eq_ok.1 h
    exact written rfl h
  | less dst l r =>
    obtain ⟨x, _, -, h⟩ := bind_eq_ok.1 h
    obtain ⟨y, _, -, h⟩ := bind_eq_ok.1 h
    exact written rfl h
  | nonzero dst src =>
    obtain ⟨x, _, -, h⟩ := bind_eq_ok.1 h
    exact written rfl h
  | call dst callee args =>
    obtain ⟨xs, _, -, h⟩ := bind_eq_ok.1 h
    obtain ⟨x, _, -, h⟩ := bind_eq_ok.1 h
    exact written rfl h
  | phi dst incoming =>
    cases he : edgeFrom source incoming with
    | none =>
      simp only [runInst, he] at h
      cases h
    | some edge =>
      simp only [runInst, he] at h
      obtain ⟨x, _, -, h⟩ := bind_eq_ok.1 h
      exact written rfl h

/-- An instruction changes no value but its target. -/
theorem runInst_values (h : runInst call f source label fr i log = .ok fr' log')
    (ht : i.target ≠ some v) : fr'.values[v.index]? = fr.values[v.index]? := by
  rcases runInst_frame h with ⟨w, x, hw, rfl⟩ | ⟨s, x, -, rfl⟩
  · have hi : w.index ≠ v.index := fun he => ht (hw.trans (congrArg some (congrArg ValueId.mk he)))
    exact Array.getElem?_setIfInBounds_ne hi
  · rfl

/-- An instruction keeps the tables of the frame as large as they are. -/
theorem fits_runInst (h : runInst call f source label fr i log = .ok fr' log') (hf : fr.Fits f) :
    fr'.Fits f := by
  rcases runInst_frame h with ⟨w, x, -, rfl⟩ | ⟨s, x, -, rfl⟩
  · exact ⟨by simpa [Frame.put] using hf.values, hf.slots⟩
  · exact ⟨hf.values, by simpa [Frame.putSlot] using hf.slots⟩

end Kaleidoscope.Engine
