import Kaleidoscope.Engine.Basic
import Kaleidoscope.Proofs.Action

/-!
# Runs in an engine that has loaded more

Calls are resolved when they are made, so what a run does depends on what its engine has loaded. An
engine may load functions of new names without any change to the runs that it could make before: a run
that did not stop at an unknown name finds the same functions at every call, and those of the host
where it found them. So it comes to the same and writes the same, whatever was written before it.

Main statement: `Engine.Extends.run`.
-/

namespace Kaleidoscope.Engine

open Ssa

/-- The engine has what the other one has loaded, and leaves the host's functions to the host where
the other one does. -/
structure Extends (e e' : Engine) : Prop where
  loaded : ∀ {name f}, e.lookup name = some f → e'.lookup name = some f
  hosted : ∀ {host : Host}, e.lookup host.name = none → e'.lookup host.name = none

/-- The end of a run that came to an outcome, with all that is written. -/
def ending {α : Type} (outcome : Except Stop α) (log : String) : EStateM.Result Stop String α :=
  match outcome with
  | .ok x => .ok x log
  | .error stop => .error stop log

/-- An end determines its outcome and its text. -/
theorem ending_inj {α : Type} {outcome outcome' : Except Stop α} {log log' : String}
    (h : ending outcome log = ending outcome' log') : outcome = outcome' ∧ log = log' := by
  cases outcome <;> cases outcome' <;> cases h <;> exact ⟨rfl, rfl⟩

instance {α : Type} [DecidableEq α] (r : EStateM.Result Stop String α) (outcome : Except Stop α)
    (log : String) : Decidable (r = ending outcome log) :=
  match r, outcome with
  | .ok x text, .ok y => decidable_of_iff (x = y ∧ text = log) (by simp [ending])
  | .error e text, .error e' => decidable_of_iff (e = e' ∧ text = log) (by simp [ending])
  | .ok _ _, .error _ => isFalse (by simp [ending])
  | .error _ _, .ok _ => isFalse (by simp [ending])

/-- The run stopped at a call of a name that nobody has. -/
def Unresolved {α : Type} (outcome : Except Stop α) : Prop :=
  ∃ callee, outcome = .error (.unresolved callee)

/-- Whatever was written before it, the second run comes to what the first comes to and writes what
the first writes, unless the first stops at a name that is not resolved. -/
def Repeats {α : Type} (a b : Run α) : Prop :=
  ∀ log, ∃ outcome out, a log = ending outcome (log ++ out) ∧
    (Unresolved outcome ∨ ∀ log', b log' = ending outcome (log' ++ out))

section Rules

variable {α β : Type} {a b : Run α} {k l : α → Run β}

theorem repeats_pure (x : α) : Repeats (pure x) (pure x) :=
  fun log => ⟨.ok x, "", by rw [String.append_empty]; rfl,
    .inr fun log' => by rw [String.append_empty]; rfl⟩

theorem repeats_throw (stop : Stop) : Repeats (throw stop : Run α) (throw stop) :=
  fun log => ⟨.error stop, "", by rw [String.append_empty]; rfl,
    .inr fun log' => by rw [String.append_empty]; rfl⟩

theorem repeats_write (text : String) :
    Repeats (modify (· ++ text) : Run Unit) (modify (· ++ text)) :=
  fun _ => ⟨.ok (), text, rfl, .inr fun _ => rfl⟩

/-- A name that is not resolved may well be resolved in the second run. -/
theorem repeats_unresolved (callee : String) (b : Run α) :
    Repeats (throw (.unresolved callee)) b :=
  fun log => ⟨.error (.unresolved callee), "", by rw [String.append_empty]; rfl,
    .inl ⟨callee, rfl⟩⟩

/-- A sequence is repeated part by part: if the first part stops at an unknown name, so does the
sequence, and the second part is not reached. -/
theorem Repeats.bind (h : Repeats a b) (hk : ∀ x, Repeats (k x) (l x)) :
    Repeats (a >>= k) (b >>= l) := by
  intro log
  obtain ⟨outcome, out, ha, hb⟩ := h log
  cases outcome with
  | error stop =>
    refine ⟨.error stop, out, bind_of_error ha k, ?_⟩
    rcases hb with ⟨callee, he⟩ | hb
    · cases he
      exact .inl ⟨callee, rfl⟩
    · exact .inr fun log' => bind_of_error (hb log') l
  | ok x =>
    rcases hb with ⟨callee, he⟩ | hb
    · cases he
    · obtain ⟨outcome, more, hx, hy⟩ := hk x (log ++ out)
      refine ⟨outcome, out ++ more, ?_, hy.imp id fun hy log' => ?_⟩
      · rw [bind_of_ok ha, hx, String.append_assoc]
      · rw [bind_of_ok (hb log'), hy, String.append_assoc]

end Rules

section Frames

variable {call call' : Caller} {f : Func} {source : Option BlockId} {label : String}

/-- Reading and writing frames asks nothing of the engine. -/
theorem repeats_get (fr : Frame) (v : ValueId) : Repeats (fr.get v) (fr.get v) := by
  unfold Frame.get
  split
  · exact repeats_pure _
  · exact repeats_throw _

theorem repeats_set (fr : Frame) (v : ValueId) (x : Float) : Repeats (fr.set v x) (fr.set v x) := by
  unfold Frame.set
  split
  · exact repeats_pure _
  · exact repeats_throw _

theorem repeats_getSlot (fr : Frame) (s : SlotId) : Repeats (fr.getSlot s) (fr.getSlot s) := by
  unfold Frame.getSlot
  split
  · exact repeats_pure _
  · exact repeats_throw _

theorem repeats_setSlot (fr : Frame) (s : SlotId) (x : Float) :
    Repeats (fr.setSlot s x) (fr.setSlot s x) := by
  unfold Frame.setSlot
  split
  · exact repeats_pure _
  · exact repeats_throw _

theorem repeats_getAll (fr : Frame) (vs : List ValueId) :
    Repeats (fr.getAll vs) (fr.getAll vs) := by
  induction vs with
  | nil => exact repeats_pure []
  | cons v vs ih => exact (repeats_get fr v).bind fun x => ih.bind fun xs => repeats_pure (x :: xs)

variable (calls : ∀ name args, Repeats (call name args) (call' name args))

include calls

/-- Of the instructions, calls alone ask the engine for anything. -/
theorem repeats_runInst (fr : Frame) (inst : Inst) :
    Repeats (runInst call f source label fr inst) (runInst call' f source label fr inst) := by
  cases inst with
  | const dst value => exact repeats_set fr dst value
  | load dst slot => exact (repeats_getSlot fr slot).bind (repeats_set fr dst)
  | store slot src => exact (repeats_get fr src).bind (repeats_setSlot fr slot)
  | arith op dst lhs rhs =>
    exact (repeats_get fr lhs).bind fun _ => (repeats_get fr rhs).bind fun _ => repeats_set fr dst _
  | less dst lhs rhs =>
    exact (repeats_get fr lhs).bind fun _ => (repeats_get fr rhs).bind fun _ => repeats_set fr dst _
  | nonzero dst src => exact (repeats_get fr src).bind fun _ => repeats_set fr dst _
  | call dst callee args =>
    exact (repeats_getAll fr args).bind fun xs => (calls callee xs).bind (repeats_set fr dst)
  | phi dst incoming =>
    simp only [runInst]
    split
    · exact (repeats_get fr _).bind (repeats_set fr dst)
    · exact repeats_throw _

theorem repeats_runInsts (insts : List Inst) : ∀ fr,
    Repeats (runInsts call f source label fr insts) (runInsts call' f source label fr insts) := by
  induction insts with
  | nil => exact fun fr => repeats_pure fr
  | cons inst rest ih => exact fun fr => (repeats_runInst calls fr inst).bind ih

/-- By induction on the bound, which falls with every block that is entered. -/
theorem repeats_runBlocks (fuel : Nat) : ∀ source current fr,
    Repeats (runBlocks call f fuel source current fr) (runBlocks call' f fuel source current fr) := by
  induction fuel with
  | zero => exact fun source current fr => repeats_throw _
  | succ fuel ih =>
    intro source current fr
    unfold runBlocks
    split
    · exact repeats_throw _
    · next block _ =>
      refine (repeats_runInsts calls block.insts fr).bind fun fr => ?_
      cases block.term with
      | none => exact repeats_throw _
      | some term =>
        cases term with
        | ret value => exact repeats_get fr value
        | branch dest => exact ih _ dest fr
        | select condition yes no => exact (repeats_get fr condition).bind fun x => ih _ _ fr

theorem repeats_runFunc (fuel : Nat) (args : List Float) :
    Repeats (runFunc call fuel f args) (runFunc call' fuel f args) := by
  unfold runFunc
  split
  · exact repeats_runBlocks calls fuel _ _ _
  · exact repeats_throw _

end Frames

namespace Extends

variable {e e' e'' : Engine}

theorem refl (e : Engine) : e.Extends e :=
  ⟨id, id⟩

theorem trans (h : e.Extends e') (h' : e'.Extends e'') : e.Extends e'' :=
  ⟨fun hf => h'.loaded (h.loaded hf), fun hn => h'.hosted (h.hosted hn)⟩

theorem of_lookup (h : e'.lookup = e.lookup) : e.Extends e' where
  loaded hf := h ▸ hf
  hosted hn := h ▸ hn

/-- A function of a new name that is not the host's. -/
theorem of_insert {name : String} {f : Func} (h : e'.symbols = e.symbols.insert name f)
    (fresh : e.lookup name = none) (free : ∀ host : Host, name ≠ host.name) : e.Extends e' where
  loaded := by
    intro n g hg
    show e'.symbols.get? n = some g
    rw [h, Dict.get?_insert, if_neg]
    · exact hg
    · rintro rfl
      cases fresh.symm.trans hg
  hosted := by
    intro host hn
    show e'.symbols.get? host.name = none
    rw [h, Dict.get?_insert, if_neg (free host).symm]
    exact hn

/-- A call is the same call in the engine that has loaded more. -/
theorem callWithin (h : e.Extends e') (fuel depth : Nat) : ∀ name args,
    Repeats (e.callWithin fuel depth name args) (e'.callWithin fuel depth name args) := by
  induction depth with
  | zero => exact fun name args => repeats_throw _
  | succ depth ih =>
    intro name args
    unfold Engine.callWithin
    cases hf : e.symbols.get? name with
    | some f =>
      have hf' : e'.symbols.get? name = some f := h.loaded hf
      rw [hf']
      dsimp only
      split
      · exact repeats_runFunc ih fuel args
      · exact repeats_throw _
    | none =>
      cases hh : Host.ofName? name with
      | some host =>
        have hn : host.name = name := by simpa using List.find?_some hh
        have hf' : e'.symbols.get? name = none := hn ▸ h.hosted (hn.symm ▸ hf)
        rw [hf']
        exact (repeats_write _).bind fun _ => repeats_pure _
      | none => exact repeats_unresolved name _

/-- **A run is the same run in an engine that has loaded more**, if it did not stop at a name that
nobody had. -/
theorem run (h : e.Extends e') {fuel : Nat} {name log out : String} {args : List Float}
    {outcome : Except Stop Float} (hr : e.run fuel name args log = ending outcome (log ++ out))
    (resolved : ¬ Unresolved outcome) (log' : String) :
    e'.run fuel name args log' = ending outcome (log' ++ out) := by
  obtain ⟨outcome', out', ha, hb⟩ := h.callWithin fuel maxDepth name args log
  obtain ⟨rfl, hout⟩ := ending_inj (hr.symm.trans ha)
  obtain rfl := (String.append_right_inj log).1 hout
  exact hb.resolve_left resolved log'

end Extends

end Kaleidoscope.Engine
