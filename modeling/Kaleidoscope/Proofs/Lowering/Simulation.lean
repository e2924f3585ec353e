import Kaleidoscope.Proofs.Engine.Step
import Kaleidoscope.Proofs.Lowering.Coded
import Mathlib.Data.List.Forall2

/-!
# Code does what its expression means

While the engine runs through the code of an expression, the slots of the scope hold the bindings of
the evaluation. It comes out with the value of the expression where the code says, and with every
value and slot that was taken before unchanged (`Kept`).

The statement is about the rest of the run: what happens behind the code is a parameter, so that
nothing need be said about the blocks in between. `s` counts the blocks that were visited; every
turn of a loop visits one more, which is why a loop that is given `K` turns gets at least as far as a
run of `K` blocks.
-/

namespace Kaleidoscope

open Ssa Engine

/-- Values and slots that are taken at the mark are the same in both frames. -/
structure Kept (m : Mark) (fr fr' : Frame) : Prop where
  values : fr'.values.size = fr.values.size
  slots : fr'.slots.size = fr.slots.size
  value : ∀ n < m.values, fr'.values[n]? = fr.values[n]?
  slot : ∀ n < m.slots, fr'.slots[n]? = fr.slots[n]?

/-- The slots of the scope hold the bindings, and are among the first `n` slots. -/
def Agrees (σ : Scope) (env : Bindings) (n : Nat) (fr : Frame) : Prop :=
  ∀ name slot, σ.get? name = some slot →
    slot.index < n ∧ ∃ x, env.get? name = some x ∧ fr.slots[slot.index]? = some x

section Frames

variable {f : Func} {fr fr' fr'' : Frame} {v : ValueId} {slot : SlotId} {x : Float} {m m' : Mark}
  {σ : Scope} {env : Bindings} {n n' : Nat}

theorem getAll_of_holds {vs : List ValueId} {xs : List Float} (h : List.Forall₂ fr.Holds vs xs) :
    fr.getAll vs = pure xs := by
  induction h with
  | nil => rfl
  | cons hv _ ih => simp only [Frame.getAll, get_of_holds hv, ih, pure_bind]

theorem Kept.refl (m : Mark) (fr : Frame) : Kept m fr fr :=
  ⟨rfl, rfl, fun _ _ => rfl, fun _ _ => rfl⟩

/-- What is kept up to a mark is kept by what comes behind it, as marks only go up. -/
theorem Kept.trans (h : Kept m fr fr') (h' : Kept m' fr' fr'') (hv : m.values ≤ m'.values)
    (hs : m.slots ≤ m'.slots) : Kept m fr fr'' where
  values := h'.values.trans h.values
  slots := h'.slots.trans h.slots
  value n hn := (h'.value n (by omega)).trans (h.value n hn)
  slot n hn := (h'.slot n (by omega)).trans (h.slot n hn)

theorem Kept.fits (h : Kept m fr fr') (hf : fr.Fits f) : fr'.Fits f :=
  ⟨h.values.trans hf.values, h.slots.trans hf.slots⟩

/-- Values that were computed before the mark stay. -/
theorem Kept.holds (h : Kept m fr fr') (hx : fr.Holds v x) (hv : v.index < m.values) :
    fr'.Holds v x :=
  (h.value _ hv).trans hx

theorem kept_put (h : m.values ≤ v.index) (fr : Frame) (x : Float) : Kept m fr (fr.put v x) where
  values := by simp [Frame.put]
  slots := rfl
  value n hn := Array.getElem?_setIfInBounds_ne (by omega)
  slot _ _ := rfl

theorem kept_putSlot (h : m.slots ≤ slot.index) (fr : Frame) (x : Float) :
    Kept m fr (fr.putSlot slot x) where
  values := rfl
  slots := by simp [Frame.putSlot]
  value _ _ := rfl
  slot n hn := Array.getElem?_setIfInBounds_ne (by omega)

/-- Code leaves the slots in scope alone. -/
theorem Agrees.kept (h : Agrees σ env m.slots fr) (hk : Kept m fr fr') (hn : m.slots ≤ n) :
    Agrees σ env n fr' := by
  intro name slot hs
  obtain ⟨hlt, x, hx, hf⟩ := h name slot hs
  exact ⟨by omega, x, hx, (hk.slot _ hlt).trans hf⟩

theorem Agrees.mono (h : Agrees σ env n fr) (hn : n ≤ n') : Agrees σ env n' fr := by
  intro name slot hs
  obtain ⟨hlt, x⟩ := h name slot hs
  exact ⟨by omega, x⟩

/-- A name bound to a new slot. -/
theorem Agrees.insert (h : Agrees σ env n fr) (hn : n ≤ slot.index) (hn' : slot.index < n')
    (hx : fr.slots[slot.index]? = some x) (name : String) :
    Agrees (σ.insert name slot) (env.insert name x) n' fr := by
  intro name' slot' hs
  rw [Scope.get?_insert] at hs
  rw [Dict.get?_insert]
  split at hs
  · next he =>
    cases hs
    exact ⟨hn', x, if_pos he, hx⟩
  · next he =>
    obtain ⟨hlt, y, hy, hf⟩ := h name' slot' hs
    exact ⟨by omega, y, by rw [if_neg he, hy], hf⟩

/-- A condition is tested by comparing its number with zero. -/
theorem truthOf_ne_zero (x : Float) : (truthOf x != 0.0) = isTruth x := by
  unfold truthOf
  cases isTruth x <;> decide

end Frames

section Steps

variable {K s : Nat} {call : Caller} {calls : Nat → Caller} {f : Func} {source : Option BlockId}
  {b dest yes no : BlockId} {n : Nat} {fr fr' : Frame} {a : Run Float} {m : Mark} {v : ValueId}
  {x : Float}

/-- The rest of a run from an instruction on, when `s` blocks were visited, under every bound. -/
def rest (calls : Nat → Caller) (f : Func) (s : Nat) (source : Option BlockId) (b : BlockId)
    (n : Nat) (fr : Frame) : Nat → Run Float :=
  fun fuel => runFrom (calls fuel) f (fuel - s) source b n fr

/-- The rest of a run from the start of a block that is not yet visited. -/
def restAt (calls : Nat → Caller) (f : Func) (s : Nat) (source : Option BlockId) (b : BlockId)
    (fr : Frame) : Nat → Run Float :=
  fun fuel => runBlocks (calls fuel) f (fuel - s) source b fr

/-- Entering a block counts one more block that was visited. -/
theorem simulates_enter (h : Simulates K a (rest calls f (s + 1) source b 0 fr)) :
    Simulates K a (restAt calls f s source b fr) := by
  refine h.later (s := s) (fun fuel hf => ?_) fun fuel hf => ?_
  · rw [restAt, Nat.sub_eq_zero_of_le hf]
    rfl
  · rw [restAt, show fuel - s = fuel - (s + 1) + 1 by omega]
    exact runBlocks_eq_runFrom fr

/-- At a branch the run goes on in the next block. -/
theorem simulates_branch (ht : f.EndsAt b n (.branch dest))
    (h : Simulates K a (restAt calls f s (some b) dest fr)) :
    Simulates K a (rest calls f s source b n fr) := by
  have he : rest calls f s source b n fr = restAt calls f s (some b) dest fr := by
    funext fuel
    obtain ⟨label, he⟩ := runFrom_end ht fr
    exact he
  exact he ▸ h

/-- At a test it goes on where the truth of the condition says. -/
theorem simulates_select (ht : f.EndsAt b n (.select v yes no)) (hv : fr.Holds v (truthOf x))
    (h : Simulates K a (restAt calls f s (some b) (if isTruth x then yes else no) fr)) :
    Simulates K a (rest calls f s source b n fr) := by
  have he : rest calls f s source b n fr =
      restAt calls f s (some b) (if isTruth x then yes else no) fr := by
    funext fuel
    obtain ⟨label, he⟩ := runFrom_end ht fr
    apply he.trans
    rw [leave, get_of_holds hv, pure_bind, truthOf_ne_zero]
    rfl
  exact he ▸ h

/-- At a return it is over, and gives the value. -/
theorem simulates_ret (ht : f.EndsAt b n (.ret v)) (hv : fr.Holds v x) :
    Simulates K (pure x) (rest calls f s source b n fr) := by
  have he : rest calls f s source b n fr = fun _ => pure x := by
    funext fuel
    obtain ⟨label, he⟩ := runFrom_end ht fr
    apply he.trans
    rw [leave, get_of_holds hv]
  exact he ▸ .refl (grows_pure x)

/-- An instruction that does not stop the run takes it one place further. -/
theorem simulates_inst {i : Inst} (hi : f.InstAt b n i)
    (hr : ∀ fuel label, runInst (calls fuel) f source label fr i = pure fr')
    (h : Simulates K a (rest calls f s source b (n + 1) fr')) :
    Simulates K a (rest calls f s source b n fr) := by
  have he : rest calls f s source b n fr = rest calls f s source b (n + 1) fr' := by
    funext fuel
    obtain ⟨label, he⟩ := runFrom_inst hi fr
    apply he.trans
    rw [hr, pure_bind]
    rfl
  exact he ▸ h

/-- An instruction that writes a new value. -/
theorem simulates_define {inst : ValueId → Inst} (hd : f.Defines m inst) (hf : fr.Fits f)
    (hr : ∀ fuel label, runInst (calls fuel) f source label fr (inst m.fresh) = fr.set m.fresh x)
    (h : ∀ fr', Kept m fr fr' → fr'.Holds m.fresh x →
      Simulates K a (rest calls f s source m.block (m.index + 1) fr')) :
    Simulates K a (rest calls f s source m.block m.index fr) := by
  have hlt : m.fresh.index < fr.values.size := hf.values ▸ hd.value
  refine simulates_inst hd.inst (fun fuel label => (hr fuel label).trans (set_of_lt hlt x)) ?_
  exact h _ (kept_put (Nat.le_refl _) fr x) (holds_put hlt x)

/-- An instruction that writes a slot. -/
theorem simulates_store {slot : SlotId} (hi : f.InstAt m.block m.index (.store slot v))
    (hv : fr.Holds v x) (hs : slot.index < fr.slots.size)
    (h : Simulates K a (rest calls f s source m.block (m.index + 1) (fr.putSlot slot x))) :
    Simulates K a (rest calls f s source m.block m.index fr) := by
  refine simulates_inst hi (fun fuel label => ?_) h
  simp only [runInst, get_of_holds hv, pure_bind, setSlot_of_lt hs]

/-- A call. -/
theorem simulates_call {callee : String} {vs : List ValueId} {xs : List Float}
    {k : Float → Run Float} (hd : f.Defines m (.call · callee vs)) (hf : fr.Fits f)
    (hvs : List.Forall₂ fr.Holds vs xs)
    (hc : Simulates K (call callee xs) fun fuel => calls fuel callee xs)
    (h : ∀ x fr', Kept m fr fr' → fr'.Holds m.fresh x →
      Simulates K (k x) (rest calls f s source m.block (m.index + 1) fr')) :
    Simulates K (call callee xs >>= k) (rest calls f s source m.block m.index fr) := by
  have hlt : m.fresh.index < fr.values.size := hf.values ▸ hd.value
  have he : rest calls f s source m.block m.index fr = fun fuel => calls fuel callee xs >>=
      fun x => rest calls f s source m.block (m.index + 1) (fr.put m.fresh x) fuel := by
    funext fuel
    obtain ⟨label, he⟩ := runFrom_inst hd.inst fr
    apply he.trans
    simp only [runInst, getAll_of_holds hvs, pure_bind, set_of_lt hlt, bind_assoc]
    rfl
  rw [he]
  exact hc.bind fun x => h x _ (kept_put (Nat.le_refl _) fr x) (holds_put hlt x)

end Steps

section Expressions

variable {K : Nat} {call : Caller} {calls : Nat → Caller} {f : Func}

/-- Running through the code of the expression, and going on with its value, does what evaluating the
expression and going on with its value does. -/
def Follows (K : Nat) (call : Caller) (calls : Nat → Caller) (f : Func) (e : Expr) : Prop :=
  ∀ {σ m v m'}, Coded f σ e m v m' → ∀ {env s source fr} {k : Float → Run Float},
    fr.Fits f → Agrees σ env m.slots fr →
    (∀ x t source' fr', s ≤ t → Kept m fr fr' → fr'.Holds v x →
      Simulates K (k x) (rest calls f t source' m'.block m'.index fr')) →
    Simulates K (e.eval call K env >>= k) (rest calls f s source m.block m.index fr)

variable {e l r c y n : Expr}

theorem follows_number (x : Float) : Follows K call calls f (.number x) := by
  intro σ m v m' h env s source fr k hf _ next
  cases h with
  | number hd =>
  simp only [Expr.eval, pure_bind]
  refine simulates_define hd hf (fun _ _ => rfl) fun fr' hk hv => ?_
  exact next x s _ fr' (Nat.le_refl s) hk hv

theorem follows_name (x : String) : Follows K call calls f (.variable x) := by
  intro σ m v m' h env s source fr k hf ha next
  cases h with
  | name hx hd =>
  obtain ⟨-, y, hy, hs⟩ := ha x _ hx
  simp only [Expr.eval, hy, pure_bind]
  refine simulates_define hd hf (x := y) (fun _ _ => ?_) fun fr' hk hv => ?_
  · simp only [runInst, getSlot_of_eq hs, pure_bind]
  · exact next y s _ fr' (Nat.le_refl s) hk hv

/-- A binary operation does what its operator means: arithmetic if it is built in, else a call. -/
theorem follows_operation (hc : ∀ name xs, Simulates K (call name xs) fun fuel => calls fuel name xs)
    {op : Char} {m : Mark} {v w : ValueId} {x y : Float} {fr : Frame} {s : Nat}
    {source : Option BlockId} {k : Float → Run Float} (hd : f.Defines m (operation op · v w))
    (hf : fr.Fits f) (hv : fr.Holds v x) (hw : fr.Holds w y)
    (next : ∀ z fr', Kept m fr fr' → fr'.Holds m.fresh z →
      Simulates K (k z) (rest calls f s source m.block (m.index + 1) fr')) :
    Simulates K (Expr.operate call op x y >>= k) (rest calls f s source m.block m.index fr) := by
  have builtIn : ∀ {z : Float}, Expr.operate call op x y = pure z →
      (∀ fuel label, runInst (calls fuel) f source label fr (operation op m.fresh v w) =
        fr.set m.fresh z) →
      Simulates K (Expr.operate call op x y >>= k) (rest calls f s source m.block m.index fr) := by
    intro z ho hr
    rw [ho, pure_bind]
    exact simulates_define hd hf hr fun fr' hk hz => next z fr' hk hz
  by_cases h₁ : op = '+'
  · subst h₁
    apply builtIn rfl
    intro _ _
    simp only [operation, runInst, get_of_holds hv, get_of_holds hw, pure_bind, Arith.eval]
  by_cases h₂ : op = '-'
  · subst h₂
    apply builtIn rfl
    intro _ _
    simp only [operation, runInst, get_of_holds hv, get_of_holds hw, pure_bind, Arith.eval]
  by_cases h₃ : op = '*'
  · subst h₃
    apply builtIn rfl
    intro _ _
    simp only [operation, runInst, get_of_holds hv, get_of_holds hw, pure_bind, Arith.eval]
  by_cases h₄ : op = '<'
  · subst h₄
    apply builtIn rfl
    intro _ _
    simp only [operation, runInst, get_of_holds hv, get_of_holds hw, pure_bind]
  · simp only [operation_of_ne h₁ h₂ h₃ h₄] at hd
    simp only [Expr.operate_of_ne h₁ h₂ h₃ h₄]
    exact simulates_call hd hf (.cons hv (.cons hw .nil)) (hc _ _) next

/-- One of the branches is evaluated and one is run, and it is the same one. -/
theorem follows_conditional (ihc : Follows K call calls f c) (ihy : Follows K call calls f y)
    (ihn : Follows K call calls f n) : Follows K call calls f (.conditional c y n) := by
  intro σ m v m' h env s source fr k hf ha next
  cases h with
  | @conditional _ _ m₁ m₂ m₃ _ _ _ vc v₁ v₂ yes no join hc hd ht hy hyEnd hn hnEnd hne hphi =>
  have bc := hc.bounds
  have by_ := hy.bounds
  have bn := hn.bounds
  simp only [Mark.define, Mark.enter] at by_ bn
  simp only [Expr.eval, bind_assoc]
  -- the join, entered from the end of either branch
  have joined : ∀ {x w t from_ fr'}, s ≤ t → Kept m fr fr' → fr'.Holds w x →
      edgeFrom (some from_) [(v₁, m₂.block), (v₂, m₃.block)] = some (w, from_) →
      Simulates K (k x) (restAt calls f t (some from_) join fr') := by
    intro x w t from_ fr' hst hk hw he
    refine simulates_enter (simulates_define hphi (hk.fits hf) (x := x) (fun _ _ => ?_)
      fun fr₁ hk₁ hx => ?_)
    · simp only [runInst, he, get_of_holds hw, pure_bind]
    · refine next x (t + 1) _ fr₁ (by omega) (hk.trans hk₁ ?_ ?_) hx
      · simp only [Mark.enter]
        omega
      · simp only [Mark.enter]
        omega
  apply ihc hc hf ha
  intro x t source₁ fr₁ hst hk₁ hx
  refine simulates_define hd (hk₁.fits hf) (x := truthOf x) (fun _ _ => ?_) fun fr₂ hk₂ hv₂ => ?_
  · simp only [runInst, get_of_holds hx, pure_bind]
  apply simulates_select ht hv₂
  have hk := hk₁.trans hk₂ bc.1 bc.2.1
  cases isTruth x with
  | true =>
    refine simulates_enter (ihy hy (hk.fits hf) (ha.kept hk bc.2.1) ?_)
    intro z t' source₃ fr₃ hst' hk₃ hz
    refine simulates_branch hyEnd (joined (by omega) (hk.trans hk₃ ?_ bc.2.1) hz ?_)
    · simp only [Mark.define, Mark.enter]
      omega
    · simp [edgeFrom]
  | false =>
    refine simulates_enter (ihn hn (hk.fits hf) (ha.kept hk (by simp only [Mark.enter]; omega)) ?_)
    intro z t' source₃ fr₃ hst' hk₃ hz
    refine simulates_branch hnEnd (joined (by omega) (hk.trans hk₃ ?_ ?_) hz ?_)
    · simp only [Mark.enter]
      omega
    · simp only [Mark.enter]
      omega
    · simp [edgeFrom, hne]

/-- By induction on the turns that are left: each one visits the block of the loop once more. -/
theorem follows_loop (hc : ∀ name xs, Simulates K (call name xs) fun fuel => calls fuel name xs)
    {var : String} {start goOn body : Expr} {step : Option Expr}
    (ihs : Follows K call calls f start) (ihg : Follows K call calls f goOn)
    (iht : Follows K call calls f (.stepOrOne step)) (ihb : Follows K call calls f body) :
    Follows K call calls f (.loop var start goOn step body) := by
  intro σ m v m' h env s source fr k hf ha next
  cases h with
  | @loop _ _ m₁ m₂ m₃ m₄ _ _ _ _ _ v₁ b g c top after hslot hs hstore hbranch hb ht hload hadd hnext
    hg htruth hselect hzero =>
  have bs := hs.bounds
  have bb := hb.bounds
  have bt := ht.bounds
  have bg := hg.bounds
  simp only [Mark.define, Mark.enter, Mark.allot, Mark.next] at bs bb bt bg
  simp only [Expr.eval, Expr.evalStep_eq, bind_assoc, pure_bind]
  have fresh : m.freshSlot.index = m.slots := rfl
  -- the turns that are left, with the variable in its slot
  have turns : ∀ n {t source' fr' x}, K ≤ n + t → s ≤ t → Kept m fr fr' →
      fr'.slots[m.freshSlot.index]? = some x →
      Simulates K (Expr.turns (fun x => do
        let _ ← body.eval call K (env.insert var x)
        let growth ← (Expr.stepOrOne step).eval call K (env.insert var x)
        let again ← goOn.eval call K (env.insert var (x + growth))
        pure (x + growth, isTruth again)) n x >>= fun _ => k 0.0)
        (restAt calls f t source' top fr') := by
    intro n
    induction n with
    | zero =>
      intro t source' fr' x hK _ _ _
      refine Simulates.cut (s := t) (fun fuel => ?_) (fun fuel hfuel => ?_) (by omega)
      · exact grows_runBlocks (fun name xs => (hc name xs).grows fuel) _ _ _ _
      · rw [restAt, Nat.sub_eq_zero_of_le hfuel]
        rfl
    | succ n ih =>
      intro t source' fr' x hK hst hk hx
      have agrees : ∀ {y fr₁}, Kept m fr fr₁ → fr₁.slots[m.freshSlot.index]? = some y →
          Agrees (σ.insert var m.freshSlot) (env.insert var y) m₁.slots fr₁ := fun hk₁ hy =>
        (ha.kept hk₁ (Nat.le_refl _)).insert (Nat.le_of_eq fresh.symm) (by omega) hy var
      simp only [Expr.turns, bind_assoc, pure_bind]
      refine simulates_enter (ihb hb (hk.fits hf) (agrees hk hx) ?_)
      intro _ t₁ source₁ fr₁ ht₁ hk₁ _
      have k₁ : Kept m fr fr₁ := hk.trans hk₁ (by simp only [Mark.enter]; omega)
        (by simp only [Mark.enter]; omega)
      have x₁ : fr₁.slots[m.freshSlot.index]? = some x :=
        (hk₁.slot _ (by simp only [Mark.enter]; omega)).trans hx
      apply iht ht (k₁.fits hf) ((agrees k₁ x₁).mono (by omega))
      intro growth t₂ source₂ fr₂ ht₂ hk₂ hgrowth
      have k₂ : Kept m fr fr₂ := k₁.trans hk₂ (by omega) (by omega)
      have x₂ : fr₂.slots[m.freshSlot.index]? = some x := (hk₂.slot _ (by omega)).trans x₁
      refine simulates_define hload (k₂.fits hf) (x := x) (fun _ _ => ?_) fun fr₃ hk₃ hx₃ => ?_
      · simp only [runInst, getSlot_of_eq x₂, pure_bind]
      have k₃ : Kept m fr fr₃ := k₂.trans hk₃ (by omega) (by omega)
      refine simulates_define (m := m₃.define) hadd (k₃.fits hf) (x := x + growth) (fun _ _ => ?_)
        fun fr₄ hk₄ hx₄ => ?_
      · simp only [runInst, get_of_holds hx₃, get_of_holds (hk₃.holds hgrowth bt.2.2), pure_bind]
        rfl
      have k₄ : Kept m fr fr₄ := k₃.trans hk₄ (by simp only [Mark.define]; omega)
        (by simp only [Mark.define]; omega)
      have inSlots : m.freshSlot.index < fr₄.slots.size := (k₄.fits hf).slots ▸ hslot
      apply simulates_store (m := m₃.define.define) hnext hx₄ inSlots
      have k₅ := k₄.trans (kept_putSlot (Nat.le_of_eq fresh.symm) fr₄ (x + growth))
        (Nat.le_refl _) (Nat.le_refl _)
      have x₅ := slot_putSlot inSlots (x + growth)
      apply ihg hg (k₅.fits hf) ((agrees k₅ x₅).mono (by simp only [Mark.define, Mark.next]; omega))
      intro again t₆ source₆ fr₆ ht₆ hk₆ hagain
      have k₆ : Kept m fr fr₆ := k₅.trans hk₆ (by simp only [Mark.define, Mark.next]; omega)
        (by simp only [Mark.define, Mark.next]; omega)
      have x₆ : fr₆.slots[m.freshSlot.index]? = some (x + growth) :=
        (hk₆.slot _ (by simp only [Mark.define, Mark.next]; omega)).trans x₅
      refine simulates_define htruth (k₆.fits hf) (x := truthOf again) (fun _ _ => ?_)
        fun fr₇ hk₇ hx₇ => ?_
      · simp only [runInst, get_of_holds hagain, pure_bind]
      have k₇ : Kept m fr fr₇ := k₆.trans hk₇ (by omega) (by omega)
      apply simulates_select hselect hx₇
      cases isTruth again with
      | true =>
        exact ih (by omega) (by omega) k₇ ((hk₇.slot _ (by omega)).trans x₆)
      | false =>
        simp only [Bool.false_eq_true, if_false, pure_bind]
        refine simulates_enter (simulates_define hzero (k₇.fits hf) (fun _ _ => rfl) ?_)
        intro fr₈ hk₈ hx₈
        refine next 0.0 _ _ fr₈ (by omega) (k₇.trans hk₈ ?_ ?_) hx₈
        · simp only [Mark.define, Mark.enter]
          omega
        · simp only [Mark.define, Mark.enter]
          omega
  apply ihs hs hf (ha.mono (by simp only [Mark.allot]; omega))
  intro first t source₁ fr₁ ht₁ hk₁ hfirst
  have k₁ : Kept m fr fr₁ := (Kept.refl m fr).trans hk₁ (Nat.le_refl _)
    (by simp only [Mark.allot]; omega)
  have inSlots : m.freshSlot.index < fr₁.slots.size := (k₁.fits hf).slots ▸ hslot
  refine simulates_store hstore hfirst inSlots (simulates_branch hbranch ?_)
  exact turns K (by omega) ht₁
    (k₁.trans (kept_putSlot (Nat.le_of_eq fresh.symm) fr₁ first) (Nat.le_refl _) (Nat.le_refl _))
    (slot_putSlot inSlots first)

/-- Arguments are evaluated from left to right, and their values stay until all of them are there.
-/
theorem follows_expressions {es : List Expr} (ih : ∀ e ∈ es, Follows K call calls f e) :
    ∀ {σ m vs m'}, CodedAll f σ es m vs m' → ∀ {env s source fr} {k : List Float → Run Float},
      fr.Fits f → Agrees σ env m.slots fr →
      (∀ xs t source' fr', s ≤ t → Kept m fr fr' → List.Forall₂ fr'.Holds vs xs →
        Simulates K (k xs) (rest calls f t source' m'.block m'.index fr')) →
      Simulates K (Expr.evalAll call K env es >>= k)
        (rest calls f s source m.block m.index fr) := by
  induction es with
  | nil =>
    intro σ m vs m' h env s source fr k hf ha next
    cases h
    simp only [Expr.evalAll, pure_bind]
    exact next [] s _ fr (Nat.le_refl s) (.refl m fr) .nil
  | cons e es ihs =>
    intro σ m vs m' h env s source fr k hf ha next
    cases h with
    | @cons _ _ m₁ _ _ _ v vs he hes =>
    have be := he.bounds
    simp only [Expr.evalAll, bind_assoc, pure_bind]
    apply ih e (by simp) he hf ha
    intro x t source₁ fr₁ ht₁ hk₁ hx
    refine ihs (fun e he => ih e (List.mem_cons_of_mem _ he)) hes (hk₁.fits hf)
      (ha.kept hk₁ be.2.1) fun xs t' source₂ fr₂ ht₂ hk₂ hxs => ?_
    exact next (x :: xs) t' _ fr₂ (by omega) (hk₁.trans hk₂ be.1 be.2.1)
      (.cons (hk₂.holds hx be.2.2) hxs)

/-- The code of an expression does what the expression means. -/
theorem follows_coded (hc : ∀ name xs, Simulates K (call name xs) fun fuel => calls fuel name xs)
    (f : Func) (e : Expr) : Follows K call calls f e := by
  induction e using Expr.induct with
  | number x => exact follows_number x
  | name x => exact follows_name x
  | unary op e ih =>
    intro σ m v m' h env s source fr k hf ha next
    cases h with
    | unary he hd =>
    have be := he.bounds
    simp only [Expr.eval, bind_assoc]
    apply ih he hf ha
    intro x t source₁ fr₁ ht₁ hk₁ hx
    apply simulates_call hd (hk₁.fits hf) (.cons hx .nil) (hc _ _)
    intro z fr₂ hk₂ hz
    exact next z t _ fr₂ ht₁ (hk₁.trans hk₂ be.1 be.2.1) hz
  | binary op l r ihl ihr =>
    intro σ m v m' h env s source fr k hf ha next
    cases h with
    | binary hl hr hd =>
    have bl := hl.bounds
    have br := hr.bounds
    simp only [Expr.eval, bind_assoc]
    apply ihl hl hf ha
    intro x t source₁ fr₁ ht₁ hk₁ hx
    apply ihr hr (hk₁.fits hf) (ha.kept hk₁ bl.2.1)
    intro y t' source₂ fr₂ ht₂ hk₂ hy
    have hk := hk₁.trans hk₂ bl.1 bl.2.1
    apply follows_operation hc hd (hk.fits hf) (hk₂.holds hx bl.2.2) hy
    intro z fr₃ hk₃ hz
    exact next z t' _ fr₃ (by omega) (hk.trans hk₃ (by omega) (by omega)) hz
  | conditional c y n ihc ihy ihn => exact follows_conditional ihc ihy ihn
  | loop var start goOn step body ihs ihg iht ihb => exact follows_loop hc ihs ihg iht ihb
  | call callee args ih =>
    intro σ m v m' h env s source fr k hf ha next
    cases h with
    | call hargs hd =>
    have bargs := codedAll_bounds (fun _ _ => Coded.bounds) hargs
    simp only [Expr.eval, bind_assoc]
    apply follows_expressions ih hargs hf ha
    intro xs t source₁ fr₁ ht₁ hk₁ hxs
    apply simulates_call hd (hk₁.fits hf) hxs (hc _ _)
    intro z fr₂ hk₂ hz
    exact next z t _ fr₂ ht₁ (hk₁.trans hk₂ bargs.1 bargs.2.1) hz

end Expressions

section Bodies

variable {K : Nat} {call : Caller} {calls : Nat → Caller} {f : Func} {a : Run Float}

/-- The parameters go to their slots, one after another. -/
theorem simulates_parameters (params : List String) :
    ∀ {xs n σ env s source fr}, params.length = xs.length → n + params.length ≤ fr.slots.size →
      (∀ j < params.length, f.InstAt ⟨0⟩ (n + j) (.store ⟨n + j⟩ ⟨n + j⟩)) →
      (∀ j < params.length, fr.values[n + j]? = xs[j]?) → Agrees σ env n fr →
      (∀ fr', fr'.values.size = fr.values.size → fr'.slots.size = fr.slots.size →
        Agrees (.ofParams σ n params) (.bind env params xs) (n + params.length) fr' →
        Simulates K a (rest calls f s source ⟨0⟩ (n + params.length) fr')) →
      Simulates K a (rest calls f s source ⟨0⟩ n fr) := by
  induction params with
  | nil =>
    intro xs n σ env s source fr _ _ _ _ ha next
    cases xs <;> exact next fr rfl rfl ha
  | cons p ps ih =>
    intro xs n σ env s source fr hl hn stores values ha next
    cases xs with
    | nil => simp at hl
    | cons x xs =>
      simp only [List.length_cons] at hl hn stores values next
      have hx : fr.Holds ⟨n⟩ x := values 0 (by omega)
      have inSlots : (⟨n⟩ : SlotId).index < fr.slots.size := by
        show n < _
        omega
      have store : f.InstAt ⟨0⟩ n (.store ⟨n⟩ ⟨n⟩) := stores 0 (by omega)
      apply simulates_store (m := ⟨⟨0⟩, n, 0, n⟩) store hx inSlots
      have kept : Kept ⟨⟨0⟩, n, 0, n⟩ fr (fr.putSlot ⟨n⟩ x) := kept_putSlot (Nat.le_refl n) fr x
      -- the parameter is bound now, and its slot is one that nothing else uses
      have agrees : Agrees (σ.insert p ⟨n⟩) (env.insert p x) (n + 1) (fr.putSlot ⟨n⟩ x) :=
        (ha.kept kept (Nat.le_refl n)).insert (Nat.le_refl n) (Nat.lt_succ_self n)
          (slot_putSlot inSlots x) p
      have lengths : ps.length = xs.length := by omega
      show Simulates K a (rest calls f s source ⟨0⟩ (n + 1) (fr.putSlot ⟨n⟩ x))
      refine ih lengths (by rw [kept.slots]; omega) (fun j hj => ?_) (fun j hj => ?_) agrees
        fun fr' hv hs ha' => ?_
      · have := stores (j + 1) (by omega)
        rwa [show n + (j + 1) = n + 1 + j by omega] at this
      · have := values (j + 1) (by omega)
        rwa [show n + (j + 1) = n + 1 + j by omega] at this
      · rw [show n + 1 + ps.length = n + (ps.length + 1) by omega] at ha' ⊢
        exact next fr' (hv.trans kept.values) (hs.trans kept.slots) ha'

/-- **Lowered code is correct.** A function that holds the code of a definition does on every list of
arguments what the body means under the bindings of the parameters. -/
theorem Bodied.simulates {d : Definition} (h : Bodied f d)
    (hc : ∀ name xs, Simulates K (call name xs) fun fuel => calls fuel name xs) {args : List Float}
    (ha : args.length = d.proto.arity) :
    Simulates K (d.body.eval call K (.bind ∅ d.proto.params args))
      fun fuel => runFunc (calls fuel) fuel f args := by
  obtain ⟨v, m, hbody, hret⟩ := h.body
  have inTable : args.length ≤ f.values.size := ha ▸ h.values
  let fr : Frame := {
    values := args.toArray ++ Array.replicate (f.values.size - args.length) 0.0
    slots := Array.replicate f.slots.size 0.0 }
  have fits : fr.Fits f := ⟨by simp [fr]; omega, by simp [fr]⟩
  have enter : (fun fuel => runFunc (calls fuel) fuel f args) = restAt calls f 0 none ⟨0⟩ fr := by
    funext fuel
    simp only [runFunc, Frame.enter?, if_pos inTable, restAt, Nat.sub_zero]
    rfl
  have empty : Agrees ∅ ∅ 0 fr := by
    intro name slot hs
    simp at hs
  rw [enter, ← bind_pure (Expr.eval _ _ _ _)]
  refine simulates_enter (simulates_parameters (n := 0) d.proto.params ha.symm ?_
    (fun j hj => ?_) (fun j hj => ?_) empty fun fr' hv hs agrees => ?_)
  · rw [fits.slots, Nat.zero_add]
    exact h.slots
  · rw [Nat.zero_add]
    exact h.stores j hj
  · have : j < args.length := ha ▸ hj
    rw [Nat.zero_add, List.getElem?_eq_getElem this]
    show (args.toArray ++ _)[j]? = _
    rw [Array.getElem?_append_left (by simpa using this)]
    simp [this]
  · simp only [Nat.zero_add] at agrees ⊢
    show Simulates K _ (rest calls f 1 none ⟨0⟩ d.proto.arity fr')
    apply follows_coded hc f d.body hbody ⟨hv.trans fits.values, hs.trans fits.slots⟩ agrees
    exact fun x t source fr₁ _ _ hx => simulates_ret hret hx

end Bodies

end Kaleidoscope
