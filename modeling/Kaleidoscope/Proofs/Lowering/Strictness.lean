import Kaleidoscope.Proofs.Lowering.Coded
import Kaleidoscope.Proofs.Ssa.Definitions

/-!
# Code defines its values before it uses them

Whoever walks into the code of an expression comes out of it with its value defined, and has read
nothing on the way that was not defined. The walk may be cut off anywhere, so that a loop is no
obstacle: every turn leaves less of it.
-/

namespace Kaleidoscope

open Ssa

/-- Walking through the code of the expression is safe if going on behind it is. -/
def Strict (f : Func) (e : Expr) : Prop :=
  ∀ {σ m v m'}, Coded f σ e m v m' → ∀ {n defined source},
    (∀ l ≤ n, ∀ defined' source', (∀ w ∈ defined, w ∈ defined') → v ∈ defined' →
      f.SafeFrom l defined' source' m'.block m'.index) →
    f.SafeFrom n defined source m.block m.index

section Steps

variable {f : Func} {n : Nat} {defined : List ValueId} {source : Option BlockId} {m : Mark}

/-- An instruction that defines a value. -/
theorem safeFrom_define {inst : ValueId → Inst} (hd : f.Defines m inst)
    (ht : (inst m.fresh).target = some m.fresh)
    (hr : ∀ v ∈ (inst m.fresh).reads source, v ∈ defined)
    (h : ∀ defined', (∀ w ∈ defined, w ∈ defined') → m.fresh ∈ defined' →
      f.SafeFrom n defined' source m.block (m.index + 1)) :
    f.SafeFrom n defined source m.block m.index := by
  refine Func.safeFrom_inst hd.inst hr (h _ (fun w hw => List.mem_append_left _ hw) ?_)
  simp [ht]

/-- An instruction that writes a slot. -/
theorem safeFrom_store {slot : SlotId} {v : ValueId}
    (hi : f.InstAt m.block m.index (.store slot v)) (hv : v ∈ defined)
    (h : f.SafeFrom n defined source m.block (m.index + 1)) :
    f.SafeFrom n defined source m.block m.index := by
  apply Func.safeFrom_inst hi (by simpa [Inst.reads, Inst.operands] using hv)
  simpa [Inst.target] using h

end Steps

section Forms

variable {f : Func} {e l r c y n : Expr}

/-- Whichever branch is walked through, its value is defined at the join, and the other one is not
read. -/
theorem strict_conditional (ihc : Strict f c) (ihy : Strict f y) (ihn : Strict f n) :
    Strict f (.conditional c y n) := by
  intro σ m v m' h k defined source rest
  cases h with
  | @conditional _ _ m₁ m₂ m₃ _ _ _ vc v₁ v₂ yes no join hc hd ht hy hyEnd hn hnEnd hne hphi =>
  have joined : ∀ l ≤ k, ∀ defined' source' w, (∀ u ∈ defined, u ∈ defined') → w ∈ defined' →
      (Inst.phi m₃.fresh [(v₁, m₂.block), (v₂, m₃.block)]).reads source' = [w] →
      f.SafeFrom l defined' source' join 0 := by
    intro l hl defined' source' w hs hw hr
    refine safeFrom_define hphi rfl (fun u hu => ?_) fun defined'' hs' hv => ?_
    · have he : u = w := List.mem_singleton.1 (hr ▸ hu)
      exact he ▸ hw
    · exact rest l hl defined'' _ (fun u hu => hs' u (hs u hu)) hv
  refine ihc hc fun l hl D s hD hv => safeFrom_define hd rfl ?_ fun D hD' hf => ?_
  · simpa [Inst.reads, Inst.operands] using hv
  have sub : ∀ u ∈ defined, u ∈ D := fun u hu => hD' u (hD u hu)
  apply Func.safeFrom_end ht (by simpa [Terminator.operand] using hf)
  intro l' hl' next hnext
  simp only [Terminator.successors, List.mem_cons, List.not_mem_nil, or_false] at hnext
  rcases hnext with rfl | rfl
  · refine ihy hy fun l₂ hl₂ D₂ s₂ hD₂ hv₂ => Func.safeFrom_end hyEnd (by simp [Terminator.operand]) ?_
    intro l₃ hl₃ next hnext
    obtain rfl : next = join := by simpa [Terminator.successors] using hnext
    refine joined l₃ (by omega) D₂ _ v₁ (fun u hu => hD₂ u (sub u hu)) hv₂ ?_
    simp [Inst.reads, Engine.edgeFrom]
  · refine ihn hn fun l₂ hl₂ D₂ s₂ hD₂ hv₂ => Func.safeFrom_end hnEnd (by simp [Terminator.operand]) ?_
    intro l₃ hl₃ next hnext
    obtain rfl : next = join := by simpa [Terminator.successors] using hnext
    refine joined l₃ (by omega) D₂ _ v₂ (fun u hu => hD₂ u (sub u hu)) hv₂ ?_
    simp [Inst.reads, Engine.edgeFrom, hne]

/-- By induction on how far the walk may go: every turn uses up some of it. -/
theorem strict_loop {var : String} {start goOn body : Expr} {step : Option Expr}
    (ihs : Strict f start) (ihg : Strict f goOn) (iht : Strict f (.stepOrOne step))
    (ihb : Strict f body) : Strict f (.loop var start goOn step body) := by
  intro σ m v m' h k defined source rest
  cases h with
  | @loop _ _ m₁ m₂ m₃ m₄ _ _ _ _ _ v₁ b g c top after _ hs hstore hbranch hb ht hload hadd hnext
    hg htruth hselect hzero =>
  -- the turns, by induction on the length of the walk that is left
  have turns : ∀ l ≤ k, ∀ D s, (∀ u ∈ defined, u ∈ D) → f.SafeFrom l D s top 0 := by
    intro l
    induction l using Nat.strongRecOn with
    | ind l ih =>
      intro hl D s hD
      refine ihb hb fun l₁ hl₁ D₁ s₁ hD₁ _ => iht ht fun l₂ hl₂ D₂ s₂ hD₂ hv₂ => ?_
      apply safeFrom_define hload rfl (by simp [Inst.reads, Inst.operands])
      intro D₃ hD₃ hv₃
      refine safeFrom_define (m := m₃.define) hadd rfl ?_ fun D₄ hD₄ hv₄ => ?_
      · simp only [Inst.reads, Inst.operands, List.mem_cons, List.not_mem_nil, or_false]
        rintro u (rfl | rfl)
        · exact hv₃
        · exact hD₃ _ hv₂
      apply safeFrom_store (m := m₃.define.define) hnext hv₄
      refine ihg hg fun l₅ hl₅ D₅ s₅ hD₅ hv₅ => safeFrom_define htruth rfl ?_ fun D₆ hD₆ hv₆ => ?_
      · simpa [Inst.reads, Inst.operands] using hv₅
      have sub : ∀ u ∈ defined, u ∈ D₆ :=
        fun u hu => hD₆ u (hD₅ u (hD₄ u (hD₃ u (hD₂ u (hD₁ u (hD u hu))))))
      apply Func.safeFrom_end hselect (by simpa [Terminator.operand] using hv₆)
      intro l₇ hl₇ next hnext
      simp only [Terminator.successors, List.mem_cons, List.not_mem_nil, or_false] at hnext
      rcases hnext with rfl | rfl
      · exact ih l₇ (by omega) (by omega) D₆ _ sub
      · apply safeFrom_define hzero rfl (by simp [Inst.reads, Inst.operands])
        intro D₈ hD₈ hv₈
        exact rest l₇ (by omega) D₈ _ (fun u hu => hD₈ u (sub u hu)) hv₈
  refine ihs hs fun l hl D s hD hv => safeFrom_store hstore hv ?_
  apply Func.safeFrom_end hbranch (by simp [Terminator.operand])
  intro l' hl' next hnext
  obtain rfl : next = top := by simpa [Terminator.successors] using hnext
  exact turns l' (by omega) D _ hD

/-- The values of arguments stay defined while the others are walked through. -/
theorem strict_expressions {es : List Expr} (ih : ∀ e ∈ es, Strict f e) :
    ∀ {σ m vs m'}, CodedAll f σ es m vs m' → ∀ {n defined source},
      (∀ l ≤ n, ∀ defined' source', (∀ w ∈ defined, w ∈ defined') → (∀ v ∈ vs, v ∈ defined') →
        f.SafeFrom l defined' source' m'.block m'.index) →
      f.SafeFrom n defined source m.block m.index := by
  induction es with
  | nil =>
    intro σ m vs m' h n defined source rest
    cases h
    exact rest n (Nat.le_refl n) defined source (fun _ hw => hw) (by simp)
  | cons e es ihs =>
    intro σ m vs m' h n defined source rest
    cases h with
    | cons he hes =>
      apply ih e (by simp) he
      intro l hl D s hD hv
      refine ihs (fun e he => ih e (List.mem_cons_of_mem _ he)) hes fun l' hl' D' s' hD' hvs => ?_
      refine rest l' (by omega) D' s' (fun u hu => hD' u (hD u hu)) ?_
      exact List.forall_mem_cons.2 ⟨hD' _ hv, hvs⟩

/-- The code of an expression is safe to walk through. -/
theorem strict_coded (f : Func) (e : Expr) : Strict f e := by
  induction e using Expr.induct with
  | number x =>
    intro σ m v m' h n defined source rest
    cases h with
    | number hd =>
    apply safeFrom_define hd rfl (by simp [Inst.reads, Inst.operands])
    exact fun D hD hv => rest n (Nat.le_refl n) D _ hD hv
  | name x =>
    intro σ m v m' h n defined source rest
    cases h with
    | name _ hd =>
    apply safeFrom_define hd rfl (by simp [Inst.reads, Inst.operands])
    exact fun D hD hv => rest n (Nat.le_refl n) D _ hD hv
  | unary op e ih =>
    intro σ m v m' h n defined source rest
    cases h with
    | unary he hd =>
    refine ih he fun l hl D s hD hv => safeFrom_define hd rfl ?_ fun D' hD' hv' => ?_
    · simpa [Inst.reads, Inst.operands] using hv
    · exact rest l hl D' _ (fun u hu => hD' u (hD u hu)) hv'
  | binary op l r ihl ihr =>
    intro σ m v m' h n defined source rest
    cases h with
    | @binary _ _ _ m₂ _ _ _ v w hl hr hd =>
    refine ihl hl fun l hl D s hD hv => ihr hr fun l' hl' D' s' hD' hw => ?_
    obtain ⟨target, reads⟩ : (operation op m₂.fresh v w).target = some m₂.fresh ∧
        (operation op m₂.fresh v w).reads s' = [v, w] := by
      unfold operation
      split <;> exact ⟨rfl, rfl⟩
    refine safeFrom_define hd target ?_ fun D₂ hD₂ hv₂ => ?_
    · rw [reads]
      simpa using ⟨hD' v hv, hw⟩
    · exact rest l' (by omega) D₂ _ (fun u hu => hD₂ u (hD' u (hD u hu))) hv₂
  | conditional c y n ihc ihy ihn => exact strict_conditional ihc ihy ihn
  | loop var start goOn step body ihs ihg iht ihb => exact strict_loop ihs ihg iht ihb
  | call callee args ih =>
    intro σ m v m' h n defined source rest
    cases h with
    | call hargs hd =>
    apply strict_expressions ih hargs
    intro l hl D s hD hvs
    apply safeFrom_define hd rfl (by simpa [Inst.reads, Inst.operands] using hvs)
    exact fun D' hD' hv' => rest l hl D' _ (fun u hu => hD' u (hD u hu)) hv'

end Forms

/-- **Lowered code is strict.** A function that holds the code of a definition defines its values
before it uses them. -/
theorem Bodied.definesBeforeUse {f : Func} {d : Definition} (h : Bodied f d) :
    f.DefinesBeforeUse := by
  obtain ⟨v, m, hbody, hret⟩ := h.body
  apply Func.definesBeforeUse_of_safeFrom
  intro n
  -- the stores of the parameters, from the last to the first
  have stores : ∀ k ≤ d.proto.arity, f.SafeFrom n f.paramValues none ⟨0⟩ (d.proto.arity - k) := by
    intro k
    induction k with
    | zero =>
      intro _
      apply strict_coded f d.body hbody
      intro l _ D s _ hv
      exact Func.safeFrom_end hret (by simpa [Terminator.operand] using hv)
        (by simp [Terminator.successors])
    | succ k ih =>
      intro hk
      have next := ih (by omega)
      rw [show d.proto.arity - k = d.proto.arity - (k + 1) + 1 by omega] at next
      refine Func.safeFrom_inst (h.stores (d.proto.arity - (k + 1)) (by omega)) ?_ ?_
      · simp only [Inst.reads, Inst.operands, List.mem_singleton]
        rintro u rfl
        refine List.mem_map.2 ⟨_, List.mem_range.2 ?_, rfl⟩
        rw [h.arity]
        omega
      · simpa [Inst.target] using next
  have := stores d.proto.arity (Nat.le_refl _)
  rwa [Nat.sub_self] at this

end Kaleidoscope
