import Kaleidoscope.Proofs.Lowering.Building
import Kaleidoscope.Proofs.Lowering.Coded
import Kaleidoscope.Proofs.Lowering.Moves

/-!
# Emitting an expression leaves its code

`encodes_expression`: when emitting an expression succeeds, the function holds its code from the
place before to the place after, and goes on holding it however it is built further. There is one
lemma for each form that takes more than a few operations; the two that leave the current block keep
track of the blocks that are still empty.
-/

namespace Kaleidoscope

open Ssa

/-- Emitting went from one state to another, and what was built from one view to another. -/
structure Emits (id : FuncId) (st st' : Emitter) (w w' : View) : Prop where
  sees : Sees id st'.builder w'
  builds : Builds w w'
  scope : st'.scope = st.scope

namespace Emit

variable {registry : Registry} {id : FuncId} {st st₀ st₁ st₂ : Emitter} {w w₀ w₁ w₂ : View}
  {v : ValueId} {e : Expr} {name : String}

/-- Emitting the expression leaves its code. -/
def Encodes (registry : Registry) (id : FuncId) (e : Expr) : Prop :=
  ∀ {st st₁ v w}, expression registry id e st = .ok v st₁ → Sees id st.builder w →
    ∃ w₁, Emits id st st₁ w w₁ ∧ ∀ g, w₁.func.Extends g → Coded g st.scope e w.mark v w₁.mark

end Emit

theorem Emits.trans {id : FuncId} {st st₁ st₂ : Emitter} {w w₁ w₂ : View}
    (h : Emits id st st₁ w w₁) (h' : Emits id st₁ st₂ w₁ w₂) : Emits id st st₂ w w₂ :=
  ⟨h'.sees, h.builds.trans h'.builds, h'.scope.trans h.scope⟩

namespace Emit

variable {registry : Registry} {id : FuncId} {st st₀ st₁ st₂ : Emitter} {w w₀ w₁ w₂ : View}
  {v : ValueId} {e : Expr} {name : String}

section Operations

/-- A value is defined at the mark, and the mark moves behind its definition. -/
theorem emits_define {inst : ValueId → Inst} (h : build (Builder.define name inst) st = .ok v st₁)
    (hs : Sees id st.builder w) :
    v = w.mark.fresh ∧ ∃ w₁, Emits id st st₁ w w₁ ∧ w₁.mark = w.mark.define ∧
      w₁.func.Defines w.mark inst := by
  cases h
  obtain ⟨hv, w₁, hs₁, hb, hm, hd⟩ := builds_define hs name inst
  exact ⟨hv, w₁, ⟨hs₁, hb, rfl⟩, hm, hd⟩

theorem emits_store {slot : SlotId} {u : Unit}
    (h : change (Builder.store v slot) st = .ok u st₁) (hs : Sees id st.builder w) :
    ∃ w₁, Emits id st st₁ w w₁ ∧ w₁.mark = w.mark.next ∧
      w₁.func.InstAt w.mark.block w.mark.index (.store slot v) := by
  cases h
  obtain ⟨w₁, hs₁, hb, hm, hi⟩ := builds_emit hs (.store slot v)
  exact ⟨w₁, ⟨hs₁, hb, rfl⟩, hm, hi⟩

theorem emits_addSlot {slot : SlotId} (h : build (Builder.addSlot id name) st = .ok slot st₁)
    (hs : Sees id st.builder w) :
    slot = w.mark.freshSlot ∧ ∃ w₁, Emits id st st₁ w w₁ ∧ w₁.mark = w.mark.allot ∧
      w.mark.slots < w₁.func.slots.size := by
  cases h
  obtain ⟨hv, w₁, hs₁, hb, hm, hn⟩ := builds_addSlot hs name
  exact ⟨hv, w₁, ⟨hs₁, hb, rfl⟩, hm, hn⟩

/-- A block that is appended is the last one, and is open and empty. -/
theorem emits_appendBlock {place : Place}
    (h : build (Builder.appendBlock id name) st = .ok place st₁) (hs : Sees id st.builder w) :
    place = ⟨id, ⟨w.func.blocks.size⟩⟩ ∧ ∃ w₁, Emits id st st₁ w w₁ ∧ w₁.mark = w.mark ∧
      w₁.func.blocks.size = w.func.blocks.size + 1 ∧ w₁.Open ⟨w.func.blocks.size⟩ [] := by
  cases h
  obtain ⟨hv, w₁, hs₁, hb, hm, hn, ho⟩ := builds_appendBlock hs name
  exact ⟨hv, w₁, ⟨hs₁, hb, rfl⟩, hm, hn, ho⟩

/-- In a block that is still empty a join goes where any other instruction would. -/
theorem emits_phi {incoming : List (ValueId × Place)}
    (h : build (Builder.phi incoming name) st = .ok v st₁) (hs : Sees id st.builder w)
    (hn : w.insts = []) :
    v = w.mark.fresh ∧ ∃ w₁, Emits id st st₁ w w₁ ∧ w₁.mark = w.mark.define ∧
      w₁.func.Defines w.mark (.phi · (incoming.map fun edge => (edge.1, edge.2.block))) := by
  cases h
  obtain ⟨hv, w₁, hs₁, hb, hm, hd⟩ := builds_phi hs hn incoming name
  exact ⟨hv, w₁, ⟨hs₁, hb, rfl⟩, hm, hd⟩

/-- The current block ends, and code goes on in an empty one that the earlier view `w₀` does not
have. -/
theorem emits_jump {term : Terminator} {place : Place} {u u' : Unit} (he : Emits id st₀ st w₀ w)
    (h : change (Builder.terminate term) st = .ok u st₁)
    (h' : change (Builder.moveTo place) st₁ = .ok u' st₂) (hp : place.func = id)
    (ho : w.Open place.block []) (hk : place.block.index ≠ w.block.index)
    (hn : w₀.func.blocks.size ≤ place.block.index) :
    ∃ w₁, Emits id st₀ st₂ w₀ w₁ ∧ w₁.mark = w.mark.enter place.block ∧ w₁.insts = [] ∧
      w.func.Extends w₁.func ∧ w₁.func.EndsAt w.mark.block w.mark.index term ∧
      w₁.func.blocks.size = w.func.blocks.size ∧
      ∀ {k : BlockId}, k.index ≠ w.block.index → w.Open k [] → w₁.Open k [] := by
  cases h
  cases h'
  obtain ⟨f, k⟩ := place
  cases hp
  have ne : ∀ {j : BlockId}, j.index ≠ w.block.index → j ≠ w.block := mt BlockId.index_inj.2
  obtain ⟨w₁, hs, hb, hm, hi, hx, ht, hz, hopen⟩ := builds_jump he.sees he.builds term ho (ne hk) hn
  exact ⟨w₁, ⟨hs, hb, he.scope⟩, hm, hi, hx, ht, hz.symm, fun hj => hopen (ne hj)⟩

theorem leave_ok {dest place : Place} (h : leave dest st = .ok place st₁)
    (hs : Sees id st.builder w) :
    place = ⟨id, w.block⟩ ∧ change (Builder.terminate (.branch dest.block)) st = .ok () st₁ := by
  cases h
  exact ⟨hs.place, rfl⟩

/-- The function that is called is in the module, or is declared from the registry. -/
theorem callee?_ok {f : FuncId} (h : callee? registry name st = .ok (some f) st₁) :
    st.builder.find? name = some f ∧ st₁ = st ∨ ∃ proto, registry.get? name = some proto ∧
      f = (st.builder.declare proto.name proto.params).1 ∧
      st₁ = { st with builder := (st.builder.declare proto.name proto.params).2 } := by
  unfold callee? at h
  obtain ⟨b, st', hb, h⟩ := bind_eq_ok.1 h
  cases hb
  cases hf : st.builder.find? name with
  | some i =>
    simp only [hf] at h
    cases h
    exact .inl ⟨rfl, rfl⟩
  | none =>
    simp only [hf] at h
    cases hp : registry.get? name with
    | none =>
      simp only [hp] at h
      cases h
    | some proto =>
      simp only [hp] at h
      cases h
      exact .inr ⟨proto, rfl, rfl, rfl⟩

/-- The function that is called has the name that was called for. -/
theorem name_of_callee? (hr : registry.Named) {f : FuncId}
    (h : callee? registry name st = .ok (some f) st₁) :
    ∃ func, st₁.builder.func? f = some func ∧ func.name = name := by
  rcases callee?_ok h with ⟨hf, rfl⟩ | ⟨proto, hp, rfl, rfl⟩
  · exact find?_eq_some hf
  · obtain ⟨func, hfunc, hn⟩ := func?_declare st.builder proto.name proto.params
    exact ⟨func, hfunc, hn.trans (hr name proto hp)⟩

/-- Looking up a function, or declaring it, leaves the function under construction alone. -/
theorem emits_callee? {f : FuncId} (h : callee? registry name st = .ok (some f) st₁)
    (hs : Sees id st.builder w) : Emits id st st₁ w w := by
  rcases callee?_ok h with ⟨-, rfl⟩ | ⟨proto, -, -, rfl⟩
  · exact ⟨hs, .refl w, rfl⟩
  · exact ⟨sees_declare hs _ _, .refl w, rfl⟩

/-- What a call finds has the name and the number of parameters that were asked for. -/
theorem emits_calleeOf (hr : registry.Named) {f : FuncId} {given : Nat}
    (h : calleeOf registry name given st = .ok f st₁) (hs : Sees id st.builder w) :
    Emits id st st₁ w w ∧ ∃ func, st₁.builder.func? f = some func ∧ func.name = name ∧
      func.arity = given := by
  unfold calleeOf at h
  obtain ⟨o, st', ho, h⟩ := bind_eq_ok.1 h
  cases o with
  | none => cases h
  | some i =>
    have he := emits_callee? ho hs
    obtain ⟨func, hf, hn⟩ := name_of_callee? hr ho
    obtain ⟨b, st'', hb, h⟩ := bind_eq_ok.1 h
    cases hb
    split at h
    · next ha =>
      cases h
      refine ⟨he, func, hf, hn, ?_⟩
      simpa [Builder.arity, hf] using ha
    · cases h

theorem emits_call {f : FuncId} {func : Func} {args : List ValueId} {label : String}
    (h : build (Builder.call f args label) st = .ok v st₁) (hs : Sees id st.builder w)
    (hf : st.builder.func? f = some func) :
    v = w.mark.fresh ∧ ∃ w₁, Emits id st st₁ w w₁ ∧ w₁.mark = w.mark.define ∧
      w₁.func.Defines w.mark (.call · func.name args) :=
  emits_define (build_call hf args label ▸ h) hs

/-- Emitting an operator that is not built in is emitting a call of its function. -/
theorem emits_operator (hr : registry.Named) {unknown : Fault} {args : List ValueId}
    {label : String} (h : operator registry name unknown args label st = .ok v st₁)
    (hs : Sees id st.builder w) :
    v = w.mark.fresh ∧ ∃ w₁, Emits id st st₁ w w₁ ∧ w₁.mark = w.mark.define ∧
      w₁.func.Defines w.mark (.call · name args) := by
  unfold operator at h
  obtain ⟨o, st', ho, h⟩ := bind_eq_ok.1 h
  cases o with
  | none => cases h
  | some f =>
    have he := emits_callee? ho hs
    obtain ⟨func, hf, hn⟩ := name_of_callee? hr ho
    obtain ⟨hv, w₁, he₁, hm, hd⟩ := emits_call h he.sees hf
    exact ⟨hv, w₁, he.trans he₁, hm, hn ▸ hd⟩

/-- A binary operation is one instruction, be it built in or a call. -/
theorem emits_binary (hr : registry.Named) {op : Char} {lhs rhs : ValueId}
    (h : binary registry op lhs rhs st = .ok v st₁) (hs : Sees id st.builder w) :
    v = w.mark.fresh ∧ ∃ w₁, Emits id st st₁ w w₁ ∧ w₁.mark = w.mark.define ∧
      w₁.func.Defines w.mark (operation op · lhs rhs) := by
  unfold binary at h
  split at h
  · exact emits_define h hs
  · exact emits_define h hs
  · exact emits_define h hs
  · exact emits_define h hs
  · next h₁ h₂ h₃ h₄ =>
    simp only [operation_of_ne h₁ h₂ h₃ h₄]
    exact emits_operator hr h hs

end Operations

section Forms

theorem encodes_number (x : Float) : Encodes registry id (.number x) := by
  intro st st₁ v w h hs
  simp only [expression] at h
  obtain ⟨rfl, w₁, he, hm, hd⟩ := emits_define h hs
  exact ⟨w₁, he, fun g hg => hm ▸ .number (hg.defines hd)⟩

theorem encodes_name (x : String) : Encodes registry id (.variable x) := by
  intro st st₁ v w h hs
  simp only [expression] at h
  obtain ⟨slot, st', h₁, h⟩ := bind_eq_ok.1 h
  unfold slotOf at h₁
  split at h₁ <;> cases h₁
  next hx =>
  obtain ⟨rfl, w₁, he, hm, hd⟩ := emits_define h hs
  exact ⟨w₁, he, fun g hg => hm ▸ .name hx (hg.defines hd)⟩

/-- The operand comes first, and then the call. -/
theorem encodes_unary (hr : registry.Named) (op : Char) (ih : Encodes registry id e) :
    Encodes registry id (.unary op e) := by
  intro st st₂ v w h hs
  simp only [expression] at h
  obtain ⟨src, st₁, h₁, h⟩ := bind_eq_ok.1 h
  obtain ⟨w₁, e₁, c₁⟩ := ih h₁ hs
  obtain ⟨rfl, w₂, e₂, m₂, d₂⟩ := emits_operator hr h e₁.sees
  refine ⟨w₂, e₁.trans e₂, fun g hg => ?_⟩
  rw [m₂]
  exact .unary (c₁ g (e₂.builds.extend.trans hg)) (hg.defines d₂)

theorem encodes_binary (hr : registry.Named) (op : Char) {l r : Expr}
    (ihl : Encodes registry id l) (ihr : Encodes registry id r) :
    Encodes registry id (.binary op l r) := by
  intro st st₃ v w h hs
  simp only [expression] at h
  obtain ⟨lhs, st₁, h₁, h⟩ := bind_eq_ok.1 h
  obtain ⟨rhs, st₂, h₂, h⟩ := bind_eq_ok.1 h
  obtain ⟨w₁, e₁, c₁⟩ := ihl h₁ hs
  obtain ⟨w₂, e₂, c₂⟩ := ihr h₂ e₁.sees
  obtain ⟨rfl, w₃, e₃, m₃, d₃⟩ := emits_binary hr h e₂.sees
  refine ⟨w₃, (e₁.trans e₂).trans e₃, fun g hg => ?_⟩
  have hg₂ := e₃.builds.extend.trans hg
  rw [m₃]
  exact .binary (c₁ g (e₂.builds.extend.trans hg₂)) (e₁.scope ▸ c₂ g hg₂) (hg.defines d₃)

/-- The two branches and the join are appended before either branch is emitted, so they stay open
and empty while the code of the branches goes in between. -/
theorem encodes_conditional {c y n : Expr} (ihc : Encodes registry id c)
    (ihy : Encodes registry id y) (ihn : Encodes registry id n) :
    Encodes registry id (.conditional c y n) := by
  intro st st' v w h hs
  simp only [expression] at h
  obtain ⟨value, s₁, h₁, h⟩ := bind_eq_ok.1 h
  obtain ⟨truth, s₂, h₂, h⟩ := bind_eq_ok.1 h
  obtain ⟨yes, s₃, h₃, h⟩ := bind_eq_ok.1 h
  obtain ⟨no, s₄, h₄, h⟩ := bind_eq_ok.1 h
  obtain ⟨join, s₅, h₅, h⟩ := bind_eq_ok.1 h
  obtain ⟨_, t₅, hselect, h⟩ := bind_eq_ok.1 h
  obtain ⟨_, s₆, htoYes, h⟩ := bind_eq_ok.1 h
  obtain ⟨yesValue, s₇, h₇, h⟩ := bind_eq_ok.1 h
  obtain ⟨yesEnd, t₇, hleaveYes, h⟩ := bind_eq_ok.1 h
  obtain ⟨_, s₈, htoNo, h⟩ := bind_eq_ok.1 h
  obtain ⟨noValue, s₉, h₉, h⟩ := bind_eq_ok.1 h
  obtain ⟨noEnd, t₉, hleaveNo, h⟩ := bind_eq_ok.1 h
  obtain ⟨_, s₁₀, htoJoin, hphi⟩ := bind_eq_ok.1 h
  -- the condition, and three blocks that are empty so far
  obtain ⟨w₁, e₁, c₁⟩ := ihc h₁ hs
  obtain ⟨rfl, w₂, e₂, m₂, d₂⟩ := emits_define h₂ e₁.sees
  obtain ⟨rfl, w₃, e₃, m₃, n₃, yes₃⟩ := emits_appendBlock h₃ e₂.sees
  obtain ⟨rfl, w₄, e₄, m₄, n₄, no₄⟩ := emits_appendBlock h₄ e₃.sees
  obtain ⟨rfl, w₅, e₅, m₅, n₅, join₅⟩ := emits_appendBlock h₅ e₄.sees
  have b₃ : w₃.block = w₂.block := congrArg Mark.block m₃
  have b₄ : w₄.block = w₃.block := congrArg Mark.block m₄
  have b₅ : w₅.block = w₄.block := congrArg Mark.block m₅
  have hb := e₂.sees.bound
  have ne : ∀ {j k : BlockId}, j.index ≠ k.index → j ≠ k := mt BlockId.index_inj.2
  have yes₅ := e₅.builds.open (e₄.builds.open yes₃ (ne (by simp [b₃]; omega)))
    (ne (by simp [b₄, b₃]; omega))
  have no₅ := e₅.builds.open no₄ (ne (by simp [b₄, b₃]; omega))
  have e₀₂ := e₁.trans e₂
  have e₀₅ := ((e₀₂.trans e₃).trans e₄).trans e₅
  have size₀ := size_of_extends e₀₂.builds.extend
  -- the branch that is taken
  obtain ⟨w₆, e₀₆, m₆, -, x₆, t₆, n₆, open₆⟩ :=
    emits_jump e₀₅ hselect htoYes rfl yes₅ (by simp [b₅, b₄, b₃]; omega) (by simpa using size₀)
  have no₆ := open₆ (by simp [b₅, b₄, b₃]; omega) no₅
  have join₆ := open₆ (by simp [b₅, b₄, b₃]; omega) join₅
  have b₆ : w₆.block = ⟨w₂.func.blocks.size⟩ := congrArg Mark.block m₆
  obtain ⟨w₇, e₇, c₇⟩ := ihy h₇ e₀₆.sees
  have size₇ := size_of_extends e₇.builds.extend
  have in₇ : w₇.block.index = w₂.func.blocks.size ∨ w₂.func.blocks.size + 3 ≤ w₇.block.index := by
    rcases e₇.builds.stays with he | hl
    · exact .inl (by rw [he, b₆])
    · exact .inr (by omega)
  have no₇ := e₇.builds.open no₆ (ne (by simp [b₆]; omega))
  have join₇ := e₇.builds.open join₆ (ne (by simp [b₆]; omega))
  obtain ⟨rfl, hbranchYes⟩ := leave_ok hleaveYes e₇.sees
  have e₀₇ := e₀₆.trans e₇
  -- the other branch
  obtain ⟨w₈, e₀₈, m₈, -, x₈, t₈, n₈, open₈⟩ :=
    emits_jump e₀₇ hbranchYes htoNo rfl no₇ (by simp; omega) (by simp; omega)
  have join₈ := open₈ (by simp; omega) join₇
  have b₈ : w₈.block = ⟨w₃.func.blocks.size⟩ := congrArg Mark.block m₈
  obtain ⟨w₉, e₉, c₉⟩ := ihn h₉ e₀₈.sees
  have size₉ := size_of_extends e₉.builds.extend
  have bound₇ := e₇.sees.bound
  have in₉ : w₉.block.index = w₃.func.blocks.size ∨ w₇.func.blocks.size ≤ w₉.block.index := by
    rcases e₉.builds.stays with he | hl
    · exact .inl (by rw [he, b₈])
    · exact .inr (by omega)
  have join₉ := e₉.builds.open join₈ (ne (by simp [b₈]; omega))
  obtain ⟨rfl, hbranchNo⟩ := leave_ok hleaveNo e₉.sees
  -- the join
  obtain ⟨w₁₀, e₀₁₀, m₁₀, i₁₀, x₁₀, t₁₀, -, -⟩ :=
    emits_jump (e₀₈.trans e₉) hbranchNo htoJoin rfl join₉ (by simp; omega) (by simp; omega)
  obtain ⟨rfl, w₁₁, e₁₁, m₁₁, d₁₁⟩ := emits_phi hphi e₀₁₀.sees i₁₀
  refine ⟨w₁₁, e₀₁₀.trans e₁₁, fun g hg => ?_⟩
  have g₁₀ := e₁₁.builds.extend.trans hg
  have g₉ := x₁₀.trans g₁₀
  have g₈ := e₉.builds.extend.trans g₉
  have g₇ := x₈.trans g₈
  have g₆ := e₇.builds.extend.trans g₇
  have g₂ := ((e₃.builds.trans e₄.builds).trans e₅.builds).extend.trans (x₆.trans g₆)
  have mark₅ : w₅.mark = w₁.mark.define := by rw [m₅, m₄, m₃, m₂]
  rw [mark₅] at m₆ t₆
  have code₇ := c₇ g g₇
  have code₉ := c₉ g g₉
  rw [m₆, e₀₆.scope] at code₇
  rw [m₈, e₀₈.scope] at code₉
  rw [m₁₀] at m₁₁ d₁₁ ⊢
  rw [m₁₁]
  show Coded g st.scope (.conditional c y n) w.mark w₉.mark.fresh _
  refine .conditional (c₁ g (e₂.builds.extend.trans g₂)) (g₂.defines d₂) (g₆.endsAt t₆) code₇
    (g₈.endsAt t₈) code₉ (g₁₀.endsAt t₁₀) ?_ (hg.defines d₁₁)
  apply ne (j := w₇.block) (k := w₉.block)
  omega

/-- The loop enters its block from outside and from its own end, so its variable lives in a slot;
the slot is in scope for the turns and not for the start. -/
theorem encodes_loop {var : String} {start goOn body : Expr} {step : Option Expr}
    (ihs : Encodes registry id start) (ihg : Encodes registry id goOn)
    (iht : Encodes registry id (.stepOrOne step)) (ihb : Encodes registry id body) :
    Encodes registry id (.loop var start goOn step body) := by
  intro st st' v w h hs
  simp only [expression, stepOf_eq] at h
  obtain ⟨slot, s₁, h₁, h⟩ := bind_eq_ok.1 h
  obtain ⟨first, s₂, h₂, h⟩ := bind_eq_ok.1 h
  obtain ⟨_, s₃, h₃, h⟩ := bind_eq_ok.1 h
  obtain ⟨top, s₄, h₄, h⟩ := bind_eq_ok.1 h
  obtain ⟨_, t₄, hbranch, h⟩ := bind_eq_ok.1 h
  obtain ⟨_, s₅, htoTop, h⟩ := bind_eq_ok.1 h
  obtain ⟨_, s₁₃, hinside, hzero⟩ := bind_eq_ok.1 h
  -- the start, and the block of the turns
  obtain ⟨rfl, w₁, e₁, m₁, d₁⟩ := emits_addSlot h₁ hs
  obtain ⟨w₂, e₂, c₂⟩ := ihs h₂ e₁.sees
  obtain ⟨w₃, e₃, m₃, i₃⟩ := emits_store h₃ e₂.sees
  obtain ⟨rfl, w₄, e₄, m₄, n₄, top₄⟩ := emits_appendBlock h₄ e₃.sees
  have b₄ : w₄.block = w₃.block := congrArg Mark.block m₄
  have hb := e₃.sees.bound
  have e₀₃ := (e₁.trans e₂).trans e₃
  have size₀ := size_of_extends e₀₃.builds.extend
  obtain ⟨w₅, e₀₅, m₅, -, x₅, t₅, n₅, -⟩ :=
    emits_jump (e₀₃.trans e₄) hbranch htoTop rfl top₄ (by simp [b₄]; omega) (by simpa using size₀)
  -- one turn, with the variable in scope
  unfold withName at hinside
  split at hinside
  case h_2 => cases hinside
  next u sEnd hturn =>
  cases hinside
  have sees₅ : Sees id ({ s₅ with scope := s₅.scope.insert var w.mark.freshSlot } : Emitter).builder
      w₅ := e₀₅.sees
  obtain ⟨_, s₆, h₆, hturn⟩ := bind_eq_ok.1 hturn
  obtain ⟨growth, s₇, h₇, hturn⟩ := bind_eq_ok.1 hturn
  obtain ⟨current, s₈, h₈, hturn⟩ := bind_eq_ok.1 hturn
  obtain ⟨next, s₉, h₉, hturn⟩ := bind_eq_ok.1 hturn
  obtain ⟨_, s₁₀, h₁₀, hturn⟩ := bind_eq_ok.1 hturn
  obtain ⟨value, s₁₁, h₁₁, hturn⟩ := bind_eq_ok.1 hturn
  obtain ⟨truth, s₁₂, h₁₂, hturn⟩ := bind_eq_ok.1 hturn
  obtain ⟨after, s₁₃, h₁₃, hturn⟩ := bind_eq_ok.1 hturn
  obtain ⟨_, t₁₃, hselect, htoAfter⟩ := bind_eq_ok.1 hturn
  obtain ⟨w₆, e₆, c₆⟩ := ihb h₆ sees₅
  obtain ⟨w₇, e₇, c₇⟩ := iht h₇ e₆.sees
  obtain ⟨rfl, w₈, e₈, m₈, d₈⟩ := emits_define h₈ e₇.sees
  obtain ⟨rfl, w₉, e₉, m₉, d₉⟩ := emits_define h₉ e₈.sees
  obtain ⟨w₁₀, e₁₀, m₁₀, i₁₀⟩ := emits_store h₁₀ e₉.sees
  obtain ⟨w₁₁, e₁₁, c₁₁⟩ := ihg h₁₁ e₁₀.sees
  obtain ⟨rfl, w₁₂, e₁₂, m₁₂, d₁₂⟩ := emits_define h₁₂ e₁₁.sees
  obtain ⟨rfl, w₁₃, e₁₃, m₁₃, n₁₃, after₁₃⟩ := emits_appendBlock h₁₃ e₁₂.sees
  have b₁₃ : w₁₃.block = w₁₂.block := congrArg Mark.block m₁₃
  have hb₁₂ := e₁₂.sees.bound
  have turn₇ := e₆.trans e₇
  have turn₉ := (turn₇.trans e₈).trans e₉
  have turn₁₁ := (turn₉.trans e₁₀).trans e₁₁
  have turn₁₃ := (turn₁₁.trans e₁₂).trans e₁₃
  have inner : Emits id { s₅ with scope := s₅.scope.insert var w.mark.freshSlot } s₁₃ w w₁₃ :=
    ⟨turn₁₃.sees, e₀₅.builds.trans turn₁₃.builds, turn₁₃.scope⟩
  have size₁₂ := size_of_extends (e₀₅.builds.trans (turn₁₁.trans e₁₂).builds).extend
  -- behind the loop
  obtain ⟨w₁₄, e₁₄, m₁₄, -, x₁₄, t₁₄, -, -⟩ :=
    emits_jump inner hselect htoAfter rfl after₁₃ (by simp [b₁₃]; omega) (by simpa using size₁₂)
  obtain ⟨rfl, w₁₅, e₁₅, m₁₅, d₁₅⟩ := emits_define hzero (w := w₁₄) e₁₄.sees
  have restored : sEnd.scope.put var (s₅.scope.get? var) = s₅.scope := by
    rw [e₁₄.scope, Scope.put_insert]
  refine ⟨w₁₅, ⟨e₁₅.sees, e₁₄.builds.trans e₁₅.builds,
    e₁₅.scope.trans (restored.trans e₀₅.scope)⟩, fun g hg => ?_⟩
  have g₁₃ := x₁₄.trans (e₁₅.builds.extend.trans hg)
  have g₁₂ := e₁₃.builds.extend.trans g₁₃
  have g₁₁ := e₁₂.builds.extend.trans g₁₂
  have g₁₀ := e₁₁.builds.extend.trans g₁₁
  have g₉ := e₁₀.builds.extend.trans g₁₀
  have g₈ := e₉.builds.extend.trans g₉
  have g₇ := e₈.builds.extend.trans g₈
  have g₆ := e₇.builds.extend.trans g₇
  have g₅ := e₆.builds.extend.trans g₆
  have g₃ := e₄.builds.extend.trans (x₅.trans g₅)
  have g₂ := e₃.builds.extend.trans g₃
  have mark₄ : w₄.mark = w₂.mark.next := by rw [m₄, m₃]
  have mark₅ : w₅.mark = w₂.mark.enter ⟨w₃.func.blocks.size⟩ := by
    rw [m₅, mark₄]
    rfl
  have mark₁₀ : w₁₀.mark = w₇.mark.define.define.next := by rw [m₁₀, m₉, m₈]
  have mark₁₃ : w₁₃.mark = w₁₁.mark.define := by rw [m₁₃, m₁₂]
  rw [mark₁₃] at m₁₄ t₁₄
  rw [mark₄] at t₅
  rw [m₈] at d₉ m₉ i₁₀
  rw [m₉] at i₁₀
  rw [m₁₄] at d₁₅
  have code₂ := c₂ g g₂
  have code₆ := c₆ g g₆
  have code₇ := c₇ g g₇
  have code₁₁ := c₁₁ g g₁₁
  rw [m₁, e₁.scope] at code₂
  rw [mark₅, e₀₅.scope] at code₆
  rw [e₆.scope, e₀₅.scope] at code₇
  rw [mark₁₀, (turn₉.trans e₁₀).scope, e₀₅.scope] at code₁₁
  rw [m₁₅, m₁₄]
  refine .loop ?_ code₂ (g₃.instAt i₃) (g₅.endsAt t₅) code₆ code₇ (g₈.defines d₈) (g₉.defines d₉)
    (g₁₀.instAt i₁₀) code₁₁ (g₁₂.defines d₁₂) ((e₁₅.builds.extend.trans hg).endsAt t₁₄)
    (hg.defines d₁₅)
  have := (e₂.builds.extend.trans g₂).slots
  omega

theorem encodes_expressions {es : List Expr} (ih : ∀ e ∈ es, Encodes registry id e) :
    ∀ {st st₁ vs w}, expressions registry id es st = .ok vs st₁ → Sees id st.builder w →
      ∃ w₁, Emits id st st₁ w w₁ ∧
        ∀ g, w₁.func.Extends g → CodedAll g st.scope es w.mark vs w₁.mark := by
  induction es with
  | nil =>
    intro st st₁ vs w h hs
    simp only [expressions] at h
    cases h
    exact ⟨w, ⟨hs, .refl w, rfl⟩, fun _ _ => .nil⟩
  | cons e es ihs =>
    intro st st₂ vs w h hs
    simp only [expressions] at h
    obtain ⟨v, st₁, h₁, h⟩ := bind_eq_ok.1 h
    obtain ⟨rest, st₃, h₂, h⟩ := bind_eq_ok.1 h
    cases h
    obtain ⟨w₁, e₁, c₁⟩ := ih e (by simp) h₁ hs
    obtain ⟨w₂, e₂, c₂⟩ := ihs (fun e he => ih e (List.mem_cons_of_mem _ he)) h₂ e₁.sees
    refine ⟨w₂, e₁.trans e₂, fun g hg => ?_⟩
    exact .cons (c₁ g (e₂.builds.extend.trans hg)) (e₁.scope ▸ c₂ g hg)

theorem encodes_call (hr : registry.Named) (callee : String) {args : List Expr}
    (ih : ∀ e ∈ args, Encodes registry id e) : Encodes registry id (.call callee args) := by
  intro st st₃ v w h hs
  simp only [expression] at h
  obtain ⟨f, st₁, h₁, h⟩ := bind_eq_ok.1 h
  obtain ⟨values, st₂, h₂, h⟩ := bind_eq_ok.1 h
  obtain ⟨e₁, func, hf, hname, -⟩ := emits_calleeOf hr h₁ hs
  obtain ⟨w₂, e₂, c₂⟩ := encodes_expressions ih h₂ e₁.sees
  obtain ⟨func', hf', hn⟩ := name_of_expressions h₂ hf
  obtain ⟨rfl, w₃, e₃, m₃, d₃⟩ := emits_call h e₂.sees hf'
  refine ⟨w₃, (e₁.trans e₂).trans e₃, fun g hg => ?_⟩
  rw [m₃]
  rw [hn, hname] at d₃
  exact .call (e₁.scope ▸ c₂ g (e₃.builds.extend.trans hg)) (hg.defines d₃)

end Forms

/-- Emitting an expression leaves its code. -/
theorem encodes_expression (hr : registry.Named) (e : Expr) : Encodes registry id e := by
  induction e using Expr.induct with
  | number x => exact encodes_number x
  | name x => exact encodes_name x
  | unary op e ih => exact encodes_unary hr op ih
  | binary op l r ihl ihr => exact encodes_binary hr op ihl ihr
  | conditional c y n ihc ihy ihn => exact encodes_conditional ihc ihy ihn
  | loop var start goOn step body ihs ihg iht ihb => exact encodes_loop ihs ihg iht ihb
  | call callee args ih => exact encodes_call hr callee ih

section Bodies

/-- Parameters get slots in their order, and each is stored there when the function is entered. -/
theorem emits_parameters (params : List String) :
    ∀ {n st st₁ w u}, parameters id n params st = .ok u st₁ → Sees id st.builder w →
      ∃ w₁, Sees id st₁.builder w₁ ∧ Builds w w₁ ∧
        st₁.scope = .ofParams st.scope w.mark.slots params ∧
        w₁.mark = { w.mark with
          index := w.mark.index + params.length, slots := w.mark.slots + params.length } ∧
        w.mark.slots + params.length ≤ w₁.func.slots.size ∧
        ∀ j < params.length, w₁.func.InstAt w.mark.block (w.mark.index + j)
          (.store ⟨w.mark.slots + j⟩ ⟨n + j⟩) := by
  induction params with
  | nil =>
    intro n st st₁ w u h hs
    simp only [parameters] at h
    cases h
    exact ⟨w, hs, .refl w, rfl, rfl, Nat.le_refl _, by simp⟩
  | cons p ps ih =>
    intro n st st₄ w u h hs
    simp only [parameters] at h
    obtain ⟨slot, st₁, h₁, h⟩ := bind_eq_ok.1 h
    obtain ⟨_, st₂, h₂, h⟩ := bind_eq_ok.1 h
    obtain ⟨_, st₃, h₃, hrest⟩ := bind_eq_ok.1 h
    obtain ⟨rfl, w₁, e₁, m₁, -⟩ := emits_addSlot h₁ hs
    obtain ⟨w₂, e₂, m₂, i₂⟩ := emits_store h₂ e₁.sees
    cases h₃
    obtain ⟨w₃, hs₃, b₃, scope₃, m₃, n₃, stores⟩ := ih hrest e₂.sees
    rw [m₁] at m₂ i₂
    rw [m₂] at scope₃ m₃ n₃ stores
    simp only [Mark.allot, Mark.next] at scope₃ m₃ n₃ stores i₂
    refine ⟨w₃, hs₃, (e₁.trans e₂).builds.trans b₃, ?_, ?_, ?_, fun j hj => ?_⟩
    · rw [scope₃, (e₁.trans e₂).scope]
      rfl
    · rw [m₃, List.length_cons]
      simp only [Mark.mk.injEq, true_and]
      omega
    · rw [List.length_cons]
      omega
    · cases j with
      | zero => exact b₃.extend.instAt i₂
      | succ j =>
        rw [show w.mark.index + (j + 1) = w.mark.index + 1 + j by omega,
          show w.mark.slots + (j + 1) = w.mark.slots + 1 + j by omega,
          show n + (j + 1) = n + 1 + j by omega]
        exact stores j (by simpa using hj)

/-- A declared function with its first block, which is still empty. -/
def entered (name : String) (params : List String) : Func :=
  { Func.declare name params with blocks := #[{ label := "entry" }] }

/-- A function that was just declared is seen with one block, which is empty. -/
theorem sees_entered {params : List String} {entry : Place} {u : Unit}
    (hf : st.builder.func? id = some (.declare name params))
    (h : build (Builder.appendBlock id "entry") st = .ok entry st₁)
    (h' : change (Builder.moveTo entry) st₁ = .ok u st₂) :
    Sees id st₂.builder ⟨entered name params, ⟨0⟩, []⟩ ∧ st₂.scope = st.scope := by
  cases h
  cases h'
  refine ⟨⟨?_, ?_, "entry", rfl⟩, rfl⟩
  · show (st.builder.modifyFunc id _).func? id = _
    rw [func?_modifyFunc, if_pos rfl, hf]
    rfl
  · show (st.builder.appendBlock id "entry").1 = _
    simp only [Builder.appendBlock, hf]
    rfl

/-- Filling a declared function leaves the code of its definition. -/
theorem bodied_of_code (hr : registry.Named) {d : Definition} {params : List String} {u : Unit}
    (hf : st.builder.func? id = some (.declare name params))
    (hp : params.length = d.proto.arity) (hσ : st.scope = ∅)
    (h : code registry id d st = .ok u st₁) :
    ∃ f, st₁.builder.func? id = some f ∧ Bodied f d ∧ f.name = name := by
  simp only [code] at h
  obtain ⟨entry, s₁, h₁, h⟩ := bind_eq_ok.1 h
  obtain ⟨_, s₂, h₂, h⟩ := bind_eq_ok.1 h
  obtain ⟨_, s₃, h₃, h⟩ := bind_eq_ok.1 h
  obtain ⟨value, s₄, h₄, hret⟩ := bind_eq_ok.1 h
  obtain ⟨hs₂, scope₂⟩ := sees_entered hf h₁ h₂
  -- the parameters and the body
  obtain ⟨w₃, hs₃, b₃, scope₃, m₃, n₃, stores⟩ := emits_parameters d.proto.params h₃ hs₂
  obtain ⟨w₄, e₄, c₄⟩ := encodes_expression hr d.body h₄ hs₃
  -- the return
  cases hret
  obtain ⟨f, hf₅, extend, ends, -, -⟩ := func?_terminate e₄.sees (.ret value)
  have g₃ := e₄.builds.extend.trans extend
  have g₀ := b₃.extend.trans g₃
  have mark₀ : (⟨entered name params, ⟨0⟩, []⟩ : View).mark = ⟨⟨0⟩, 0, d.proto.arity, 0⟩ := by
    simp [View.mark, entered, Func.declare, hp]
  rw [mark₀] at scope₃ m₃ n₃ stores
  have arity : d.proto.params.length = d.proto.arity := rfl
  simp only [Nat.zero_add, arity] at m₃ n₃ stores
  refine ⟨f, hf₅, ⟨?_, ?_, ?_, ?_, value, w₄.mark, ?_, ends⟩, g₀.name⟩
  · rw [Func.arity, g₀.params]
    exact hp
  · exact Nat.le_trans n₃ g₃.slots
  · refine Nat.le_trans ?_ g₀.values
    simp [entered, Func.declare, hp]
  · exact fun n hn => g₃.instAt (stores n hn)
  · have code := c₄ f extend
    rwa [m₃, scope₃, scope₂, hσ] at code

/-- Code that is accepted was checked before it was folded. -/
theorem accept_ok {u : Unit} {f : Func} (hf : st.builder.func? id = some f)
    (h : accept id st = .ok u st₁) :
    f.check = .ok () ∧ st₁.builder.func? id = some f.fold := by
  unfold accept at h
  obtain ⟨b, s₁, hb, h⟩ := bind_eq_ok.1 h
  cases hb
  simp only [Builder.check, hf] at h
  cases hc : f.check with
  | error e =>
    rw [hc] at h
    cases h
  | ok u' =>
    rw [hc] at h
    cases h
    refine ⟨rfl, ?_⟩
    show (st.builder.modifyFunc id Func.fold).func? id = some f.fold
    rw [func?_modifyFunc, if_pos rfl, hf]
    rfl

/-- Filling a declared function leaves the folded code of its definition, which is accepted as it was
before folding. -/
theorem bodied_of_body (hr : registry.Named) {d : Definition} {params : List String} {u : Unit}
    (hf : st.builder.func? id = some (.declare name params))
    (hp : params.length = d.proto.arity) (hσ : st.scope = ∅)
    (h : body registry id d st = .ok u st₁) :
    ∃ f, st₁.builder.func? id = some f.fold ∧ f.check = .ok () ∧ Bodied f d ∧ f.name = name := by
  rw [body_eq] at h
  obtain ⟨_, s₁, hcode, haccept⟩ := bind_eq_ok.1 h
  obtain ⟨f, hf₁, bodied, hn⟩ := bodied_of_code hr hf hp hσ hcode
  obtain ⟨hc, hf₂⟩ := accept_ok hf₁ haccept
  exact ⟨f, hf₂, hc, bodied, hn⟩

end Bodies

end Emit

end Kaleidoscope
