import Kaleidoscope.Proofs.Lowering.Emission
import Kaleidoscope.Proofs.Lowering.Strictness
import Kaleidoscope.Proofs.Ssa.Framing

/-!
# The shape of emitted code

Emitting an expression keeps the function framed: what waits outside of the expression waits on, with
the same sources, and what the expression leaves behind has an exit (`frames_expression`). So a
definition is filled with code in strict form (`strictSsa_of_code`), which the checks accept.
-/

namespace Kaleidoscope

open Ssa

/-- The emitter has a framed function in view. The function extends a given one, in whose slots the
scope lies. -/
structure Stands (id : FuncId) (σ : Scope) (base : Func)
    (waiting : List (BlockId × List BlockId)) (st : Emitter) (w : View) : Prop where
  sees : Sees id st.builder w
  framed : w.func.Framed (some w.block) waiting
  grown : base.Extends w.func
  scope : st.scope = σ
  bound : ∀ {name slot}, σ.get? name = some slot → slot.index < base.slots.size

section Views

/-- The code of an expression begins with an instruction at its mark, which is no join. -/
theorem Coded.first {f : Func} {e : Expr} : ∀ {σ m v m'}, Coded f σ e m v m' →
    ∃ i, f.InstAt m.block m.index i ∧ i.isPhi = false := by
  induction e using Expr.induct with
  | number x =>
    intro σ m v m' h
    cases h with
    | number d => exact ⟨_, d.inst, rfl⟩
  | name x =>
    intro σ m v m' h
    cases h with
    | name _ d => exact ⟨_, d.inst, rfl⟩
  | unary op e ih =>
    intro σ m v m' h
    cases h with
    | unary he _ => exact ih he
  | binary op l r ihl ihr =>
    intro σ m v m' h
    cases h with
    | binary hl _ _ => exact ihl hl
  | conditional c y n ihc ihy ihn =>
    intro σ m v m' h
    cases h with
    | conditional hc _ _ _ _ _ _ _ _ => exact ihc hc
  | loop var start goOn step body ihs ihg iht ihb =>
    intro σ m v m' h
    cases h with
    | loop _ hs _ _ _ _ _ _ _ _ _ _ _ =>
      have first := ihs hs
      exact first
  | call callee args ih =>
    intro σ m v m' h
    cases h with
    | call ha d =>
      cases ha with
      | nil => exact ⟨_, d.inst, rfl⟩
      | cons he _ => exact ih _ (by simp) he

variable {id : FuncId} {b : Builder} {w w' : View} {σ : Scope} {base g : Func} {st : Emitter}
  {waiting waiting' : List (BlockId × List BlockId)} {t : Terminator} {k : BlockId}

theorem Sees.unique (h : Sees id b w) (h' : Sees id b w') : w = w' := by
  obtain ⟨f, k, insts⟩ := w
  obtain ⟨f', k', insts'⟩ := w'
  obtain ⟨hf, hp, label, hb⟩ := h
  obtain ⟨hf', hp', label', hb'⟩ := h'
  cases hf.symm.trans hf'
  cases congrArg Place.block (hp.symm.trans hp')
  rw [hb] at hb'
  cases hb'
  rfl

/-- A change of the current block shows in the function. -/
theorem func?_modifyBlock (h : Sees id b w) (change : Block → Block) :
    (b.modifyBlock change).func? id =
      some { w.func with blocks := w.func.blocks.modify w.block.index change } := by
  rw [Builder.modifyBlock, h.place, func?_modifyFunc, if_pos rfl, h.func, Option.map_some]

/-- From here on, what is there now counts as given. -/
theorem Stands.rebase (h : Stands id σ base waiting st w) : Stands id σ w.func waiting st w :=
  { h with
    grown := .refl _
    bound := fun hs => Nat.lt_of_lt_of_le (h.bound hs) h.grown.slots }

/-- What does not wait any more, or not yet, is another block than those that wait. -/
theorem Stands.not_waiting (h : Stands id σ base waiting st w) {i : Inst} {n : Nat}
    (hi : w.func.InstAt k n i) : k ∉ waiting.map (·.1) := by
  intro hm
  obtain ⟨entry, he, rfl⟩ := List.mem_map.1 hm
  exact (h.framed.empty entry he).1.not_instAt hi

theorem Stands.of_emits {st₁ : Emitter} (h : Stands id σ base waiting st w)
    (he : Emits id st st₁ w w) : Stands id σ base waiting st₁ w :=
  { h with
    sees := he.sees
    scope := he.scope.trans h.scope }

/-- An instruction was put at the end of the current block. -/
theorem Stands.put {st₁ : Emitter} {w₁ : View} {i : Inst} {values : Array String}
    (h : Stands id σ base waiting st w)
    (he : Emits id st st₁ w w₁) (hb : w₁.block = w.block)
    (hf : st₁.builder.func? id = some { w.func.append w.block i with values })
    (hv : (List.range values.size).map ValueId.mk =
      (List.range w.func.values.size).map ValueId.mk ++ i.target.toList)
    (hs : ∀ s ∈ i.slot?, s.index < base.slots.size)
    (hj : ∀ dst incoming, i = .phi dst incoming → w.insts = [] ∧ (incoming.map (·.2)).Nodup ∧
      ∀ j, j ∈ incoming.map (·.2) ↔ w.func.precedes j w.block) :
    Stands id σ base waiting st₁ w₁ where
  sees := he.sees
  framed := by
    have slots : ∀ s ∈ i.slot?, s.index < w.func.slots.size :=
      fun s hm => Nat.lt_of_lt_of_le (hs s hm) h.grown.slots
    rw [hb, Option.some.inj (he.sees.func.symm.trans hf)]
    exact h.framed.put h.sees.current hv slots hj
  grown := h.grown.trans he.builds.extend
  scope := he.scope.trans h.scope
  bound := h.bound

end Views

namespace Emit

variable {registry : Registry} {id : FuncId} {σ : Scope} {base g : Func}
  {waiting waiting' : List (BlockId × List BlockId)} {st st₁ st₂ : Emitter} {w : View}
  {sources : List BlockId} {v : ValueId} {u u' : Unit} {name : String} {e : Expr}

/-- Emitting the expression keeps the function framed. -/
def Frames (registry : Registry) (id : FuncId) (e : Expr) : Prop :=
  ∀ {σ base waiting st st₁ v w}, expression registry id e st = .ok v st₁ →
    Stands id σ base waiting st w → ∃ w₁, Stands id σ base waiting st₁ w₁

section Operations

theorem func?_value {b : Builder} (h : Sees id b w) (name : String) (change : Block → Block) :
    ((b.newValue name).2.modifyBlock change).func? id = some { w.func with
      blocks := w.func.blocks.modify w.block.index change
      values := w.func.values.push name } := by
  rw [newValue_eq h]
  obtain ⟨hs, -⟩ := sees_modifyFunc h (fun f => { f with values := f.values.push name })
    (f := { w.func with values := w.func.values.push name }) rfl rfl rfl rfl
    (by simp) (Nat.le_refl _)
  exact func?_modifyBlock hs change

/-- A table that got one entry more has the numbers it had, and the next one. -/
theorem range_push (values : Array String) (name : String) :
    (List.range (values.push name).size).map ValueId.mk =
      (List.range values.size).map ValueId.mk ++ [⟨values.size⟩] := by
  rw [Array.size_push, List.range_succ, List.map_append]
  rfl

/-- An instruction that defines the next value, is no join and reads its slots from the table keeps
the function framed. -/
theorem stands_define {inst : ValueId → Inst} (h : build (Builder.define name inst) st = .ok v st₁)
    (hs : Stands id σ base waiting st w) (ht : ∀ v, (inst v).target = some v)
    (hp : ∀ v, (inst v).isPhi = false) (hb : ∀ v, ∀ s ∈ (inst v).slot?, s.index < base.slots.size) :
    ∃ w₁, Stands id σ base waiting st₁ w₁ := by
  obtain ⟨-, w₁, e₁, m₁, -⟩ := emits_define h hs.sees
  cases h
  have hf : (st.builder.define name inst).2.func? id =
      some { w.func.append w.block (inst w.mark.fresh) with
        values := w.func.values.push name } := by
    have hv := func?_value hs.sees name
      fun blk => { blk with insts := blk.insts ++ [inst w.mark.fresh] }
    rw [newValue_eq hs.sees] at hv
    simp only [Builder.define, newValue_eq hs.sees]
    exact hv
  refine ⟨w₁, hs.put e₁ (congrArg Mark.block m₁) hf ?_ (hb _) ?_⟩
  · rw [range_push, ht]
    rfl
  · intro dst incoming he
    have := hp w.mark.fresh
    rw [he] at this
    cases this

/-- Appending an instruction that defines a value and names no slot. -/
theorem stands_value {inst : ValueId → Inst} (h : build (Builder.define name inst) st = .ok v st₁)
    (hs : Stands id σ base waiting st w) (ht : ∀ v, (inst v).target = some v)
    (hp : ∀ v, (inst v).isPhi = false) (hn : ∀ v, (inst v).slot? = none) :
    ∃ w₁, Stands id σ base waiting st₁ w₁ := by
  refine stands_define h hs ht hp fun v s hm => ?_
  rw [hn] at hm
  cases hm

theorem stands_store {slot : SlotId} (h : change (Builder.store v slot) st = .ok u st₁)
    (hs : Stands id σ base waiting st w) (hb : slot.index < base.slots.size) :
    ∃ w₁, Stands id σ base waiting st₁ w₁ := by
  obtain ⟨w₁, e₁, m₁, -⟩ := emits_store h hs.sees
  cases h
  refine ⟨w₁, hs.put e₁ (congrArg Mark.block m₁) (func?_modifyBlock hs.sees _) ?_ ?_ nofun⟩
  · simp [Inst.target]
  · rintro s ⟨⟩
    exact hb

/-- A join with one edge for each block that comes here. -/
theorem stands_phi {incoming : List (ValueId × Place)}
    (h : build (Builder.phi incoming name) st = .ok v st₁)
    (hs : Stands id σ base waiting st w) (hn : w.insts = [])
    (hd : (incoming.map (·.2.block)).Nodup)
    (hj : ∀ j, j ∈ incoming.map (·.2.block) ↔ w.func.precedes j w.block) :
    ∃ w₁, Stands id σ base waiting st₁ w₁ := by
  obtain ⟨-, w₁, e₁, m₁, -⟩ := emits_phi h hs.sees hn
  cases h
  let join := Inst.phi w.mark.fresh (incoming.map fun edge => (edge.1, edge.2.block))
  have sources : ∀ {dst edges}, join = .phi dst edges →
      edges.map (·.2) = incoming.map (·.2.block) := by
    intro dst edges he
    cases (Inst.phi.inj he).2
    simp
  have top : w.func.blocks.modify w.block.index (fun blk => { blk with
      insts := blk.insts.takeWhile Inst.isPhi ++ join :: blk.insts.dropWhile Inst.isPhi }) =
        (w.func.append w.block join).blocks := by
    obtain ⟨label, hb⟩ := hs.sees.current
    refine Array.ext_getElem? fun k => ?_
    rw [Func.getElem?_append, Array.getElem?_modify]
    split
    · next he => simp [← he, hb, hn]
    · rfl
  have hf : (st.builder.phi incoming name).2.func? id =
      some { w.func.append w.block join with values := w.func.values.push name } := by
    have hv := func?_value hs.sees name fun blk => { blk with
      insts := blk.insts.takeWhile Inst.isPhi ++ join :: blk.insts.dropWhile Inst.isPhi }
    rw [newValue_eq hs.sees, top] at hv
    simp only [Builder.phi, newValue_eq hs.sees]
    exact hv
  have noSlot : ∀ s ∈ join.slot?, s.index < base.slots.size := fun s hm => by cases hm
  refine ⟨w₁, hs.put e₁ (congrArg Mark.block m₁) hf (range_push _ name) noSlot ?_⟩
  intro dst edges he
  rw [sources he]
  exact ⟨hn, hd, hj⟩

/-- More slots are no harm, and the new one can be taken into the scope. -/
theorem stands_addSlot {slot : SlotId} (h : build (Builder.addSlot id name) st = .ok slot st₁)
    (hs : Stands id σ base waiting st w) :
    ∃ w₁, Stands id σ base waiting st₁ w₁ ∧ slot.index < w₁.func.slots.size := by
  obtain ⟨hv, w₁, e₁, m₁, hlt⟩ := emits_addSlot h hs.sees
  cases h
  have hf : (st.builder.addSlot id name).2.func? id =
      some { w.func with slots := w.func.slots.push name } := by
    rw [Builder.addSlot, func?_modifyFunc, if_pos rfl, hs.sees.func]
    rfl
  have block : w₁.block = w.block := congrArg Mark.block m₁
  refine ⟨w₁, ⟨e₁.sees, ?_, hs.grown.trans e₁.builds.extend, e₁.scope.trans hs.scope, hs.bound⟩,
    hv ▸ hlt⟩
  rw [block, Option.some.inj (e₁.sees.func.symm.trans hf)]
  exact hs.framed.allot name

/-- A block that was appended waits, and has no sources yet. -/
theorem stands_appendBlock {place : Place}
    (h : build (Builder.appendBlock id name) st = .ok place st₁)
    (hs : Stands id σ base waiting st w) :
    place.func = id ∧ ∃ w₁, Stands id σ base ((place.block, []) :: waiting) st₁ w₁ ∧
      w₁.block = w.block ∧ w.func.Extends w₁.func := by
  obtain ⟨hv, w₁, e₁, m₁, -, -⟩ := emits_appendBlock h hs.sees
  cases h
  have hf : (st.builder.appendBlock id name).2.func? id =
      some { w.func with blocks := w.func.blocks.push { label := name } } := by
    rw [Builder.appendBlock, func?_modifyFunc, if_pos rfl, hs.sees.func]
    rfl
  have block : w₁.block = w.block := congrArg Mark.block m₁
  refine ⟨rfl, w₁, ⟨e₁.sees, ?_, hs.grown.trans e₁.builds.extend, e₁.scope.trans hs.scope, hs.bound⟩,
    block, e₁.builds.extend⟩
  rw [block, Option.some.inj (e₁.sees.func.symm.trans hf), hv]
  exact hs.framed.addBlock name

/-- The current block ends, and code goes on in a block that waits for it or for others. -/
theorem stands_jump {term : Terminator} {place : Place} {behind : List (BlockId × List BlockId)}
    (h : change (Builder.terminate term) st = .ok u st₁)
    (h' : change (Builder.moveTo place) st₁ = .ok u' st₂) (hs : Stands id σ base waiting st w)
    (hp : place.func = id) (hn : ∀ k ∈ term.successors, k ∈ waiting.map (·.1) ∨
      k.index < w.func.blocks.size ∧ ∀ n dst incoming, ¬ w.func.InstAt k n (.phi dst incoming))
    (hw : goTo w.block term waiting = behind)
    (hl : behind.Perm ((place.block, sources) :: waiting'))
    (hne : sources ≠ []) :
    ∃ w₂, Stands id σ base waiting' st₂ w₂ ∧ w₂.block = place.block ∧ w₂.insts = [] ∧
      ∀ j, w₂.func.precedes j w₂.block ↔ j ∈ sources := by
  cases h
  cases h'
  obtain ⟨f, k⟩ := place
  cases hp
  obtain ⟨f, hf, extend, -, -, -⟩ := func?_terminate hs.sees term
  have finished := func?_modifyBlock hs.sees fun blk => { blk with term := some term }
  cases hf.symm.trans finished
  have framed : (w.func.finish w.block term).Framed none ((k, sources) :: waiting') :=
    (hs.framed.finish hn).perm (hw.symm ▸ hl : (goTo _ _ _).Perm _)
  obtain ⟨empty, precedes⟩ := framed.empty _ List.mem_cons_self
  exact ⟨⟨w.func.finish w.block term, k, []⟩, ⟨⟨hf, rfl, empty⟩, framed.move hne,
    hs.grown.trans extend, hs.scope, hs.bound⟩, rfl, rfl, precedes⟩

/-- A call reads no slots, so that it is like any other instruction. -/
theorem stands_call {f : FuncId} {func : Func} {args : List ValueId}
    (h : build (Builder.call f args name) st = .ok v st₁) (hs : Stands id σ base waiting st w)
    (hf : st.builder.func? f = some func) : ∃ w₁, Stands id σ base waiting st₁ w₁ := by
  rw [build_call hf] at h
  exact stands_value h hs (fun _ => rfl) (fun _ => rfl) fun _ => rfl

theorem stands_operator (hr : registry.Named) {unknown : Fault} {args : List ValueId}
    {label : String} (h : operator registry name unknown args label st = .ok v st₁)
    (hs : Stands id σ base waiting st w) : ∃ w₁, Stands id σ base waiting st₁ w₁ := by
  unfold operator at h
  obtain ⟨o, st', ho, h⟩ := bind_eq_ok.1 h
  cases o with
  | none => cases h
  | some f =>
    obtain ⟨func, hf, -⟩ := name_of_callee? hr ho
    exact stands_call h (hs.of_emits (emits_callee? ho hs.sees)) hf

theorem stands_binary (hr : registry.Named) {op : Char} {lhs rhs : ValueId}
    (h : binary registry op lhs rhs st = .ok v st₁) (hs : Stands id σ base waiting st w) :
    ∃ w₁, Stands id σ base waiting st₁ w₁ := by
  unfold binary at h
  split at h
  · exact stands_value h hs (fun _ => rfl) (fun _ => rfl) fun _ => rfl
  · exact stands_value h hs (fun _ => rfl) (fun _ => rfl) fun _ => rfl
  · exact stands_value h hs (fun _ => rfl) (fun _ => rfl) fun _ => rfl
  · exact stands_value h hs (fun _ => rfl) (fun _ => rfl) fun _ => rfl
  · exact stands_operator hr h hs

end Operations

section Forms

theorem frames_unary (hr : registry.Named) (op : Char) (ih : Frames registry id e) :
    Frames registry id (.unary op e) := by
  intro σ base waiting st st₂ v w h hs
  simp only [expression] at h
  obtain ⟨src, st₁, h₁, h⟩ := bind_eq_ok.1 h
  obtain ⟨w₁, hs₁⟩ := ih h₁ hs
  exact stands_operator hr h hs₁

theorem frames_binary (hr : registry.Named) (op : Char) {l r : Expr} (ihl : Frames registry id l)
    (ihr : Frames registry id r) : Frames registry id (.binary op l r) := by
  intro σ base waiting st st₃ v w h hs
  simp only [expression] at h
  obtain ⟨lhs, st₁, h₁, h⟩ := bind_eq_ok.1 h
  obtain ⟨rhs, st₂, h₂, h⟩ := bind_eq_ok.1 h
  obtain ⟨w₁, hs₁⟩ := ihl h₁ hs
  obtain ⟨w₂, hs₂⟩ := ihr h₂ hs₁
  exact stands_binary hr h hs₂

/-- The branches wait for the condition, each with it as their source, and the join for both of
them. -/
theorem frames_conditional {c y n : Expr} (ihc : Frames registry id c) (ihy : Frames registry id y)
    (ihn : Frames registry id n) : Frames registry id (.conditional c y n) := by
  intro σ base waiting st st' v w h hs
  simp only [expression] at h
  obtain ⟨value, s₁, h₁, h⟩ := bind_eq_ok.1 h
  obtain ⟨truth, s₂, h₂, h⟩ := bind_eq_ok.1 h
  obtain ⟨yes, s₃, h₃, h⟩ := bind_eq_ok.1 h
  obtain ⟨no, s₄, h₄, h⟩ := bind_eq_ok.1 h
  obtain ⟨join, s₅, h₅, h⟩ := bind_eq_ok.1 h
  obtain ⟨_, t₅, hselect, h⟩ := bind_eq_ok.1 h
  obtain ⟨_, s₆, htoYes, h⟩ := bind_eq_ok.1 h
  obtain ⟨yesValue, s₇, h₇, h⟩ := bind_eq_ok.1 h
  obtain ⟨yesEnd, t₇, hleaveYes, h⟩ := bind_eq_ok.1 h
  obtain ⟨_, s₈, htoNo, h⟩ := bind_eq_ok.1 h
  obtain ⟨noValue, s₉, h₉, h⟩ := bind_eq_ok.1 h
  obtain ⟨noEnd, t₉, hleaveNo, h⟩ := bind_eq_ok.1 h
  obtain ⟨_, s₁₀, htoJoin, hphi⟩ := bind_eq_ok.1 h
  -- the condition, and three blocks that wait
  obtain ⟨w₁, hs₁⟩ := ihc h₁ hs
  obtain ⟨w₂, hs₂⟩ := stands_value h₂ hs₁ (fun _ => rfl) (fun _ => rfl) fun _ => rfl
  obtain ⟨inYes, w₃, hs₃, -, -⟩ := stands_appendBlock h₃ hs₂
  obtain ⟨inNo, w₄, hs₄, -, -⟩ := stands_appendBlock h₄ hs₃
  obtain ⟨inJoin, w₅, hs₅, -, -⟩ := stands_appendBlock h₅ hs₄
  obtain ⟨⟨joinNo, joinYes, joinOut⟩, ⟨noYes, noOut⟩, yesOut, -⟩ :
      (join.block ≠ no.block ∧ join.block ≠ yes.block ∧ join.block ∉ waiting.map (·.1)) ∧
        (no.block ≠ yes.block ∧ no.block ∉ waiting.map (·.1)) ∧
          yes.block ∉ waiting.map (·.1) ∧ (waiting.map (·.1)).Nodup := by
    have := hs₅.framed.nodup_waiting
    simpa only [List.map_cons, List.nodup_cons, List.mem_cons, not_or, ne_eq] using this
  -- the branch that is taken
  have branched : goTo w₅.block (.select truth yes.block no.block)
      ((join.block, []) :: (no.block, []) :: (yes.block, []) :: waiting) =
        (join.block, []) :: (no.block, [w₅.block]) :: (yes.block, [w₅.block]) :: waiting := by
    have rest : goTo w₅.block (.select truth yes.block no.block) waiting = waiting :=
      goTo_of_not_mem fun entry he => by
        simp [Terminator.successors, ne_of_not_waiting yesOut he, ne_of_not_waiting noOut he]
    simp [goTo_cons, rest, Terminator.successors, joinNo, joinYes]
  have yesFirst : ((join.block, []) :: (no.block, [w₅.block]) :: (yes.block, [w₅.block]) ::
      waiting).Perm ((yes.block, [w₅.block]) ::
        ([(join.block, []), (no.block, [w₅.block])] ++ waiting)) :=
    @List.perm_middle _ _ [_, _] _
  obtain ⟨w₆, hs₆, -⟩ := stands_jump hselect htoYes hs₅ inYes (by simp [Terminator.successors])
    branched yesFirst (List.cons_ne_nil _ _)
  obtain ⟨w₇, hs₇⟩ := ihy h₇ hs₆
  obtain ⟨rfl, hbranchYes⟩ := leave_ok hleaveYes hs₇.sees
  have joining : ∀ b, goTo b (.branch join.block) waiting = waiting := fun b =>
    goTo_of_not_mem fun entry he => by simp [Terminator.successors, ne_of_not_waiting joinOut he]
  -- the other branch
  have left₇ : goTo w₇.block (.branch join.block)
      ((join.block, []) :: (no.block, [w₅.block]) :: waiting) =
        (join.block, [w₇.block]) :: (no.block, [w₅.block]) :: waiting := by
    simp [goTo_cons, joining, Terminator.successors, joinNo.symm]
  obtain ⟨w₈, hs₈, -⟩ := stands_jump hbranchYes htoNo hs₇ inNo (by simp [Terminator.successors])
    left₇ (.swap _ _ _) (List.cons_ne_nil _ _)
  obtain ⟨w₉, hs₉⟩ := ihn h₉ hs₈
  obtain ⟨rfl, hbranchNo⟩ := leave_ok hleaveNo hs₉.sees
  have ends : w₇.block ≠ w₉.block := by
    intro he
    obtain ⟨-, sources⟩ := hs₉.framed.empty _ List.mem_cons_self
    obtain ⟨insts, unfinished⟩ := hs₉.framed.here _ rfl
    exact unfinished.not_precedes (he ▸ (sources w₇.block).2 List.mem_cons_self)
  -- the join
  have left₉ : goTo w₉.block (.branch join.block) ((join.block, [w₇.block]) :: waiting) =
      (join.block, [w₉.block, w₇.block]) :: waiting := by
    simp [goTo_cons, joining, Terminator.successors]
  obtain ⟨w₁₀, hs₁₀, -, i₁₀, sources⟩ := stands_jump hbranchNo htoJoin hs₉ inJoin
    (by simp [Terminator.successors]) left₉ (.refl _) (List.cons_ne_nil _ _)
  refine stands_phi hphi hs₁₀ i₁₀ (by simpa using ends) fun j => ?_
  rw [sources]
  simp [or_comm]

/-- The block of the loop is entered from its own end too. It gets no join, so that not all of its
sources need be known when it is entered. -/
theorem frames_loop (hr : registry.Named) {var : String} {start goOn body : Expr}
    {step : Option Expr} (ihs : Frames registry id start) (ihg : Frames registry id goOn)
    (iht : Frames registry id (.stepOrOne step)) (ihb : Frames registry id body) :
    Frames registry id (.loop var start goOn step body) := by
  intro σ base waiting st st' v w h hs
  simp only [expression, stepOf_eq] at h
  obtain ⟨slot, s₁, h₁, h⟩ := bind_eq_ok.1 h
  obtain ⟨first, s₂, h₂, h⟩ := bind_eq_ok.1 h
  obtain ⟨_, s₃, h₃, h⟩ := bind_eq_ok.1 h
  obtain ⟨top, s₄, h₄, h⟩ := bind_eq_ok.1 h
  obtain ⟨_, t₄, hbranch, h⟩ := bind_eq_ok.1 h
  obtain ⟨_, s₅, htoTop, h⟩ := bind_eq_ok.1 h
  obtain ⟨_, s₁₃, hinside, hzero⟩ := bind_eq_ok.1 h
  -- the start, and the block of the turns
  obtain ⟨w₁, hs₁, hslot⟩ := stands_addSlot h₁ hs
  obtain ⟨w₂, hs₂⟩ := ihs h₂ hs₁.rebase
  obtain ⟨w₃, hs₃⟩ := stands_store h₃ hs₂ hslot
  obtain ⟨inTop, w₄, hs₄, -, -⟩ := stands_appendBlock h₄ hs₃
  have topOut : top.block ∉ waiting.map (·.1) :=
    (List.nodup_cons.1 hs₄.framed.nodup_waiting).1
  have toTop : goTo w₄.block (.branch top.block) ((top.block, []) :: waiting) =
      (top.block, [w₄.block]) :: waiting := by
    rw [goTo_cons, goTo_of_not_mem fun entry he => ?_]
    · simp [Terminator.successors]
    · simp [Terminator.successors, ne_of_not_waiting topOut he]
  obtain ⟨w₅, hs₅, b₅, i₅, -⟩ := stands_jump hbranch htoTop hs₄ inTop
    (by simp [Terminator.successors]) toTop (.refl _) (List.cons_ne_nil _ _)
  -- one turn, with the variable in scope; its first instruction keeps a join out of its block
  unfold withName at hinside
  split at hinside
  case h_2 => cases hinside
  next u sEnd hturn =>
  cases hinside
  have inside : Stands id (σ.insert var slot) w₁.func waiting
      { s₅ with scope := s₅.scope.insert var slot } w₅ := by
    refine ⟨hs₅.sees, hs₅.framed, hs₅.grown, by rw [hs₅.scope], fun {name s} hget => ?_⟩
    rw [Scope.get?_insert] at hget
    split at hget
    · cases hget
      exact hslot
    · exact hs₅.bound hget
  obtain ⟨_, s₆, h₆, hturn⟩ := bind_eq_ok.1 hturn
  obtain ⟨growth, s₇, h₇, hturn⟩ := bind_eq_ok.1 hturn
  obtain ⟨current, s₈, h₈, hturn⟩ := bind_eq_ok.1 hturn
  obtain ⟨next, s₉, h₉, hturn⟩ := bind_eq_ok.1 hturn
  obtain ⟨_, s₁₀, h₁₀, hturn⟩ := bind_eq_ok.1 hturn
  obtain ⟨value, s₁₁, h₁₁, hturn⟩ := bind_eq_ok.1 hturn
  obtain ⟨truth, s₁₂, h₁₂, hturn⟩ := bind_eq_ok.1 hturn
  obtain ⟨after, s₁₃, h₁₃, hturn⟩ := bind_eq_ok.1 hturn
  obtain ⟨_, t₁₃, hselect, htoAfter⟩ := bind_eq_ok.1 hturn
  obtain ⟨w₆, hs₆⟩ := ihb h₆ inside
  obtain ⟨i, hi₆, simple⟩ : ∃ i, w₆.func.InstAt top.block 0 i ∧ i.isPhi = false := by
    obtain ⟨w₆', e₆, c₆⟩ := encodes_expression hr body h₆ inside.sees
    cases hs₆.sees.unique e₆.sees
    have := (c₆ _ (.refl _)).first
    rwa [show w₅.mark.block = top.block from b₅, show w₅.mark.index = 0 by simp [View.mark, i₅]]
      at this
  have slot₆ : slot.index < w₆.func.slots.size := Nat.lt_of_lt_of_le hslot hs₆.grown.slots
  obtain ⟨w₇, hs₇⟩ := iht h₇ hs₆.rebase
  obtain ⟨w₈, hs₈⟩ := stands_define h₈ hs₇ (fun _ => rfl) (fun _ => rfl) fun _ s hm => by
    cases hm
    exact slot₆
  obtain ⟨w₉, hs₉⟩ := stands_value h₉ hs₈ (fun _ => rfl) (fun _ => rfl) fun _ => rfl
  obtain ⟨w₁₀, hs₁₀⟩ := stands_store h₁₀ hs₉ slot₆
  obtain ⟨w₁₁, hs₁₁⟩ := ihg h₁₁ hs₁₀
  obtain ⟨w₁₂, hs₁₂⟩ := stands_value h₁₂ hs₁₁ (fun _ => rfl) (fun _ => rfl) fun _ => rfl
  obtain ⟨inAfter, w₁₃, hs₁₃, -, -⟩ := stands_appendBlock h₁₃ hs₁₂
  -- back to the top, or on behind the loop
  have hi₁₃ := hs₁₃.grown.instAt hi₆
  have topLater : top.block ∉ ((after.block, []) :: waiting).map (·.1) := hs₁₃.not_waiting hi₁₃
  have afterOut : after.block ∉ waiting.map (·.1) :=
    (List.nodup_cons.1 hs₁₃.framed.nodup_waiting).1
  have toAfter : goTo w₁₃.block (.select truth top.block after.block)
      ((after.block, []) :: waiting) = (after.block, [w₁₃.block]) :: waiting := by
    rw [goTo_cons, goTo_of_not_mem fun entry he => ?_]
    · simp [Terminator.successors]
    · simp [Terminator.successors, ne_of_not_waiting topOut he, ne_of_not_waiting afterOut he]
  have targets : ∀ k ∈ (Terminator.select truth top.block after.block).successors,
      k ∈ ((after.block, []) :: waiting).map (·.1) ∨ k.index < w₁₃.func.blocks.size ∧
        ∀ n dst incoming, ¬ w₁₃.func.InstAt k n (.phi dst incoming) := by
    intro k hk
    rcases List.mem_cons.1 hk with rfl | hk
    · refine .inr ⟨hi₁₃.lt, fun n dst incoming hphi => ?_⟩
      obtain ⟨rfl, -⟩ := hs₁₃.framed.joins hphi
      cases hi₁₃.eq hphi
      cases simple
    · cases List.mem_singleton.1 hk
      exact .inl (by simp)
  obtain ⟨w₁₄, hs₁₄, -⟩ := stands_jump hselect htoAfter hs₁₃ inAfter targets toAfter (.refl _)
    (List.cons_ne_nil _ _)
  have restored : sEnd.scope.put var (s₅.scope.get? var) = σ := by
    rw [hs₁₄.scope, hs₅.scope, Scope.put_insert]
  have outside : Stands id σ base waiting
      { sEnd with scope := sEnd.scope.put var (s₅.scope.get? var) } w₁₄ :=
    ⟨hs₁₄.sees, hs₁₄.framed, (hs₁.grown.trans hs₆.grown).trans hs₁₄.grown, restored, hs.bound⟩
  exact stands_value hzero outside (fun _ => rfl) (fun _ => rfl) fun _ => rfl

theorem frames_expressions {es : List Expr} (ih : ∀ e ∈ es, Frames registry id e) :
    ∀ {st st₁ vs w}, expressions registry id es st = .ok vs st₁ →
      Stands id σ base waiting st w → ∃ w₁, Stands id σ base waiting st₁ w₁ := by
  induction es with
  | nil =>
    intro st st₁ vs w h hs
    simp only [expressions] at h
    cases h
    exact ⟨w, hs⟩
  | cons e es ihs =>
    intro st st₂ vs w h hs
    simp only [expressions] at h
    obtain ⟨v, st₁, h₁, h⟩ := bind_eq_ok.1 h
    obtain ⟨rest, st₃, h₂, h⟩ := bind_eq_ok.1 h
    cases h
    obtain ⟨w₁, hs₁⟩ := ih e (by simp) h₁ hs
    exact ihs (fun e he => ih e (List.mem_cons_of_mem _ he)) h₂ hs₁

/-- The arguments come before the call. -/
theorem frames_call (hr : registry.Named) (callee : String) {args : List Expr}
    (ih : ∀ e ∈ args, Frames registry id e) : Frames registry id (.call callee args) := by
  intro σ base waiting st st₃ v w h hs
  simp only [expression] at h
  obtain ⟨f, st₁, h₁, h⟩ := bind_eq_ok.1 h
  obtain ⟨values, st₂, h₂, h⟩ := bind_eq_ok.1 h
  obtain ⟨e₁, func, hf, -, -⟩ := emits_calleeOf hr h₁ hs.sees
  obtain ⟨w₂, hs₂⟩ := frames_expressions ih h₂ (hs.of_emits e₁)
  obtain ⟨func', hf', -⟩ := name_of_expressions h₂ hf
  exact stands_call h hs₂ hf'

end Forms

/-- Emitting an expression keeps the function framed. -/
theorem frames_expression (hr : registry.Named) (e : Expr) : Frames registry id e := by
  induction e using Expr.induct with
  | number x =>
    intro σ base waiting st st₁ v w h hs
    simp only [expression] at h
    exact stands_value h hs (fun _ => rfl) (fun _ => rfl) fun _ => rfl
  | name x =>
    intro σ base waiting st st₁ v w h hs
    simp only [expression] at h
    obtain ⟨slot, st', h₁, h⟩ := bind_eq_ok.1 h
    unfold slotOf at h₁
    split at h₁ <;> cases h₁
    next hx =>
    refine stands_define h hs (fun _ => rfl) (fun _ => rfl) fun _ s hm => ?_
    cases hm
    exact hs.bound (hs.scope ▸ hx)
  | unary op e ih => exact frames_unary hr op ih
  | binary op l r ihl ihr => exact frames_binary hr op ihl ihr
  | conditional c y n ihc ihy ihn => exact frames_conditional ihc ihy ihn
  | loop var start goOn step body ihs ihg iht ihb => exact frames_loop hr ihs ihg iht ihb
  | call callee args ih => exact frames_call hr callee ih

section Bodies

/-- Storing the parameters takes the scope from one slot to the next. -/
theorem stands_parameters (params : List String) :
    ∀ {n σ base st w u}, parameters id n params st = .ok u st₁ → Stands id σ base waiting st w →
      ∃ σ₁ base₁ w₁, Stands id σ₁ base₁ waiting st₁ w₁ := by
  induction params with
  | nil =>
    intro n σ base st w u h hs
    simp only [parameters] at h
    cases h
    exact ⟨σ, base, w, hs⟩
  | cons p ps ih =>
    intro n σ base st w u h hs
    simp only [parameters] at h
    obtain ⟨slot, s₁, h₁, h⟩ := bind_eq_ok.1 h
    obtain ⟨_, s₂, h₂, h⟩ := bind_eq_ok.1 h
    obtain ⟨_, s₃, h₃, hrest⟩ := bind_eq_ok.1 h
    obtain ⟨w₁, hs₁, hslot⟩ := stands_addSlot h₁ hs
    obtain ⟨w₂, hs₂⟩ := stands_store h₂ hs₁.rebase hslot
    cases h₃
    have bound : ∀ {name s}, (σ.insert p slot).get? name = some s →
        s.index < w₁.func.slots.size := by
      intro name s hget
      rw [Scope.get?_insert] at hget
      split at hget
      · cases hget
        exact hslot
      · exact hs₂.bound hget
    exact ih hrest ⟨hs₂.sees, hs₂.framed, hs₂.grown, by rw [← hs₂.scope], bound⟩

/-- The first block of a function is all that there is to build on. -/
theorem framed_entered (name : String) (params : List String) :
    (entered name params).Framed (some ⟨0⟩) [] where
  here := by
    rintro b ⟨⟩
    exact ⟨[], "entry", rfl⟩
  empty := nofun
  distinct := by simp
  entry := Nat.one_pos
  ended := by
    intro k blk hb hk
    have := (Array.getElem?_eq_some_iff.1 hb).1
    simp only [entered, List.size_toArray, List.length_singleton, Nat.lt_one_iff] at this
    simp [this] at hk
  reached := by
    intro b hb _
    have : b = ⟨0⟩ := BlockId.index_inj.1 (by simpa [entered] using hb)
    exact ⟨[], this ▸ .entry⟩
  edges := by
    intro j k hp
    obtain ⟨blk, t, hb, ht, -⟩ := Func.precedes_iff.1 hp
    cases List.mem_singleton.1 (Array.mem_toList_iff.2 (Array.mem_of_getElem? hb))
    cases ht
  defined := by
    simp [entered, Func.definitions, Func.targets, Func.insts, Func.paramValues, Func.arity,
      Func.declare]
  joins := by
    rintro b n dst incoming ⟨blk, hb, hi⟩
    cases List.mem_singleton.1 (Array.mem_toList_iff.2 (Array.mem_of_getElem? hb))
    cases hi
  slots := by
    rintro b n i ⟨blk, hb, hi⟩
    cases List.mem_singleton.1 (Array.mem_toList_iff.2 (Array.mem_of_getElem? hb))
    cases hi

/-- Filling a declared function leaves code in strict form. -/
theorem strictSsa_of_code (hr : registry.Named) {d : Definition} {params : List String}
    (hf : st.builder.func? id = some (.declare name params))
    (hp : params.length = d.proto.arity) (hσ : st.scope = ∅)
    (h : code registry id d st = .ok u st₁) :
    ∃ f, st₁.builder.func? id = some f ∧ f.StrictSsa ∧ Bodied f d ∧ f.name = name := by
  obtain ⟨f, hf₁, bodied, hn⟩ := bodied_of_code hr hf hp hσ h
  refine ⟨f, hf₁, Func.Shaped.strictSsa ?_ bodied.definesBeforeUse, bodied, hn⟩
  simp only [code] at h
  obtain ⟨entry, s₁, h₁, h⟩ := bind_eq_ok.1 h
  obtain ⟨_, s₂, h₂, h⟩ := bind_eq_ok.1 h
  obtain ⟨_, s₃, h₃, h⟩ := bind_eq_ok.1 h
  obtain ⟨value, s₄, h₄, hret⟩ := bind_eq_ok.1 h
  obtain ⟨hs₂, scope₂⟩ := sees_entered hf h₁ h₂
  have stands₂ : Stands id ∅ (entered name params) [] s₂ ⟨entered name params, ⟨0⟩, []⟩ :=
    ⟨hs₂, framed_entered name params, .refl _, scope₂.trans hσ, by simp⟩
  obtain ⟨σ, base, w₃, stands₃⟩ := stands_parameters d.proto.params h₃ stands₂
  obtain ⟨w₄, stands₄⟩ := frames_expression hr d.body h₄ stands₃
  cases hret
  cases hf₁.symm.trans (func?_modifyBlock stands₄.sees _)
  exact (stands₄.framed.return value).shaped

/-- Filling a declared function is never refused for a defect of the code, which is folded then. -/
theorem accept_of_code (hr : registry.Named) {d : Definition} {params : List String}
    (hf : st.builder.func? id = some (.declare name params))
    (hp : params.length = d.proto.arity) (hσ : st.scope = ∅)
    (h : code registry id d st = .ok u st₁) :
    accept id st₁ = .ok () { st₁ with builder := st₁.builder.optimize id } := by
  obtain ⟨f, hf₁, strict, -, -⟩ := strictSsa_of_code hr hf hp hσ h
  have : st₁.builder.check id = .ok () := by
    simp only [Builder.check, hf₁, strict.check]
  simp only [accept, bind, EStateM.bind, builder, this]
  rfl

end Bodies

end Emit

end Kaleidoscope
