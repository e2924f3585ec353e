import Kaleidoscope.Proofs.Lowering.Defining

/-!
# Emitting into two modules

What is emitted for a form depends on what is registered, and not on the module that it goes into:
which functions are there already, in which order, and with which names of parameters. Two builders
are `Twin` if they stand at the same place of functions with the same code. Emitting the same
expression in both either fails with the same fault, which is a `Refusal`, or leaves twins
(`parallel_expression`, `parallel_code`).
-/

namespace Kaleidoscope

open Ssa

/-- The two functions have the same code, and as many values. -/
structure Ssa.Func.Twin (f f' : Func) : Prop where
  blocks : f.blocks = f'.blocks
  slots : f.slots = f'.slots
  values : f.values.size = f'.values.size

/-- The two builders stand at the same block of functions with the same code. -/
structure Builder.Twin (id id' : FuncId) (b b' : Builder) : Prop where
  place : ∃ k, b.place = ⟨id, k⟩ ∧ b'.place = ⟨id', k⟩
  func : ∃ f f', b.func? id = some f ∧ b'.func? id' = some f' ∧ f.Twin f'

/-- What refuses an expression: a name that is not known, or a call with a wrong number of
arguments. -/
def Fault.Refusal : Fault → Prop
  | .unknownVariable _ | .unknownFunction _ | .argumentCount _ _ | .unknownUnaryOperator _
  | .unknownBinaryOperator _ => True
  | _ => False

section Builders

variable {registry : Registry} {id id' : FuncId} {b b' : Builder} {k : BlockId}

theorem Builder.Twin.emitting (h : Builder.Twin id id' b b') : Emitting id b := by
  obtain ⟨⟨k, hp, -⟩, f, -, hf, -⟩ := h
  exact ⟨by rw [hp], func?_lt hf⟩

theorem Builder.Twin.emitting' (h : Builder.Twin id id' b b') : Emitting id' b' := by
  obtain ⟨⟨k, -, hp⟩, -, f, -, hf, -⟩ := h
  exact ⟨by rw [hp], func?_lt hf⟩

/-- Twins stay twins if their functions change alike. -/
theorem Builder.Twin.modifyFunc (h : Builder.Twin id id' b b') {change : Func → Func}
    (hc : ∀ {f f' : Func}, f.Twin f' → (change f).Twin (change f')) :
    Builder.Twin id id' (b.modifyFunc id change) (b'.modifyFunc id' change) := by
  obtain ⟨hp, f, f', hf, hf', ht⟩ := h
  refine ⟨hp, change f, change f', ?_, ?_, hc ht⟩
  · rw [func?_modifyFunc, if_pos rfl, hf, Option.map_some]
  · rw [func?_modifyFunc, if_pos rfl, hf', Option.map_some]

/-- The same change at the same place of the same code makes the same code. -/
theorem Builder.Twin.modifyBlock (h : Builder.Twin id id' b b') (change : Block → Block) :
    Builder.Twin id id' (b.modifyBlock change) (b'.modifyBlock change) := by
  obtain ⟨k, hp, hp'⟩ := h.place
  simp only [Builder.modifyBlock, hp, hp']
  exact h.modifyFunc fun ht => ⟨by rw [ht.blocks], ht.slots, ht.values⟩

/-- Twins number their next value alike. -/
theorem Builder.Twin.newValue (h : Builder.Twin id id' b b') (name : String) :
    (b.newValue name).1 = (b'.newValue name).1 ∧
      Builder.Twin id id' (b.newValue name).2 (b'.newValue name).2 := by
  obtain ⟨k, hp, hp'⟩ := h.place
  obtain ⟨f, f', hf, hf', ht⟩ := h.func
  simp only [Builder.newValue, hp, hp', hf, hf', Option.map_some, Option.getD_some, ht.values,
    true_and]
  exact h.modifyFunc fun ht => ⟨ht.blocks, ht.slots, by simp [ht.values]⟩

theorem Builder.Twin.define (h : Builder.Twin id id' b b') (name : String) (inst : ValueId → Inst) :
    (b.define name inst).1 = (b'.define name inst).1 ∧
      Builder.Twin id id' (b.define name inst).2 (b'.define name inst).2 := by
  obtain ⟨he, hn⟩ := h.newValue name
  simp only [Builder.define, Builder.emit, he, true_and]
  exact hn.modifyBlock _

/-- The edges of a join may come from places in different functions, as long as the blocks have the
same numbers. -/
theorem Builder.Twin.phi (h : Builder.Twin id id' b b') (name : String)
    {incoming incoming' : List (ValueId × Place)}
    (hi : incoming.map (fun edge => (edge.1, edge.2.block)) =
      incoming'.map fun edge => (edge.1, edge.2.block)) :
    (b.phi incoming name).1 = (b'.phi incoming' name).1 ∧
      Builder.Twin id id' (b.phi incoming name).2 (b'.phi incoming' name).2 := by
  obtain ⟨he, hn⟩ := h.newValue name
  simp only [Builder.phi, he, hi, true_and]
  exact hn.modifyBlock _

theorem Builder.Twin.addSlot (h : Builder.Twin id id' b b') (name : String) :
    (b.addSlot id name).1 = (b'.addSlot id' name).1 ∧
      Builder.Twin id id' (b.addSlot id name).2 (b'.addSlot id' name).2 := by
  obtain ⟨f, f', hf, hf', ht⟩ := h.func
  simp only [Builder.addSlot, hf, hf', Option.map_some, Option.getD_some, ht.slots, true_and]
  exact h.modifyFunc fun ht => ⟨ht.blocks, by rw [ht.slots], ht.values⟩

/-- Twins number their next block alike. -/
theorem Builder.Twin.appendBlock (h : Builder.Twin id id' b b') (label : String) :
    (∃ k, (b.appendBlock id label).1 = ⟨id, k⟩ ∧ (b'.appendBlock id' label).1 = ⟨id', k⟩) ∧
      Builder.Twin id id' (b.appendBlock id label).2 (b'.appendBlock id' label).2 := by
  obtain ⟨f, f', hf, hf', ht⟩ := h.func
  simp only [Builder.appendBlock, hf, hf', Option.map_some, Option.getD_some, ht.blocks]
  exact ⟨⟨_, rfl, rfl⟩, h.modifyFunc fun ht => ⟨by rw [ht.blocks], ht.slots, ht.values⟩⟩

theorem Builder.Twin.moveTo (h : Builder.Twin id id' b b') (k : BlockId) :
    Builder.Twin id id' (b.moveTo ⟨id, k⟩) (b'.moveTo ⟨id', k⟩) :=
  ⟨⟨k, rfl, rfl⟩, h.func⟩

end Builders

namespace Emit

/-- The two emitters build twins in modules that agree with the registry, in the same scope. -/
structure Twin (registry : Registry) (id id' : FuncId) (st st' : Emitter) : Prop where
  builder : Builder.Twin id id' st.builder st'.builder
  agreed : Builder.Agreed registry st.builder
  agreed' : Builder.Agreed registry st'.builder
  scope : st.scope = st'.scope

variable {registry : Registry} {id id' : FuncId} {st st' : Emitter} {α β : Type}

/-- Both emissions have succeeded and left twins, or both were refused for the same reason. -/
inductive Together (registry : Registry) (id id' : FuncId) (P : α → α → Prop) :
    EStateM.Result Fault Emitter α → EStateM.Result Fault Emitter α → Prop
  | ok {x x' : α} {t t' : Emitter} :
    Twin registry id id' t t' → P x x' → Together registry id id' P (.ok x t) (.ok x' t')
  | error {e : Fault} {t t' : Emitter} :
    e.Refusal → Together registry id id' P (.error e t) (.error e t')

/-- Carried out by twins, the two actions succeed together with so related results, or fail
together. -/
def Parallel (registry : Registry) (id id' : FuncId) (P : α → α → Prop) (a a' : Emit α) : Prop :=
  ∀ st st', Twin registry id id' st st' → Together registry id id' P (a st) (a' st')

section Rules

variable {P : α → α → Prop} {Q : β → β → Prop} {a a' : Emit α}

theorem Together.cases {r r' : EStateM.Result Fault Emitter α}
    (h : Together registry id id' P r r') :
    (∃ x x' t t', r = .ok x t ∧ r' = .ok x' t' ∧ Twin registry id id' t t' ∧ P x x') ∨
      ∃ e t t', r = .error e t ∧ r' = .error e t' ∧ e.Refusal := by
  cases h with
  | ok ht hp => exact .inl ⟨_, _, _, _, rfl, rfl, ht, hp⟩
  | error he => exact .inr ⟨_, _, _, rfl, rfl, he⟩

theorem parallel_pure {x x' : α} (h : P x x') : Parallel registry id id' P (pure x) (pure x') :=
  fun _ _ ht => .ok ht h

/-- Actions in a row stay together if the first ones do, and the second ones do for all results so
related. -/
theorem Parallel.bind {k k' : α → Emit β} (ha : Parallel registry id id' P a a')
    (hk : ∀ x x', P x x' → Parallel registry id id' Q (k x) (k' x')) :
    Parallel registry id id' Q (a >>= k) (a' >>= k') := by
  intro st st' h
  rcases (ha st st' h).cases with ⟨x, x', t, t', hs, hs', ht, hp⟩ | ⟨e, t, t', hs, hs', he⟩
  · rw [bind_of_ok hs, bind_of_ok hs']
    exact hk x x' hp t t' ht
  · rw [bind_of_error hs, bind_of_error hs']
    exact .error he

/-- An operation that widens both modules and keeps the builders twins. -/
theorem parallel_build (hr : registry.Named) {operation operation' : Builder → α × Builder}
    (hw : ∀ {b}, Emitting id b → Widens registry id b (operation b).2)
    (hw' : ∀ {b}, Emitting id' b → Widens registry id' b (operation' b).2)
    (h : ∀ {b b'}, Builder.Twin id id' b b' → P (operation b).1 (operation' b').1 ∧
      Builder.Twin id id' (operation b).2 (operation' b').2) :
    Parallel registry id id' P (build operation) (build operation') := by
  intro st st' ht
  obtain ⟨hp, hb⟩ := h ht.builder
  exact .ok ⟨hb, ht.agreed.widens hr (hw ht.builder.emitting),
    ht.agreed'.widens hr (hw' ht.builder.emitting'), ht.scope⟩ hp

/-- An operation that only widens modules and makes twins of twins can be done in both. -/
theorem parallel_change (hr : registry.Named) {operation operation' : Builder → Builder}
    (hw : ∀ {b}, Emitting id b → Widens registry id b (operation b))
    (hw' : ∀ {b}, Emitting id' b → Widens registry id' b (operation' b))
    (h : ∀ {b b'}, Builder.Twin id id' b b' → Builder.Twin id id' (operation b) (operation' b')) :
    Parallel registry id id' (· = ·) (change operation) (change operation') := by
  intro st st' ht
  exact .ok ⟨h ht.builder, ht.agreed.widens hr (hw ht.builder.emitting),
    ht.agreed'.widens hr (hw' ht.builder.emitting'), ht.scope⟩ rfl

end Rules

section Operations

theorem parallel_define (hr : registry.Named) (name : String) (inst : ValueId → Inst) :
    Parallel registry id id' (· = ·) (build (Builder.define name inst))
      (build (Builder.define name inst)) :=
  parallel_build hr (fun h => widens_define h _ _) (fun h => widens_define h _ _)
    fun h => h.define name inst

theorem parallel_store (hr : registry.Named) (src : ValueId) (slot : SlotId) :
    Parallel registry id id' (· = ·) (change (Builder.store src slot))
      (change (Builder.store src slot)) :=
  parallel_change hr (fun h => widens_modifyBlock h _) (fun h => widens_modifyBlock h _)
    fun h => h.modifyBlock _

theorem parallel_terminate (hr : registry.Named) (t : Terminator) :
    Parallel registry id id' (· = ·) (change (Builder.terminate t))
      (change (Builder.terminate t)) :=
  parallel_change hr (fun h => widens_modifyBlock h _) (fun h => widens_modifyBlock h _)
    fun h => h.modifyBlock _

theorem parallel_addSlot (hr : registry.Named) (name : String) :
    Parallel registry id id' (· = ·) (build (Builder.addSlot id name))
      (build (Builder.addSlot id' name)) :=
  have hw : ∀ {id b}, Emitting id b → Widens registry id b (b.addSlot id name).2 :=
    fun h => widens_modifyFunc h _ (fun _ => rfl) fun _ => rfl
  parallel_build hr hw hw fun h => h.addSlot name

/-- The places that come back are in different functions, with the same number. -/
theorem parallel_appendBlock (hr : registry.Named) (label : String) :
    Parallel registry id id' (fun p p' => ∃ k, p = ⟨id, k⟩ ∧ p' = ⟨id', k⟩)
      (build (Builder.appendBlock id label)) (build (Builder.appendBlock id' label)) :=
  have hw : ∀ {id b}, Emitting id b → Widens registry id b (b.appendBlock id label).2 :=
    fun h => widens_modifyFunc h _ (fun _ => rfl) fun _ => rfl
  parallel_build hr hw hw fun h => h.appendBlock label

theorem parallel_moveTo (k : BlockId) :
    Parallel registry id id' (· = ·) (change (Builder.moveTo ⟨id, k⟩))
      (change (Builder.moveTo ⟨id', k⟩)) := by
  intro st st' h
  exact .ok ⟨h.builder.moveTo k, ⟨h.agreed.registered, h.agreed.distinct⟩,
    ⟨h.agreed'.registered, h.agreed'.distinct⟩, h.scope⟩ rfl

/-- Of the blocks that a join lists only the numbers count. -/
theorem parallel_phi (hr : registry.Named) (name : String)
    {incoming incoming' : List (ValueId × Place)}
    (hi : incoming.map (fun edge => (edge.1, edge.2.block)) =
      incoming'.map fun edge => (edge.1, edge.2.block)) :
    Parallel registry id id' (· = ·) (build (Builder.phi incoming name))
      (build (Builder.phi incoming' name)) :=
  parallel_build hr (fun h => widens_phi h _ _) (fun h => widens_phi h _ _) fun h => h.phi name hi

theorem parallel_leave (hr : registry.Named) (k : BlockId) :
    Parallel registry id id' (fun p p' => ∃ k, p = ⟨id, k⟩ ∧ p' = ⟨id', k⟩)
      (leave ⟨id, k⟩) (leave ⟨id', k⟩) := by
  refine (parallel_terminate hr (.branch k)).bind fun _ _ _ => ?_
  intro st st' h
  exact .ok h h.builder.place

/-- Twins have the same scope, and so the same variables. -/
theorem parallel_slotOf (name : String) :
    Parallel registry id id' (· = ·) (slotOf name) (slotOf name) := by
  intro st st' h
  unfold slotOf
  rw [← h.scope]
  cases st.scope.get? name with
  | none => exact .error trivial
  | some slot => exact .ok h rfl

/-- What is put in scope for both is taken out again in both. -/
theorem parallel_withName {P : α → α → Prop} {a a' : Emit α}
    (h : Parallel registry id id' P a a') (name : String) (slot : SlotId) :
    Parallel registry id id' P (withName name slot a) (withName name slot a') := by
  intro st st' ht
  have inside := h { st with scope := st.scope.insert name slot }
    { st' with scope := st'.scope.insert name slot }
    ⟨ht.builder, ht.agreed, ht.agreed', by rw [ht.scope]⟩
  rcases inside.cases with ⟨x, x', t, t', hs, hs', after, hp⟩ | ⟨e, t, t', hs, hs', he⟩
  · simp only [withName, hs, hs']
    exact .ok ⟨after.builder, after.agreed, after.agreed', by rw [after.scope, ht.scope]⟩ hp
  · simp only [withName, hs, hs']
    exact .error he

end Operations

section Calls

variable {name : String}

/-- The two numbers are those of functions with the given name. -/
def Named (name : String) (f f' : FuncId) (st st' : Emitter) : Prop :=
  (∃ func, st.builder.func? f = some func ∧ func.name = name) ∧
    ∃ func, st'.builder.func? f' = some func ∧ func.name = name

/-- A function can be called if its name is registered, and else cannot. The function under
construction is not touched. -/
theorem callee?_eq (hr : registry.Named) (hb : Emitting id st.builder)
    (ha : Builder.Agreed registry st.builder) (name : String) :
    (registry.get? name = none ∧ callee? registry name st = .ok none st) ∨
      ∃ proto f t, registry.get? name = some proto ∧ callee? registry name st = .ok (some f) t ∧
        Builder.Agreed registry t.builder ∧ t.scope = st.scope ∧
        t.builder.place = st.builder.place ∧ t.builder.func? id = st.builder.func? id ∧
        ∃ func, t.builder.func? f = some func ∧ func.name = name ∧ func.arity = proto.arity := by
  have here : builder st = .ok st.builder st := rfl
  rw [callee?, bind_of_ok here]
  cases hf : st.builder.find? name with
  | some f =>
    obtain ⟨func, hfunc, rfl⟩ := find?_eq_some hf
    obtain ⟨proto, hp, harity⟩ := ha.registered hfunc
    exact .inr ⟨proto, f, st, hp, rfl, ha, rfl, rfl, rfl, func, hfunc, rfl, harity.symm⟩
  | none =>
    cases hp : registry.get? name with
    | none => exact .inl ⟨rfl, rfl⟩
    | some proto =>
      obtain rfl := hr name proto hp
      have hw := widens_declare hb hp
      have hd := declare_of_none hf proto.params
      let t : Emitter :=
        { st with builder := (st.builder.declare proto.name proto.params).2 }
      have new : t.builder.module.functions =
          st.builder.module.functions.push (.declare proto.name proto.params) := by
        simp only [t, hd]
      refine .inr ⟨proto, ⟨st.builder.module.functions.size⟩, t, rfl, ?_, ha.widens hr hw, rfl, ?_,
        ?_, .declare proto.name proto.params, ?_, rfl, rfl⟩
      · show EStateM.Result.ok (some (st.builder.declare proto.name proto.params).1) t = _
        rw [hd]
      · simp only [t, hd]
      · rw [Builder.func?, Module.get?, new, Array.getElem?_push,
          if_neg (Nat.ne_of_lt hb.bound)]
        rfl
      · rw [Builder.func?, Module.get?, new]
        simp

/-- Twins call functions of the same name and arity, or none. -/
theorem Twin.callee? (hr : registry.Named) (h : Twin registry id id' st st') (name : String) :
    (callee? registry name st = .ok none st ∧ callee? registry name st' = .ok none st') ∨
      ∃ f f' t t', callee? registry name st = .ok (some f) t ∧
        callee? registry name st' = .ok (some f') t' ∧ Twin registry id id' t t' ∧
        Named name f f' t t' ∧ t.builder.arity f = t'.builder.arity f' := by
  rcases callee?_eq hr h.builder.emitting h.agreed name with
    ⟨hp, he⟩ | ⟨proto, f, t, hp, he, ha, hs, place, same, func, hf, hn, harity⟩
  · rcases callee?_eq hr h.builder.emitting' h.agreed' name with
      ⟨-, he'⟩ | ⟨proto', f', t', hp', -⟩
    · exact .inl ⟨he, he'⟩
    · cases hp.symm.trans hp'
  · rcases callee?_eq hr h.builder.emitting' h.agreed' name with
      ⟨hp', -⟩ | ⟨proto', f', t', hp', he', ha', hs', place', same', func', hf', hn', harity'⟩
    · cases hp.symm.trans hp'
    · cases hp.symm.trans hp'
      obtain ⟨⟨k, hk, hk'⟩, g, g', hg, hg', twin⟩ := h.builder
      refine .inr ⟨f, f', t, t', he, he', ⟨⟨⟨k, place.trans hk, place'.trans hk'⟩, g, g',
        same.trans hg, same'.trans hg', twin⟩, ha, ha', hs.trans (h.scope.trans hs'.symm)⟩,
        ⟨⟨func, hf, hn⟩, func', hf', hn'⟩, ?_⟩
      simp [Builder.arity, hf, hf', harity, harity']

/-- A call of functions with the same name. -/
theorem Twin.call (hr : registry.Named) (h : Twin registry id id' st st') {f f' : FuncId}
    (hn : Named name f f' st st') (args : List ValueId) (label : String) :
    Together registry id id' (· = ·) (build (Builder.call f args label) st)
      (build (Builder.call f' args label) st') := by
  obtain ⟨⟨func, hf, rfl⟩, func', hf', hn'⟩ := hn
  rw [build_call hf, build_call hf', hn']
  exact parallel_define hr label _ _ _ h

/-- Whether a function is known is a matter of the registry, and it is the same for both. -/
theorem parallel_operator (hr : registry.Named) {unknown : Fault} (hu : unknown.Refusal)
    (args : List ValueId) (label : String) :
    Parallel registry id id' (· = ·) (operator registry name unknown args label)
      (operator registry name unknown args label) := by
  intro st st' h
  unfold operator
  rcases h.callee? hr name with ⟨he, he'⟩ | ⟨f, f', t, t', he, he', ht, hn, -⟩
  · rw [bind_of_ok he, bind_of_ok he']
    exact .error hu
  · rw [bind_of_ok he, bind_of_ok he']
    exact ht.call hr hn args label

/-- Built in operators need no function, and the others are called by name. -/
theorem parallel_binary (hr : registry.Named) (op : Char) (lhs rhs : ValueId) :
    Parallel registry id id' (· = ·) (binary registry op lhs rhs) (binary registry op lhs rhs) := by
  unfold binary
  split
  · exact parallel_define hr _ _
  · exact parallel_define hr _ _
  · exact parallel_define hr _ _
  · exact parallel_define hr _ _
  · have hu : (Fault.unknownBinaryOperator op).Refusal := trivial
    exact parallel_operator hr hu _ _

/-- Twins are refused a call together, or find functions of the same name. -/
theorem Twin.calleeOf (hr : registry.Named) (h : Twin registry id id' st st') (name : String)
    (given : Nat) :
    (∃ e t t', calleeOf registry name given st = .error e t ∧
        calleeOf registry name given st' = .error e t' ∧ e.Refusal) ∨
      ∃ f f' t t', calleeOf registry name given st = .ok f t ∧
        calleeOf registry name given st' = .ok f' t' ∧ Twin registry id id' t t' ∧
        Named name f f' t t' := by
  unfold Emit.calleeOf
  rcases h.callee? hr name with ⟨he, he'⟩ | ⟨f, f', t, t', he, he', ht, hn, harity⟩
  · rw [bind_of_ok he, bind_of_ok he']
    exact .inl ⟨_, _, _, rfl, rfl, trivial⟩
  · rw [bind_of_ok he, bind_of_ok he']
    have hb : ∀ st : Emitter, Emit.builder st = .ok st.builder st := fun _ => rfl
    simp only [bind_of_ok (hb _), ← harity]
    split
    · exact .inr ⟨f, f', t, t', rfl, rfl, ht, hn⟩
    · exact .inl ⟨_, _, _, rfl, rfl, trivial⟩

end Calls

section Expressions

theorem parallel_expressions {es : List Expr} (h : ∀ e ∈ es,
      Parallel registry id id' (· = ·) (expression registry id e) (expression registry id' e)) :
    Parallel registry id id' (· = ·) (expressions registry id es) (expressions registry id' es) := by
  induction es with
  | nil =>
    simp only [expressions]
    exact parallel_pure rfl
  | cons e es ih =>
    simp only [expressions]
    refine (h e (by simp)).bind fun v _ hv => ?_
    refine (ih fun e he => h e (List.mem_cons_of_mem _ he)).bind fun vs _ hvs => ?_
    exact parallel_pure (by rw [hv, hvs])

/-- Emitting other expressions does not change the name of a function. -/
theorem Named.expressions {name : String} {f f' : FuncId} {t t' : Emitter} {es : List Expr}
    {vs vs' : List ValueId} (hn : Named name f f' st st')
    (he : expressions registry id es st = .ok vs t)
    (he' : Emit.expressions registry id' es st' = .ok vs' t') : Named name f f' t t' := by
  obtain ⟨⟨func, hf, rfl⟩, func', hf', hn'⟩ := hn
  obtain ⟨later, hl, he⟩ := name_of_expressions he hf
  obtain ⟨later', hl', he'⟩ := name_of_expressions he' hf'
  exact ⟨⟨later, hl, he⟩, later', hl', he'.trans hn'⟩

/-- The callee and the number of its arguments are looked at before the arguments are emitted, in
both. -/
theorem parallel_call (hr : registry.Named) (callee : String) {args : List Expr} (ih : ∀ e ∈ args,
      Parallel registry id id' (· = ·) (expression registry id e) (expression registry id' e)) :
    Parallel registry id id' (· = ·) (expression registry id (.call callee args))
      (expression registry id' (.call callee args)) := by
  intro st st' h
  simp only [expression]
  rcases h.calleeOf hr callee args.length with
    ⟨e, t, t', he, he', refusal⟩ | ⟨f, f', t, t', he, he', ht, hn⟩
  · rw [bind_of_error he, bind_of_error he']
    exact .error refusal
  · rw [bind_of_ok he, bind_of_ok he']
    rcases (parallel_expressions ih t t' ht).cases with
      ⟨vs, _, u, u', hs, hs', hu, rfl⟩ | ⟨e, u, u', hs, hs', refusal⟩
    · rw [bind_of_ok hs, bind_of_ok hs']
      exact hu.call hr (hn.expressions hs hs') vs "calltmp"
    · rw [bind_of_error hs, bind_of_error hs']
      exact .error refusal

/-- Twins emit an expression alike. -/
theorem parallel_expression (hr : registry.Named) (e : Expr) :
    Parallel registry id id' (· = ·) (expression registry id e) (expression registry id' e) := by
  induction e using Expr.induct with
  | number x =>
    simp only [expression]
    exact parallel_define hr _ _
  | name x =>
    simp only [expression]
    refine (parallel_slotOf x).bind fun slot _ he => ?_
    subst he
    exact parallel_define hr _ _
  | unary op e ih =>
    simp only [expression]
    refine ih.bind fun v _ he => ?_
    subst he
    have hu : (Fault.unknownUnaryOperator op).Refusal := trivial
    exact parallel_operator hr hu _ _
  | binary op l r ihl ihr =>
    simp only [expression]
    refine ihl.bind fun v _ hv => ihr.bind fun u _ hu => ?_
    subst hv hu
    exact parallel_binary hr op v u
  | conditional c y n ihc ihy ihn =>
    simp only [expression]
    refine ihc.bind fun v _ hv => ?_
    subst hv
    refine (parallel_define hr _ _).bind fun truth _ ht => ?_
    subst ht
    -- places are of different functions, so they are taken apart into the number they share
    refine (parallel_appendBlock hr _).bind ?_
    rintro _ _ ⟨yes, rfl, rfl⟩
    refine (parallel_appendBlock hr _).bind ?_
    rintro _ _ ⟨no, rfl, rfl⟩
    refine (parallel_appendBlock hr _).bind ?_
    rintro _ _ ⟨join, rfl, rfl⟩
    refine (parallel_terminate hr _).bind fun _ _ _ => (parallel_moveTo yes).bind fun _ _ _ => ?_
    refine ihy.bind fun v _ hv => (parallel_leave hr join).bind ?_
    rintro _ _ ⟨yesEnd, rfl, rfl⟩
    subst hv
    refine (parallel_moveTo no).bind fun _ _ _ => ihn.bind fun u _ hu => ?_
    refine (parallel_leave hr join).bind ?_
    rintro _ _ ⟨noEnd, rfl, rfl⟩
    subst hu
    exact (parallel_moveTo join).bind fun _ _ _ => parallel_phi hr _ rfl
  | loop var start goOn step body ihs ihg iht ihb =>
    simp only [expression, stepOf_eq]
    refine (parallel_addSlot hr _).bind fun slot _ hslot => ihs.bind fun first _ hfirst => ?_
    subst hslot hfirst
    refine (parallel_store hr _ _).bind fun _ _ _ => (parallel_appendBlock hr _).bind ?_
    rintro _ _ ⟨top, rfl, rfl⟩
    refine (parallel_terminate hr _).bind fun _ _ _ => (parallel_moveTo top).bind fun _ _ _ => ?_
    refine Parallel.bind (P := (· = ·)) (parallel_withName ?_ var slot) fun _ _ _ => ?_
    · refine ihb.bind fun _ _ _ => iht.bind fun growth _ hg => ?_
      refine (parallel_define hr _ _).bind fun current _ hc => ?_
      subst hg hc
      refine (parallel_define hr _ _).bind fun next _ hn => ?_
      subst hn
      refine (parallel_store hr _ _).bind fun _ _ _ => ihg.bind fun value _ hv => ?_
      subst hv
      refine (parallel_define hr _ _).bind fun truth _ ht => (parallel_appendBlock hr _).bind ?_
      rintro _ _ ⟨after, rfl, rfl⟩
      subst ht
      exact (parallel_terminate hr _).bind fun _ _ _ => parallel_moveTo after
    · exact parallel_define hr _ _
  | call callee args ih => exact parallel_call hr callee ih

theorem parallel_parameters (hr : registry.Named) (params : List String) :
    ∀ index, Parallel registry id id' (· = ·) (parameters id index params)
      (parameters id' index params) := by
  induction params with
  | nil =>
    intro index
    exact parallel_pure rfl
  | cons p ps ih =>
    intro index
    unfold parameters
    refine (parallel_addSlot hr _).bind fun slot _ he => ?_
    subst he
    refine (parallel_store hr _ _).bind fun _ _ _ => ?_
    refine Parallel.bind (P := (· = ·)) (fun st st' h => ?_) fun _ _ _ => ih _
    exact .ok ⟨h.builder, h.agreed, h.agreed', by rw [h.scope]⟩ rfl

/-- In two modules that agree with the same registry, the code of a definition goes into its declared
function alike. -/
theorem parallel_code (hr : registry.Named) {b b' : Builder} {name name' : String}
    {params params' : List String} (ha : Builder.Agreed registry b)
    (ha' : Builder.Agreed registry b') (hf : b.func? id = some (.declare name params))
    (hf' : b'.func? id' = some (.declare name' params')) (hl : params.length = params'.length)
    (d : Definition) :
    Together registry id id' (· = ·) (code registry id d { builder := b })
      (code registry id' d { builder := b' }) := by
  obtain ⟨sees, -⟩ := @sees_entered id { builder := b } _ _ _ _ _ _ hf rfl rfl
  obtain ⟨sees', -⟩ := @sees_entered id' { builder := b' } _ _ _ _ _ _ hf' rfl rfl
  have twin : Func.Twin (entered name params) (entered name' params') :=
    ⟨rfl, rfl, by simpa [entered, Func.declare] using hl⟩
  have start : Twin registry id id' _ _ := ⟨⟨⟨_, sees.place, sees'.place⟩, _, _, sees.func,
    sees'.func, twin⟩, ha.entered hr (func?_lt hf), ha'.entered hr (func?_lt hf'), rfl⟩
  have rest : Parallel registry id id' (· = ·) (do
        parameters id 0 d.proto.params
        let value ← expression registry id d.body
        change (Builder.ret value)) (do
        parameters id' 0 d.proto.params
        let value ← expression registry id' d.body
        change (Builder.ret value)) := by
    refine (parallel_parameters hr _ 0).bind fun _ _ _ => ?_
    refine (parallel_expression hr d.body).bind fun v _ hv => ?_
    subst hv
    exact parallel_terminate hr (.ret v)
  exact rest _ _ start

/-- What refuses the code of a definition is never a defect of the code. -/
theorem refusal_of_code (hr : registry.Named) {b : Builder} {name : String} {params : List String}
    (ha : Builder.Agreed registry b) (hf : b.func? id = some (.declare name params))
    {d : Definition} {e : Fault} (h : code registry id d { builder := b } = .error e st) :
    e.Refusal := by
  have together := parallel_code hr ha ha hf hf rfl d
  rw [h] at together
  cases together with
  | error refusal => exact refusal

end Expressions

end Emit

end Kaleidoscope
