import Kaleidoscope.Proofs.Evaluation.Safety
import Kaleidoscope.Proofs.Lowering.Defining
import Kaleidoscope.Proofs.Reading.Spelling

/-!
# What lowering checks

Emitting a call needs a registered prototype of its name with as many parameters as the call has
arguments, and emitting a variable needs it in scope. So the body of a definition that is accepted is
well called, by what the registry then knows (`Lower.wellCalled_of_definition`). The number of
operands of an operator is not compared with anything: here it counts that a prototype with the name
of an operator's function cannot be read with another number of parameters (`Registry.Regular`).
-/

namespace Kaleidoscope

open Ssa

/-- The name, which is not the one that wraps bare expressions, is registered with so many
parameters. -/
def Registry.Knows (registry : Registry) (name : String) (n : Nat) : Prop :=
  name ≠ anonymousName ∧ ∃ proto, registry.get? name = some proto ∧ proto.arity = n

/-- What is registered was read from a source, or wraps a bare expression. -/
def Registry.Regular (registry : Registry) : Prop :=
  ∀ name proto, registry.get? name = some proto → proto.Regular ∨ name = anonymousName

section Registries

variable {registry : Registry} {name : String} {n : Nat} {proto : Prototype}

/-- A name is known with one number of parameters only. -/
theorem Registry.Knows.eq (h : registry.Knows name n) {m : Nat} (h' : registry.Knows name m) :
    m = n := by
  obtain ⟨-, p, hp, rfl⟩ := h
  obtain ⟨-, q, hq, rfl⟩ := h'
  rw [hp] at hq
  cases hq
  rfl

/-- Registering a prototype that agrees with what is known adds to it. -/
theorem Registry.Knows.insert (h : registry.Knows name n)
    (ha : ∀ p, registry.get? proto.name = some p → p.arity = proto.arity) :
    Registry.Knows (registry.insert proto.name proto) name n := by
  obtain ⟨hne, p, hp, rfl⟩ := h
  refine ⟨hne, ?_⟩
  rw [Dict.get?_insert]
  split
  · next he => exact ⟨proto, rfl, (ha p (he ▸ hp)).symm⟩
  · exact ⟨p, hp, rfl⟩

/-- Registering a prototype adds nothing but its name. -/
theorem Registry.Knows.of_insert (h : Registry.Knows (registry.insert proto.name proto) name n) :
    name = proto.name ∨ registry.Knows name n := by
  obtain ⟨hne, p, hp, ha⟩ := h
  rw [Dict.get?_insert] at hp
  split at hp
  · next he => exact .inl he
  · exact .inr ⟨hne, p, hp, ha⟩

theorem Registry.knows_insert_self (hne : proto.name ≠ anonymousName) :
    Registry.Knows (registry.insert proto.name proto) proto.name proto.arity :=
  ⟨hne, proto, Dict.get?_insert_self _ _ _, rfl⟩

theorem Registry.Regular.insert (h : registry.Regular)
    (hp : proto.Regular ∨ proto.name = anonymousName) :
    Registry.Regular (registry.insert proto.name proto) := by
  intro name p hget
  rw [Dict.get?_insert] at hget
  split at hget
  · next he =>
    cases hget
    exact hp.imp_right he.trans
  · exact h name p hget

/-- The function of a unary operator has one parameter: no prototype of its name can be read that
has another number of them. -/
theorem Registry.Regular.knows_unaryName (h : registry.Regular) (hn : registry.Named) {op : Char}
    (hs : Sign op) (hp : registry.get? (unaryName op) = some proto) :
    registry.Knows (unaryName op) 1 := by
  have hne := unaryName_ne_anonymousName op
  have regular : proto.Regular := (h _ _ hp).resolve_right hne
  exact ⟨hne, proto, hp, regular.arity_of_unaryName hs (hn _ _ hp)⟩

/-- The function of a binary operator has two parameters, for the same reason. -/
theorem Registry.Regular.knows_binaryName (h : registry.Regular) (hn : registry.Named) {op : Char}
    (hs : Sign op) (hp : registry.get? (binaryName op) = some proto) :
    registry.Knows (binaryName op) 2 := by
  have hne := binaryName_ne_anonymousName op
  have regular : proto.Regular := (h _ _ hp).resolve_right hne
  exact ⟨hne, proto, hp, regular.arity_of_binaryName hs (hn _ _ hp)⟩

end Registries

namespace Emit

variable {registry : Registry} {id : FuncId} {vars : List String} {α : Type} {st st' : Emitter}

/-- The emitter builds the given function in a module that agrees with the registry, and the names in
its scope are among the variables. -/
structure Ready (registry : Registry) (id : FuncId) (vars : List String) (st : Emitter) : Prop where
  emitting : Emitting id st.builder
  agreed : Builder.Agreed registry st.builder
  scope : ∀ x, (st.scope.get? x).isSome → x ∈ vars

/-- Emitting keeps the emitter ready, its result satisfies `P`, and a fault is one of the form. -/
abbrev Checks (registry : Registry) (id : FuncId) (vars : List String) (P : α → Prop)
    (a : Emit α) : Prop :=
  Keeps (Ready registry id vars) P Fault.Static a

theorem Ready.widens (h : Ready registry id vars st) (hn : registry.Named)
    (hw : Widens registry id st.builder st'.builder) (hs : st'.scope = st.scope) :
    Ready registry id vars st' where
  emitting := hw.emitting h.emitting
  agreed := h.agreed.widens hn hw
  scope := hs ▸ h.scope

section Operations

/-- Operations of the builder do not fail. -/
theorem checks_build (hn : registry.Named) {operation : Builder → α × Builder}
    (h : ∀ {b}, Emitting id b → Widens registry id b (operation b).2) :
    Checks registry id vars (fun _ => True) (build operation) where
  ok hi hr := by
    cases hr
    exact ⟨hi.widens hn (h hi.emitting) rfl, trivial⟩
  error _ hr := nomatch hr

theorem checks_change (hn : registry.Named) {operation : Builder → Builder}
    (h : ∀ {b}, Emitting id b → Widens registry id b (operation b)) :
    Checks registry id vars (fun _ => True) (change operation) where
  ok hi hr := by
    cases hr
    exact ⟨hi.widens hn (h hi.emitting) rfl, trivial⟩
  error _ hr := nomatch hr

theorem checks_builder : Checks registry id vars (fun _ => True) builder where
  ok hi hr := by
    cases hr
    exact ⟨hi, trivial⟩
  error _ hr := nomatch hr

theorem checks_define (hn : registry.Named) (name : String) (inst : ValueId → Inst) :
    Checks registry id vars (fun _ => True) (build (Builder.define name inst)) :=
  checks_build hn fun hb => widens_define hb name inst

theorem checks_store (hn : registry.Named) (src : ValueId) (slot : SlotId) :
    Checks registry id vars (fun _ => True) (change (Builder.store src slot)) :=
  checks_change hn fun hb => widens_modifyBlock hb _

theorem checks_terminate (hn : registry.Named) (term : Terminator) :
    Checks registry id vars (fun _ => True) (change (Builder.terminate term)) :=
  checks_change hn fun hb => widens_modifyBlock hb _

theorem checks_addSlot (hn : registry.Named) (name : String) :
    Checks registry id vars (fun _ => True) (build (Builder.addSlot id name)) :=
  checks_build hn fun hb => widens_modifyFunc hb _ (fun _ => rfl) fun _ => rfl

theorem checks_appendBlock (hn : registry.Named) (label : String) :
    Checks registry id vars (fun place => place.func = id)
      (build (Builder.appendBlock id label)) where
  ok hi hr := by
    cases hr
    exact ⟨hi.widens hn (widens_modifyFunc hi.emitting _ (fun _ => rfl) fun _ => rfl) rfl, rfl⟩
  error _ hr := nomatch hr

theorem checks_moveTo {place : Place} (h : place.func = id) :
    Checks registry id vars (fun _ => True) (change (Builder.moveTo place)) where
  ok hi hr := by
    cases hr
    exact ⟨⟨⟨h, hi.emitting.bound⟩, ⟨hi.agreed.registered, hi.agreed.distinct⟩, hi.scope⟩, trivial⟩
  error _ hr := nomatch hr

theorem checks_leave (hn : registry.Named) (dest : Place) :
    Checks registry id vars (fun _ => True) (leave dest) :=
  (checks_terminate hn _).bind fun _ _ => checks_builder.bind fun _ _ => keeps_pure trivial

/-- A variable that is emitted is in scope. -/
theorem checks_slotOf (x : String) : Checks registry id vars (fun _ => x ∈ vars) (slotOf x) where
  ok hi hr := by
    unfold slotOf at hr
    split at hr <;> cases hr
    next hs => exact ⟨hi, hi.scope x (by rw [hs]; rfl)⟩
  error hi hr := by
    unfold slotOf at hr
    split at hr <;> cases hr
    exact ⟨hi, nofun⟩

/-- A name that is bound for an action is a variable there, and only there. -/
theorem checks_withName {x : String} {P : α → Prop} {a : Emit α}
    (h : Checks registry id (x :: vars) P a) (slot : SlotId) :
    Checks registry id vars P (withName x slot a) := by
  have inner : ∀ {st}, Ready registry id vars st →
      Ready registry id (x :: vars) { st with scope := st.scope.insert x slot } := by
    intro st hi
    refine ⟨hi.emitting, hi.agreed, fun y hy => ?_⟩
    rw [Scope.get?_insert] at hy
    split at hy
    · next he => exact he ▸ List.mem_cons_self
    · exact List.mem_cons_of_mem _ (hi.scope y hy)
  have outer : ∀ {st t}, Ready registry id vars st → Ready registry id (x :: vars) t →
      Ready registry id vars { t with scope := t.scope.put x (st.scope.get? x) } := by
    intro st t hi after
    refine ⟨after.emitting, after.agreed, fun y hy => ?_⟩
    rw [Scope.get?_put] at hy
    split at hy
    · next he => exact he ▸ hi.scope x hy
    · next he => exact (List.mem_cons.1 (after.scope y hy)).resolve_left he
  constructor
  · intro st b st' hi hr
    unfold withName at hr
    split at hr <;> cases hr
    next ha =>
    obtain ⟨after, hp⟩ := h.ok (inner hi) ha
    exact ⟨outer hi after, hp⟩
  · intro st e st' hi hr
    unfold withName at hr
    split at hr <;> cases hr
    next ha =>
    obtain ⟨after, he⟩ := h.error (inner hi) ha
    exact ⟨outer hi after, he⟩

end Operations

section Calls

variable {name : String}

/-- A function of the module is registered with as many parameters as it has. -/
theorem knows_of_callee? (hn : registry.Named) {f : FuncId}
    (h : callee? registry name st = .ok (some f) st') (hr : Ready registry id vars st') :
    ∃ proto, registry.get? name = some proto ∧ proto.arity = st'.builder.arity f := by
  obtain ⟨func, hf, rfl⟩ := name_of_callee? hn h
  obtain ⟨proto, hp, ha⟩ := hr.agreed.registered hf
  exact ⟨proto, hp, by simp [Builder.arity, hf, ha]⟩

/-- A function that is found, in the module or by declaring it, is registered under the name. -/
theorem checks_callee? (hn : registry.Named) (name : String) :
    Checks registry id vars (fun o => ∀ f ∈ o, ∃ proto, registry.get? name = some proto)
      (callee? registry name) := by
  have kept : Checks registry id vars (fun _ => True) (callee? registry name) := by
    apply checks_builder.bind
    intro b _
    split
    · exact keeps_pure trivial
    · split
      · next hp =>
        exact (checks_build hn fun hb => widens_declare hb hp).bind fun _ _ => keeps_pure trivial
      · exact keeps_pure trivial
  refine ⟨fun {st o st'} hi hr => ?_, kept.error⟩
  have ready := (kept.ok hi hr).1
  refine ⟨ready, fun f hf => ?_⟩
  cases hf
  obtain ⟨proto, hp, -⟩ := knows_of_callee? hn hr ready
  exact ⟨proto, hp⟩

/-- A call is emitted only with the number of arguments that is known for its name. -/
theorem checks_calleeOf (hn : registry.Named) (hne : name ≠ anonymousName) (given : Nat) :
    Checks registry id vars (fun _ => registry.Knows name given)
      (calleeOf registry name given) := by
  constructor
  · intro st f st' hi hr
    unfold calleeOf at hr
    obtain ⟨o, st₁, ho, hr⟩ := bind_eq_ok.1 hr
    have ready := ((checks_callee? hn name).ok hi ho).1
    cases o with
    | none => cases hr
    | some g =>
      obtain ⟨proto, hp, ha⟩ := knows_of_callee? hn ho ready
      obtain ⟨b, st₂, hb, hr⟩ := bind_eq_ok.1 hr
      cases hb
      split at hr <;> cases hr
      next hg => exact ⟨ready, hne, proto, hp, ha.trans hg⟩
  · intro st e st' hi hr
    unfold calleeOf at hr
    rcases bind_eq_error.1 hr with hr | ⟨o, st₁, ho, hr⟩
    · exact (checks_callee? hn name).error hi hr
    have ready := ((checks_callee? hn name).ok hi ho).1
    cases o with
    | none =>
      cases hr
      exact ⟨ready, nofun⟩
    | some g =>
      rcases bind_eq_error.1 hr with hr | ⟨b, st₂, hb, hr⟩
      · cases hr
      cases hb
      split at hr <;> cases hr
      exact ⟨ready, nofun⟩

/-- The function of an operator has to be registered, and its parameters are not counted. -/
theorem checks_operator (hn : registry.Named) {unknown : Fault} (hu : unknown.Static)
    (args : List ValueId) (label : String) :
    Checks registry id vars (fun _ => ∃ proto, registry.get? name = some proto)
      (operator registry name unknown args label) := by
  unfold operator
  apply (checks_callee? hn name).bind
  intro o ho
  cases o with
  | none => exact keeps_throw hu
  | some f => exact (checks_build hn fun hb => widens_call hb f args label).mono fun _ _ => ho f rfl

/-- A binary operation that is not built in is a call of a function that is known with two
parameters. -/
theorem checks_binary (hn : registry.Named) (hr : registry.Regular) {op : Char} (hs : Sign op)
    (lhs rhs : ValueId) :
    Checks registry id vars
      (fun _ => op ≠ '+' → op ≠ '-' → op ≠ '*' → op ≠ '<' → registry.Knows (binaryName op) 2)
      (binary registry op lhs rhs) := by
  unfold binary
  split
  · exact (checks_define hn _ _).mono fun _ _ h => absurd rfl h
  · exact (checks_define hn _ _).mono fun _ _ _ h => absurd rfl h
  · exact (checks_define hn _ _).mono fun _ _ _ _ h => absurd rfl h
  · exact (checks_define hn _ _).mono fun _ _ _ _ _ h => absurd rfl h
  · have hu : (Fault.unknownBinaryOperator op).Static := nofun
    refine (checks_operator hn hu _ _).mono fun _ ⟨proto, hp⟩ _ _ _ _ => ?_
    exact hr.knows_binaryName hn hs hp

end Calls

section Expressions

/-- Arguments are emitted from left to right, and all of them are well called. -/
theorem checks_expressions {es : List Expr}
    (h : ∀ e ∈ es, Checks registry id vars (fun _ => e.WellCalled registry.Knows vars)
      (expression registry id e)) :
    Checks registry id vars (fun _ => ∀ e ∈ es, e.WellCalled registry.Knows vars)
      (expressions registry id es) := by
  induction es with
  | nil =>
    simp only [expressions]
    exact keeps_pure (by simp)
  | cons e es ih =>
    simp only [expressions]
    apply (h e (by simp)).bind
    intro _ he
    refine (ih fun e he => h e (List.mem_cons_of_mem _ he)).bind fun _ hes => keeps_pure ?_
    exact List.forall_mem_cons.2 ⟨he, hes⟩

/-- An expression whose code could be emitted is well called. -/
theorem checks_expression (hn : registry.Named) (hr : registry.Regular) (e : Expr) :
    ∀ {vars}, e.Spelled Word Sign → Checks registry id vars
      (fun _ => e.WellCalled registry.Knows vars) (expression registry id e) := by
  induction e using Expr.induct with
  | number x =>
    intro vars _
    simp only [expression]
    exact (checks_define hn _ _).mono fun _ _ => .number
  | name x =>
    intro vars _
    simp only [expression]
    exact (checks_slotOf x).bind fun _ hx => (checks_define hn _ _).mono fun _ _ => .name hx
  | unary op e ih =>
    intro vars h
    cases h with
    | unary hs he =>
      have hu : (Fault.unknownUnaryOperator op).Static := fun _ h => by cases h
      simp only [expression]
      refine (ih he).bind fun _ hw => (checks_operator hn hu _ _).mono fun _ registered => ?_
      obtain ⟨proto, hp⟩ := registered
      exact .unary (hr.knows_unaryName hn hs hp) hw
  | binary op l r ihl ihr =>
    intro vars h
    cases h with
    | binary hs hl hr' =>
      simp only [expression]
      refine (ihl hl).bind fun _ hwl => (ihr hr').bind fun _ hwr => ?_
      exact (checks_binary hn hr hs _ _).mono fun _ hc => .binary hc hwl hwr
  | conditional c y n ihc ihy ihn =>
    intro vars h
    cases h with
    | conditional hc hy hno =>
      simp only [expression]
      refine (ihc hc).bind fun _ hwc => (checks_define hn _ _).bind fun _ _ => ?_
      apply (checks_appendBlock hn _).bind
      intro yes hyes
      apply (checks_appendBlock hn _).bind
      intro no hnoPlace
      apply (checks_appendBlock hn _).bind
      intro join hjoin
      refine (checks_terminate hn _).bind fun _ _ => (checks_moveTo hyes).bind fun _ _ => ?_
      refine (ihy hy).bind fun _ hwy => (checks_leave hn _).bind fun _ _ => ?_
      refine (checks_moveTo hnoPlace).bind fun _ _ => (ihn hno).bind fun _ hwn => ?_
      refine (checks_leave hn _).bind fun _ _ => (checks_moveTo hjoin).bind fun _ _ => ?_
      refine (checks_build hn fun hb => widens_phi hb _ _).mono fun _ _ => ?_
      exact .conditional hwc hwy hwn
  | loop var start goOn step body ihs ihg iht ihb =>
    intro vars h
    cases h with
    | loop _ hstart hgoOn hstep hbody =>
      simp only [expression, stepOf_eq]
      refine (checks_addSlot hn _).bind fun _ _ => (ihs hstart).bind fun _ hws => ?_
      refine (checks_store hn _ _).bind fun _ _ => (checks_appendBlock hn _).bind fun top htop => ?_
      refine (checks_terminate hn _).bind fun _ _ => (checks_moveTo htop).bind fun _ _ => ?_
      -- the variable is in scope for the turn only, so what it comes to is said in front
      refine Keeps.bind (P := fun _ => Expr.WellCalled registry.Knows vars
        (.loop var start goOn step body)) (checks_withName ?_ _) fun _ hw => ?_
      · refine (ihb hbody).bind fun _ hwb => (iht (spelled_stepOrOne hstep)).bind fun _ hwt => ?_
        refine (checks_define hn _ _).bind fun _ _ => (checks_define hn _ _).bind fun _ _ => ?_
        refine (checks_store hn _ _).bind fun _ _ => (ihg hgoOn).bind fun _ hwg => ?_
        apply (checks_define hn _ _).bind
        intro _ _
        apply (checks_appendBlock hn _).bind
        intro after hafter
        refine (checks_terminate hn _).bind fun _ _ => (checks_moveTo hafter).mono fun _ _ => ?_
        exact .loop hws hwg hwt hwb
      · exact (checks_define hn _ _).mono fun _ _ => hw
  | call callee args ih =>
    intro vars h
    cases h with
    | call hword hargs =>
      -- this is where the name must be a word: the anonymous function is registered too
      have hne : callee ≠ anonymousName := by
        rintro rfl
        exact not_word_anonymousName hword
      simp only [expression]
      apply (checks_calleeOf hn hne _).bind
      intro _ hc
      refine (checks_expressions fun e he => ih e he (hargs e he)).bind fun _ hw => ?_
      exact (checks_build hn fun hb => widens_call hb _ _ _).mono fun _ _ => .call hc hw

/-- The slots of the parameters are named after them. -/
theorem checks_parameters (hn : registry.Named) {params : List String} :
    ∀ {index}, (∀ p ∈ params, p ∈ vars) →
      Checks registry id vars (fun _ => True) (parameters id index params) := by
  induction params with
  | nil =>
    intro index _
    exact keeps_pure trivial
  | cons p ps ih =>
    intro index h
    have bind : ∀ slot, Checks registry id vars (fun _ => True) (bindName p slot) := by
      refine fun slot => ⟨fun hi hr => ?_, fun _ hr => nomatch hr⟩
      cases hr
      refine ⟨⟨hi.emitting, hi.agreed, fun y hy => ?_⟩, trivial⟩
      rw [Scope.get?_insert] at hy
      split at hy
      · next he => exact he ▸ h p (by simp)
      · exact hi.scope y hy
    unfold parameters
    refine (checks_addSlot hn _).bind fun slot _ => (checks_store hn _ _).bind fun _ _ => ?_
    exact (bind slot).bind fun _ _ => ih fun q hq => h q (List.mem_cons_of_mem _ hq)

/-- A defect of the code is no fault of a run. -/
theorem static_of_check {b : Builder} {f : FuncId} {e : Fault} (h : b.check f = .error e) :
    e.Static := by
  unfold Builder.check at h
  split at h
  · unfold Func.check at h
    split at h <;> cases h
    exact nofun
  · cases h

theorem checks_accept (hn : registry.Named) :
    Checks registry id vars (fun _ => True) (accept id) := by
  apply checks_builder.bind
  intro b _
  split
  · exact checks_change hn fun hb => widens_modifyFunc hb _ (fun _ => rfl) fun _ => rfl
  · next he => exact keeps_throw (static_of_check he)

/-- A definition whose body could be emitted is well called; one that is refused is refused for a
fault of its own. -/
theorem checks_body (hn : registry.Named) (hr : registry.Regular) {b : Builder} {d : Definition}
    (hb : id.index < b.module.functions.size) (ha : Builder.Agreed registry b)
    (hs : d.body.Spelled Word Sign) :
    (∀ {u st}, body registry id d { builder := b } = .ok u st →
        d.body.WellCalled registry.Knows d.proto.params) ∧
      ∀ {e st}, body registry id d { builder := b } = .error e st → e.Static := by
  -- the first block is added and moved to, whatever the place was before
  let start : Emitter :=
    { builder := (b.appendBlock id "entry").2.moveTo (b.appendBlock id "entry").1 }
  have moved : Emitting id (b.moveTo (b.appendBlock id "entry").1) := ⟨rfl, hb⟩
  have ready : Ready registry id d.proto.params start := by
    have before : Ready registry id d.proto.params
        { builder := b.moveTo (b.appendBlock id "entry").1 } :=
      ⟨moved, ⟨ha.registered, ha.distinct⟩, nofun⟩
    exact before.widens hn (widens_modifyFunc moved
      (fun f => { f with blocks := f.blocks.push { label := "entry" } }) (fun _ => rfl)
      fun _ => rfl) rfl
  have rest : Checks registry id d.proto.params
      (fun _ => d.body.WellCalled registry.Knows d.proto.params) (do
        parameters id 0 d.proto.params
        let value ← expression registry id d.body
        change (Builder.ret value)
        accept id) := by
    refine (checks_parameters hn fun _ h => h).bind fun _ _ => ?_
    apply (checks_expression hn hr d.body hs).bind
    intro value hw
    exact (checks_terminate hn _).bind fun _ _ => (checks_accept hn).mono fun _ _ => hw
  exact ⟨fun h => (rest.ok ready h).2, fun h => (rest.error ready h).2⟩

end Expressions

end Emit

namespace Lower

variable {l l' : Lowering} {d : Definition} {i : FuncId} {e : Fault}

/-- What is registered once the definition is declared was read from a source or wraps a bare
expression. -/
theorem regular_of_declared (hr : l.registry.Regular) (h : Declared l d.proto i l')
    (hd : d.proto.Regular ∨ d.proto.name = anonymousName) : l'.registry.Regular :=
  h.registry ▸ hr.insert hd

/-- The body of a definition that is accepted is well called. -/
theorem wellCalled_of_definition (h : l.Tidy) (hr : l.registry.Regular)
    (hp : d.proto.Regular ∨ d.proto.name = anonymousName) (hs : d.body.Spelled Word Sign)
    (hd : definition d l = .ok i l') :
    d.body.WellCalled (Registry.Knows l'.registry) d.proto.params := by
  obtain ⟨-, l₁, st, declared, hb, rfl⟩ := definition_eq_ok h hd
  exact (Emit.checks_body declared.tidy.named (regular_of_declared hr declared hp) declared.bound
    declared.tidy.agreed hs).1 hb

/-- A definition is refused for a fault of its own. -/
theorem static_of_definition (h : l.Tidy) (hr : l.registry.Regular)
    (hp : d.proto.Regular ∨ d.proto.name = anonymousName) (hs : d.body.Spelled Word Sign)
    (hd : definition d l = .error e l') : e.Static := by
  rcases definition_eq_error h hd with ⟨-, he⟩ | ⟨j, l₁, st, declared, hb, -⟩
  · exact he
  exact (Emit.checks_body declared.tidy.named (regular_of_declared hr declared hp) declared.bound
    declared.tidy.agreed hs).2 hb

end Lower

end Kaleidoscope
