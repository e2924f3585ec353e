import Kaleidoscope.Proofs.Lowering.Requests

/-!
# Which definitions are refused

Emitting walks through an expression and stops at the first thing that cannot be emitted. Which one
that is can be told without any code: from the variables in scope, and from the number of parameters
that each name is registered with. `Expr.firstFault` tells it, in the order in which an expression is
walked through. The operands of an operator come before its function, the callee of a call and the
number of its arguments come before the arguments, and the end of a loop comes after its body and
its step.

While code is emitted the module agrees with the registry, and exactly the variables have slots
(`Emit.Poised`). From there emitting an expression fails with its first fault, and succeeds if there
is none (`Emit.reports_expression`). What is emitted is never refused for a defect.

Main statement: `Lowering.definition_firstFault`.
-/

namespace Kaleidoscope

open Ssa

/-- The number of parameters that a name is registered with. -/
def Registry.arity? (registry : Registry) (name : String) : Option Nat :=
  (registry.get? name).map Prototype.arity

namespace Expr

/-- The fault of an operation whose function is not known. -/
def operatorFault (arity? : String → Option Nat) (name : String) (unknown : Fault) : Option Fault :=
  if (arity? name).isSome then none else some unknown

/-- The fault of a binary operation by itself: one that is built in has none. -/
def binaryFault (arity? : String → Option Nat) (op : Char) : Option Fault :=
  if op ∈ ['+', '-', '*', '<'] then none
  else operatorFault arity? (binaryName op) (.unknownBinaryOperator op)

/-- The fault of a call by itself. -/
def callFault (arity? : String → Option Nat) (callee : String) (given : Nat) : Option Fault :=
  match arity? callee with
  | none => some (.unknownFunction callee)
  | some wanted => if wanted = given then none else some (.argumentCount wanted given)

mutual

/-- The first fault of an expression, by the numbers of parameters that are known for names and by the
variables in scope. -/
def firstFault (arity? : String → Option Nat) (vars : List String) : Expr → Option Fault
  | .number _ => none
  | .variable x => if x ∈ vars then none else some (.unknownVariable x)
  | .unary op e =>
    firstFault arity? vars e <|> operatorFault arity? (unaryName op) (.unknownUnaryOperator op)
  | .binary op l r =>
    firstFault arity? vars l <|> firstFault arity? vars r <|> binaryFault arity? op
  | .conditional c y n =>
    firstFault arity? vars c <|> firstFault arity? vars y <|> firstFault arity? vars n
  | .loop var start goOn step body =>
    firstFault arity? vars start <|> firstFault arity? (var :: vars) body <|>
      stepFault arity? (var :: vars) step <|> firstFault arity? (var :: vars) goOn
  | .call callee args => callFault arity? callee args.length <|> firstFaults arity? vars args

/-- The first fault of the step of a loop. -/
def stepFault (arity? : String → Option Nat) (vars : List String) : Option Expr → Option Fault
  | some step => firstFault arity? vars step
  | none => none

/-- The first fault of expressions, from left to right. -/
def firstFaults (arity? : String → Option Nat) (vars : List String) : List Expr → Option Fault
  | [] => none
  | e :: es => firstFault arity? vars e <|> firstFaults arity? vars es

end

theorem stepFault_eq (arity? : String → Option Nat) (vars : List String) (step : Option Expr) :
    stepFault arity? vars step = firstFault arity? vars (stepOrOne step) := by
  cases step <;> simp [stepFault, firstFault, stepOrOne]

end Expr

/-- The number of parameters that is known for a name while a definition is lowered: the name of the
definition itself has its own. -/
def Lowering.arityWithin (l : Lowering) (proto : Prototype) (name : String) : Option Nat :=
  if name = proto.name then some proto.arity else l.registry.arity? name

/-- The first fault of a definition: its name has a body already, or is registered with another number
of parameters, or its body has a fault. -/
def Lowering.firstFault (l : Lowering) (d : Definition) : Option Fault :=
  if l.hasBody d.proto.name ∨ d.proto.name ∈ l.defined then some (.redefinition d.proto.name)
  else if ∃ n ∈ l.registry.arity? d.proto.name, n ≠ d.proto.arity then
    some (.signatureMismatch d.proto.name)
  else d.body.firstFault (l.arityWithin d.proto) d.proto.params

namespace Emit

/-- The emitter builds the given function in a module that agrees with the registry, and exactly the
variables have slots. -/
structure Poised (registry : Registry) (id : FuncId) (vars : List String) (st : Emitter) : Prop where
  emitting : Emitting id st.builder
  agreed : Builder.Agreed registry st.builder
  scope : ∀ x, (st.scope.get? x).isSome ↔ x ∈ vars

/-- The action has failed with the fault, or if there is none it has left a poised emitter and a
result that satisfies `P`. -/
inductive Reported {α : Type} (registry : Registry) (id : FuncId) (vars : List String)
    (P : α → Prop) : Option Fault → EStateM.Result Fault Emitter α → Prop
  | none {x : α} {t : Emitter} :
    Poised registry id vars t → P x → Reported registry id vars P none (.ok x t)
  | some {e : Fault} {t : Emitter} : Reported registry id vars P (some e) (.error e t)

/-- Carried out by a poised emitter, the action fails with the fault, and succeeds if there is
none. -/
def Reports {α : Type} (registry : Registry) (id : FuncId) (vars : List String) (P : α → Prop)
    (fault : Option Fault) (a : Emit α) : Prop :=
  ∀ st, Poised registry id vars st → Reported registry id vars P fault (a st)

variable {registry : Registry} {id : FuncId} {vars : List String} {α β : Type} {P : α → Prop}
  {Q : β → Prop} {fault fault' : Option Fault} {st : Emitter}

section Rules

/-- An action that reports a fault does not succeed. -/
theorem fault_of_ok {x : α} (h : Reported registry id vars P fault (.ok x st)) :
    fault = none := by
  cases h
  rfl

/-- An action that reports none does not fail. -/
theorem fault_of_error {e : Fault} (h : Reported registry id vars P fault (.error e st)) :
    fault = some e := by
  cases h
  rfl

theorem reports_pure {x : α} (h : P x) : Reports registry id vars P none (pure x) :=
  fun _ hp => .none hp h

/-- Actions in a row report the first fault of the two. -/
theorem Reports.bind {a : Emit α} {k : α → Emit β} (ha : Reports registry id vars P fault a)
    (hk : ∀ x, P x → Reports registry id vars Q fault' (k x)) :
    Reports registry id vars Q (fault <|> fault') (a >>= k) := by
  intro st hp
  have first := ha st hp
  cases h : a st with
  | ok x t =>
    rw [h] at first
    cases first with
    | none ht hx =>
      rw [bind_of_ok h]
      exact hk x hx t ht
  | error e t =>
    rw [h] at first
    cases first with
    | some =>
      rw [bind_of_error h]
      exact .some

/-- An action that never fails, before another. -/
theorem Reports.andThen {a : Emit α} {k : α → Emit β} (ha : Reports registry id vars P none a)
    (hk : ∀ x, P x → Reports registry id vars Q fault (k x)) :
    Reports registry id vars Q fault (a >>= k) :=
  ha.bind hk

/-- An action that never fails, behind another. -/
theorem Reports.before {a : Emit α} {k : α → Emit β} (ha : Reports registry id vars P fault a)
    (hk : ∀ x, P x → Reports registry id vars Q none (k x)) :
    Reports registry id vars Q fault (a >>= k) := by
  have := ha.bind hk
  cases fault <;> exact this

theorem Poised.widens (h : Poised registry id vars st) (hn : registry.Named) {st' : Emitter}
    (hw : Widens registry id st.builder st'.builder) (hs : st'.scope = st.scope) :
    Poised registry id vars st' where
  emitting := hw.emitting h.emitting
  agreed := h.agreed.widens hn hw
  scope := hs ▸ h.scope

end Rules

section Operations

/-- Operations of the builder report no fault. -/
theorem reports_build (hn : registry.Named) {operation : Builder → α × Builder}
    (h : ∀ {b}, Emitting id b → Widens registry id b (operation b).2 ∧ P (operation b).1) :
    Reports registry id vars P none (build operation) :=
  fun _ hp => .none (hp.widens hn (h hp.emitting).1 rfl) (h hp.emitting).2

theorem reports_change (hn : registry.Named) {operation : Builder → Builder}
    (h : ∀ {b}, Emitting id b → Widens registry id b (operation b)) :
    Reports registry id vars (fun _ => True) none (change operation) :=
  fun _ hp => .none (hp.widens hn (h hp.emitting) rfl) trivial

theorem reports_define (hn : registry.Named) (name : String) (inst : ValueId → Inst) :
    Reports registry id vars (fun _ => True) none (build (Builder.define name inst)) :=
  reports_build hn fun hb => ⟨widens_define hb name inst, trivial⟩

theorem reports_store (hn : registry.Named) (src : ValueId) (slot : SlotId) :
    Reports registry id vars (fun _ => True) none (change (Builder.store src slot)) :=
  reports_change hn fun hb => widens_modifyBlock hb _

theorem reports_terminate (hn : registry.Named) (term : Terminator) :
    Reports registry id vars (fun _ => True) none (change (Builder.terminate term)) :=
  reports_change hn fun hb => widens_modifyBlock hb _

theorem reports_addSlot (hn : registry.Named) (name : String) :
    Reports registry id vars (fun _ => True) none (build (Builder.addSlot id name)) :=
  reports_build hn fun hb => ⟨widens_modifyFunc hb _ (fun _ => rfl) fun _ => rfl, trivial⟩

theorem reports_appendBlock (hn : registry.Named) (label : String) :
    Reports registry id vars (fun place => place.func = id) none
      (build (Builder.appendBlock id label)) :=
  reports_build hn fun hb => ⟨widens_modifyFunc hb _ (fun _ => rfl) fun _ => rfl, rfl⟩

theorem reports_moveTo {place : Place} (h : place.func = id) :
    Reports registry id vars (fun _ => True) none (change (Builder.moveTo place)) :=
  fun _ hp => .none
    ⟨⟨h, hp.emitting.bound⟩, ⟨hp.agreed.registered, hp.agreed.distinct⟩, hp.scope⟩ trivial

theorem reports_leave (hn : registry.Named) (dest : Place) :
    Reports registry id vars (fun _ => True) none (leave dest) :=
  (reports_terminate hn _).andThen fun _ _ _ hp => .none hp trivial

/-- Exactly the variables have slots, so any other name is reported. -/
theorem reports_slotOf (x : String) : Reports registry id vars (fun _ => True)
    (if x ∈ vars then none else some (.unknownVariable x)) (slotOf x) := by
  intro st hp
  have scope := hp.scope x
  unfold slotOf
  cases hs : st.scope.get? x with
  | some slot =>
    rw [hs] at scope
    rw [if_pos (scope.1 rfl)]
    exact .none hp trivial
  | none =>
    rw [hs] at scope
    rw [if_neg fun hx => nomatch scope.2 hx]
    exact .some

/-- A name that is bound for an action is a variable there, and only there. -/
theorem reports_withName {a : Emit α} {x : String} (h : Reports registry id (x :: vars) P fault a)
    (slot : SlotId) : Reports registry id vars P fault (withName x slot a) := by
  intro st hp
  have inner : Poised registry id (x :: vars) { st with scope := st.scope.insert x slot } := by
    refine ⟨hp.emitting, hp.agreed, fun y => ?_⟩
    rw [Scope.get?_insert, List.mem_cons]
    split
    · next he => simp [he]
    · next he => simp [he, hp.scope y]
  have inside := h _ inner
  unfold withName
  cases ha : a { st with scope := st.scope.insert x slot } with
  | ok y t =>
    rw [ha] at inside
    cases inside with
    | none ht hy =>
      refine .none ⟨ht.emitting, ht.agreed, fun y => ?_⟩ hy
      rw [Scope.get?_put]
      split
      · next he => rw [he, hp.scope x]
      · next he => rw [ht.scope y, List.mem_cons, or_iff_right he]
  | error e t =>
    rw [ha] at inside
    cases inside with
    | some => exact .some

end Operations

section Calls

variable {name : String}

/-- A registered function is found, or declared, with the number of parameters that is registered. -/
theorem Poised.callee? (h : Poised registry id vars st) (hn : registry.Named) (name : String) :
    (registry.arity? name = none ∧ callee? registry name st = .ok none st) ∨
      ∃ f t, registry.arity? name = some (t.builder.arity f) ∧
        callee? registry name st = .ok (some f) t ∧ Poised registry id vars t := by
  rcases callee?_eq hn h.emitting h.agreed name with
    ⟨hp, he⟩ | ⟨proto, f, t, hp, he, agreed, scope, place, same, func, hf, -, arity⟩
  · exact .inl ⟨by rw [Registry.arity?, hp]; rfl, he⟩
  · obtain ⟨g, hg⟩ := func?_of_lt h.emitting.bound
    refine .inr ⟨f, t, ?_, he, ⟨by rw [place, h.emitting.place], func?_lt (same.trans hg)⟩, agreed,
      scope ▸ h.scope⟩
    rw [Registry.arity?, hp, Builder.arity, hf, Option.map_some, Option.map_some, arity]
    rfl

theorem reports_call (hn : registry.Named) (f : FuncId) (args : List ValueId) (label : String) :
    Reports registry id vars (fun _ => True) none (build (Builder.call f args label)) :=
  reports_build hn fun hb => ⟨widens_call hb f args label, trivial⟩

/-- An operator is reported if its function is not registered. -/
theorem reports_operator (hn : registry.Named) (unknown : Fault) (args : List ValueId)
    (label : String) :
    Reports registry id vars (fun _ => True) (Expr.operatorFault registry.arity? name unknown)
      (operator registry name unknown args label) := by
  intro st hp
  unfold operator Expr.operatorFault
  rcases hp.callee? hn name with ⟨ha, he⟩ | ⟨f, t, ha, he, ht⟩
  · rw [bind_of_ok he, ha]
    exact .some
  · rw [bind_of_ok he, ha]
    exact reports_call hn f args label t ht

/-- An operator that is built in reports nothing. -/
theorem reports_binary (hn : registry.Named) (op : Char) (lhs rhs : ValueId) :
    Reports registry id vars (fun _ => True) (Expr.binaryFault registry.arity? op)
      (binary registry op lhs rhs) := by
  unfold binary
  split
  · exact reports_define hn _ _
  · exact reports_define hn _ _
  · exact reports_define hn _ _
  · exact reports_define hn _ _
  · next h₁ h₂ h₃ h₄ =>
    rw [Expr.binaryFault, if_neg (by simpa using ⟨h₁, h₂, h₃, h₄⟩)]
    exact reports_operator hn _ _ _

/-- A call is reported if its name is not registered, or is with another number of parameters. -/
theorem reports_calleeOf (hn : registry.Named) (given : Nat) :
    Reports registry id vars (fun _ => True) (Expr.callFault registry.arity? name given)
      (calleeOf registry name given) := by
  intro st hp
  unfold calleeOf Expr.callFault
  rcases hp.callee? hn name with ⟨ha, he⟩ | ⟨f, t, ha, he, ht⟩
  · rw [bind_of_ok he, ha]
    exact .some
  · have here : builder t = .ok t.builder t := rfl
    rw [bind_of_ok he, ha]
    simp only [bind_of_ok here]
    split
    · exact .none ht trivial
    · exact .some

end Calls

section Expressions

theorem reports_expressions {es : List Expr} (h : ∀ e ∈ es, Reports registry id vars
      (fun _ => True) (e.firstFault registry.arity? vars) (expression registry id e)) :
    Reports registry id vars (fun _ => True) (Expr.firstFaults registry.arity? vars es)
      (expressions registry id es) := by
  induction es with
  | nil =>
    simp only [expressions, Expr.firstFaults]
    exact reports_pure trivial
  | cons e es ih =>
    simp only [expressions, Expr.firstFaults]
    refine (h e (by simp)).bind fun v _ => ?_
    exact (ih fun e he => h e (List.mem_cons_of_mem _ he)).before fun vs _ => reports_pure trivial

/-- Emitting an expression fails with its first fault, and succeeds if it has none. -/
theorem reports_expression (hn : registry.Named) (e : Expr) :
    ∀ {vars}, Reports registry id vars (fun _ => True) (e.firstFault registry.arity? vars)
      (expression registry id e) := by
  induction e using Expr.induct with
  | number x =>
    intro vars
    simp only [expression, Expr.firstFault]
    exact reports_define hn _ _
  | name x =>
    intro vars
    simp only [expression, Expr.firstFault]
    exact (reports_slotOf x).before fun slot _ => reports_define hn _ _
  | unary op e ih =>
    intro vars
    simp only [expression, Expr.firstFault]
    exact ih.bind fun v _ => reports_operator hn _ _ _
  | binary op l r ihl ihr =>
    intro vars
    simp only [expression, Expr.firstFault]
    exact ihl.bind fun lhs _ => ihr.bind fun rhs _ => reports_binary hn op lhs rhs
  | conditional c y n ihc ihy ihn =>
    intro vars
    simp only [expression, Expr.firstFault]
    refine ihc.bind fun value _ => (reports_define hn _ _).andThen fun truth _ => ?_
    refine (reports_appendBlock hn _).andThen fun yes hyes => ?_
    refine (reports_appendBlock hn _).andThen fun no hno => ?_
    refine (reports_appendBlock hn _).andThen fun join hjoin => ?_
    refine (reports_terminate hn _).andThen fun _ _ => (reports_moveTo hyes).andThen fun _ _ => ?_
    refine ihy.bind fun yesValue _ => (reports_leave hn join).andThen fun yesEnd _ => ?_
    refine (reports_moveTo hno).andThen fun _ _ => ihn.before fun noValue _ => ?_
    refine (reports_leave hn join).andThen fun noEnd _ => (reports_moveTo hjoin).andThen fun _ _ => ?_
    exact reports_build hn fun hb => ⟨widens_phi hb _ _, trivial⟩
  | loop var start goOn step body ihs ihg iht ihb =>
    intro vars
    simp only [expression, stepOf_eq, Expr.firstFault, Expr.stepFault_eq]
    refine (reports_addSlot hn _).andThen fun slot _ => ihs.bind fun first _ => ?_
    refine (reports_store hn _ _).andThen fun _ _ => (reports_appendBlock hn _).andThen ?_
    intro top htop
    refine (reports_terminate hn _).andThen fun _ _ => (reports_moveTo htop).andThen fun _ _ => ?_
    refine (reports_withName (P := fun _ => True) ?_ slot).before fun _ _ => reports_define hn _ _
    refine ihb.bind fun _ _ => iht.bind fun growth _ => ?_
    refine (reports_define hn _ _).andThen fun current _ => ?_
    refine (reports_define hn _ _).andThen fun next _ => (reports_store hn _ _).andThen fun _ _ => ?_
    refine ihg.before fun value _ => (reports_define hn _ _).andThen fun truth _ => ?_
    refine (reports_appendBlock hn _).andThen fun after hafter => ?_
    exact (reports_terminate hn _).andThen fun _ _ => reports_moveTo hafter
  | call callee args ih =>
    intro vars
    simp only [expression, Expr.firstFault]
    refine (reports_calleeOf hn args.length).bind fun f _ => ?_
    exact (reports_expressions fun e he => ih e he).before fun vs _ => reports_call hn f vs _

/-- Parameters get slots, and are in scope from then on. -/
theorem Poised.parameters (hn : registry.Named) (params : List String) :
    ∀ {vars st} index, Poised registry id vars st →
      ∃ t, parameters id index params st = .ok () t ∧ Poised registry id (vars ++ params) t := by
  induction params with
  | nil =>
    intro vars st index hp
    exact ⟨st, rfl, by rwa [List.append_nil]⟩
  | cons p ps ih =>
    intro vars st index hp
    let slot := (st.builder.addSlot id p).1
    let stored := (st.builder.addSlot id p).2.store ⟨index⟩ slot
    have added : Widens registry id st.builder (st.builder.addSlot id p).2 :=
      widens_modifyFunc hp.emitting _ (fun _ => rfl) fun _ => rfl
    have widens : Widens registry id st.builder stored :=
      added.trans hp.emitting.bound (widens_modifyBlock (added.emitting hp.emitting) _)
    have bound : Poised registry id (vars ++ [p])
        { builder := stored, scope := st.scope.insert p slot } := by
      refine ⟨widens.emitting hp.emitting, hp.agreed.widens hn widens, fun y => ?_⟩
      rw [Scope.get?_insert, List.mem_append, List.mem_singleton]
      split
      · next he => simp [he]
      · next he => simp [he, hp.scope y]
    obtain ⟨t, ht, rest⟩ := ih (index + 1) bound
    exact ⟨t, ht, by simpa using rest⟩

/-- The code of a definition goes into its declared function, or is refused for the first fault of
its body. -/
theorem reported_code (hn : registry.Named) {b : Builder} {name : String} {params : List String}
    (ha : Builder.Agreed registry b) (hf : b.func? id = some (.declare name params))
    (d : Definition) :
    Reported registry id d.proto.params (fun _ => True)
      (d.body.firstFault registry.arity? d.proto.params) (code registry id d { builder := b }) := by
  obtain ⟨sees, -⟩ := @sees_entered id { builder := b } _ _ _ _ _ _ hf rfl rfl
  have start : Poised registry id []
      { builder := Builder.moveTo (b.appendBlock id "entry").1 (b.appendBlock id "entry").2 } :=
    ⟨sees.emitting, ha.entered hn (func?_lt hf), fun x => by simp⟩
  obtain ⟨t, ht, poised⟩ := start.parameters hn d.proto.params 0
  have body : Reports registry id d.proto.params (fun _ => True)
      (d.body.firstFault registry.arity? d.proto.params) (expression registry id d.body) :=
    reports_expression hn d.body
  have rest := (body.before fun v _ => reports_terminate hn (.ret v)) t poised
  have here : code registry id d { builder := b } =
      (expression registry id d.body >>= fun v => change (Builder.ret v)) t :=
    bind_of_ok ht _
  rw [here]
  exact rest

end Expressions

end Emit

namespace Lowering

variable {l l₁ : Lowering} {d : Definition} {i : FuncId}

/-- A name counts as defined by a body in the module, or by what was defined before. -/
theorem isDefined_iff (l : Lowering) (name : String) :
    l.isDefined name = true ↔ l.hasBody name = true ∨ name ∈ l.defined := by
  simp [isDefined]

/-- A definition disagrees with the registry if its name is registered with another number of
parameters. -/
theorem not_agrees_iff (l : Lowering) (proto : Prototype) : ¬ Lower.Agrees l proto ↔
    ∃ n ∈ l.registry.arity? proto.name, n ≠ proto.arity := by
  simp [Lower.Agrees, Registry.arity?]

/-- Once a prototype is declared its name is known with its number of parameters. -/
theorem arity?_of_registered (h : Lower.Registered l d.proto i l₁) :
    l₁.registry.arity? = l.arityWithin d.proto := by
  funext name
  rw [Registry.arity?, h.registry, Dict.get?_insert, arityWithin]
  split <;> rfl

/-- **Which fault is reported.** Whatever was declared, defined, handed over or forgotten before, a
definition is accepted exactly if it has no fault, and is refused with its first fault otherwise. -/
theorem definition_firstFault (moduleName : String) (requests : List Request) (d : Definition) :
    match Lower.definition d ((Lowering.empty moduleName).after requests) with
    | .ok _ _ => ((Lowering.empty moduleName).after requests).firstFault d = none
    | .error e _ => ((Lowering.empty moduleName).after requests).firstFault d = some e := by
  have coherent := Coherent.after requests (coherent_empty moduleName)
  generalize (Lowering.empty moduleName).after requests = l at coherent
  unfold firstFault
  rcases Lower.definition_eq coherent d with
    ⟨hd, he⟩ | ⟨hd, ha, he⟩ | ⟨hd, ha, i, l₁, registered, he⟩
  · rw [he, if_pos ((isDefined_iff l _).1 hd)]
  · rw [he, if_neg (mt (isDefined_iff l _).2 (by simp [hd])), if_pos ((not_agrees_iff l _).1 ha)]
  · obtain ⟨params, -, hi⟩ := registered.declared coherent hd
    have code := Emit.reported_code registered.coherent.named registered.coherent.agreed hi d
    rw [arity?_of_registered registered] at code
    rw [he, if_neg (mt (isDefined_iff l _).2 (by simp [hd])),
      if_neg (mt (not_agrees_iff l _).2 (not_not_intro ha))]
    cases hc : Emit.code l₁.registry i d { builder := l₁.builder } with
    | ok u st =>
      rw [hc] at code
      rw [(Lower.accepted_of_code coherent hd registered hc).1]
      exact Emit.fault_of_ok code
    | error e st =>
      rw [hc] at code
      rw [(Lower.alike_of_code coherent hd registered hc).1]
      exact Emit.fault_of_error code

-- The number of arguments is looked at before the arguments.
example : ((Lowering.empty "m").after [.declare ⟨.function "f", ["a", "b"]⟩]).firstFault
    ⟨⟨.function "g", []⟩, .call "f" [.variable "x"]⟩ = some (.argumentCount 2 1) := by
  decide +kernel

end Lowering

end Kaleidoscope
