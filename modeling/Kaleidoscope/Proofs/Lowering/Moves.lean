import Kaleidoscope.Proofs.Lowering.Names
import Kaleidoscope.Proofs.Lowering.Widening
import Kaleidoscope.Proofs.Reading.Invariant

/-!
# The operations that code is emitted with

Code is emitted by operations of the builder, and between them the emitter looks up names. `Moves`
says what a sequence of these operations can make of a builder, and which names come with it. The
code of an expression is such a sequence, also where it breaks off at a fault, and it leaves the scope
that it finds (`walks_expression`); the code of a definition is one behind its first block
(`moved_code`).

So what each operation does to a builder, and what is carried on from one to the next, holds of all
code that is emitted, and it takes no further walk through the expressions to show it: one case for
each operation is enough.
-/

namespace Kaleidoscope

open Ssa

/-- Prototypes are registered under their own names. -/
def Registry.Named (registry : Registry) : Prop :=
  ∀ name proto, registry.get? name = some proto → proto.name = name

/-- The function takes so many arguments, or it is that of an operator which satisfies `S` and has so
many operands. -/
def Ssa.Func.Suits (registry : Registry) (S : Char → Prop) (f : Func) (n : Nat) : Prop :=
  f.arity = n ∨ ∃ op, S op ∧ (n = 1 ∧ (registry.Named → f.name = unaryName op) ∨
    n = 2 ∧ (registry.Named → f.name = binaryName op))

/-- What a sequence of operations on the given function can make of a builder, with the names that
come with them. -/
inductive Moves (registry : Registry) (S : Char → Prop) (id : FuncId) :
    Names → Builder → Builder → Prop
  | refl {b : Builder} : Moves registry S id ∅ b b
  | trans {M N : Names} {b b' b'' : Builder} :
    Moves registry S id M b b' → Moves registry S id N b' b'' →
    Moves registry S id (M ++ N) b b''
  /-- An instruction that is no call. -/
  | define {b : Builder} (label : String) {inst : ValueId → Inst} :
    (∀ dst x callee args, inst dst ≠ .call x callee args) →
    Moves registry S id (.value label) b (b.define label inst).2
  | call {b : Builder} {f : FuncId} {func : Func} (label : String) (args : List ValueId) :
    b.func? f = some func → func.Suits registry S args.length →
    Moves registry S id (.value label) b (b.call f args label).2
  | phi {b : Builder} (label : String) (incoming : List (ValueId × Place)) :
    Moves registry S id (.value label) b (b.phi incoming label).2
  | store {b : Builder} (src : ValueId) (slot : SlotId) :
    Moves registry S id ∅ b (b.store src slot)
  | terminate {b : Builder} (term : Terminator) : Moves registry S id ∅ b (b.terminate term)
  | addSlot {b : Builder} (name : String) :
    Moves registry S id (.slot name) b (b.addSlot id name).2
  | appendBlock {b : Builder} (label : String) :
    Moves registry S id (.block label) b (b.appendBlock id label).2
  | moveTo {b : Builder} {place : Place} :
    place.func = id → Moves registry S id ∅ b (b.moveTo place)
  /-- A function is declared from the registry. -/
  | declare {b : Builder} {name : String} {proto : Prototype} :
    registry.get? name = some proto →
    Moves registry S id ∅ b (b.declare proto.name proto.params).2

section Builders

variable {registry : Registry} {S : Char → Prop} {id : FuncId} {N : Names} {b b' : Builder}

/-- Every function keeps its name and its parameters. -/
theorem Moves.carries (h : Moves registry S id N b b') : Builder.Carries b b' := by
  induction h with
  | refl => exact .refl
  | trans _ _ ih ih' => exact ih.trans ih'
  | define label _ => exact carries_define label _
  | call label args hf _ =>
    simp only [Builder.call, hf]
    exact carries_define label _
  | phi label incoming => exact (carries_newValue label).trans (carries_modifyBlock _)
  | store => exact carries_modifyBlock _
  | terminate => exact carries_modifyBlock _
  | addSlot => exact carries_modifyFunc _ (fun _ => rfl) fun _ => rfl
  | appendBlock => exact carries_modifyFunc _ (fun _ => rfl) fun _ => rfl
  | moveTo => exact .refl
  | declare => exact carries_declare _ _

/-- The other functions stay as they are, and those that are added are declarations. -/
theorem Moves.widens (h : Moves registry S id N b b') (hb : Emitting id b) :
    Widens registry id b b' := by
  induction h with
  | refl => exact .refl hb
  | trans _ _ ih ih' => exact (ih hb).trans hb.bound (ih' ((ih hb).emitting hb))
  | define label _ => exact widens_define hb label _
  | call label args _ _ => exact widens_call hb _ args label
  | phi label incoming => exact widens_phi hb incoming label
  | store => exact widens_modifyBlock hb _
  | terminate => exact widens_modifyBlock hb _
  | addSlot => exact widens_modifyFunc hb _ (fun _ => rfl) fun _ => rfl
  | appendBlock => exact widens_modifyFunc hb _ (fun _ => rfl) fun _ => rfl
  | moveTo h => exact { (Widens.refl hb : Widens registry id _ _) with place := h }
  | declare hr => exact widens_declare hb hr

end Builders

namespace Emit

variable {registry : Registry} {S : Char → Prop} {id : FuncId} {M N : Names} {α β : Type}

/-- The result of an action that moved the builder from where it was. The names are those of an
action that succeeds. -/
def Moved (registry : Registry) (S : Char → Prop) (id : FuncId) (N : Names) (b : Builder) :
    EStateM.Result Fault Emitter α → Prop
  | .ok _ t => Moves registry S id N b t.builder
  | .error _ t => ∃ M, Moves registry S id M b t.builder

/-- The action is made of operations of the builder and leaves the scope as it is. -/
structure Walks (registry : Registry) (S : Char → Prop) (id : FuncId) (N : Names) (a : Emit α)
    (st : Emitter) : Prop where
  moved : Moved registry S id N st.builder (a st)
  scope : (left (a st)).scope = st.scope

section Rules

variable {a : Emit α} {k : α → Emit β} {st t : Emitter} {e : Fault}

theorem Moved.exists {b : Builder} {result : EStateM.Result Fault Emitter α}
    (h : Moved registry S id N b result) :
    ∃ M, Moves registry S id M b (left result).builder := by
  cases result with
  | ok x t => exact ⟨N, h⟩
  | error e t => exact h

/-- An action that comes behind a sequence of operations prolongs it. -/
theorem Moves.then_moved {b b' : Builder} {result : EStateM.Result Fault Emitter α}
    (h : Moves registry S id M b b') (h' : Moved registry S id N b' result) :
    Moved registry S id (M ++ N) b result := by
  cases result with
  | ok x t => exact h.trans h'
  | error e t =>
    obtain ⟨M', h'⟩ := h'
    exact ⟨M ++ M', h.trans h'⟩

theorem walks_pure {x : α} : Walks registry S id ∅ (pure x) st :=
  ⟨.refl, rfl⟩

/-- An action that does what another one does behind some operations. -/
theorem Walks.behind {b : Emit α} (h : a st = b t) (moves : Moves registry S id M st.builder t.builder)
    (scope : t.scope = st.scope) (hb : Walks registry S id N b t) :
    Walks registry S id (M ++ N) a st := by
  constructor
  · rw [h]
    exact Moves.then_moved moves hb.moved
  · rw [h]
    exact hb.scope.trans scope

/-- An action that fails behind some operations; whatever names it was to bring do not count. -/
theorem Walks.of_error (h : a st = .error e t) (moves : Moves registry S id M st.builder t.builder)
    (scope : t.scope = st.scope) : Walks registry S id N a st := by
  constructor
  · rw [h]
    exact ⟨M, moves⟩
  · rw [h]
    exact scope

/-- The rule for a sequence. -/
theorem Walks.bind (ha : Walks registry S id M a st)
    (hk : ∀ x t, a st = .ok x t → Walks registry S id N (k x) t) :
    Walks registry S id (M ++ N) (a >>= k) st := by
  obtain ⟨moved, scope⟩ := ha
  cases he : a st with
  | ok x t =>
    rw [he] at moved scope
    exact .behind (bind_of_ok he k) moved scope (hk x t he)
  | error e t =>
    rw [he] at moved scope
    obtain ⟨M', moves⟩ := moved
    exact .of_error (bind_of_error he k) moves scope

/-- What comes with no names goes before what does. -/
theorem Walks.before (ha : Walks registry S id ∅ a st)
    (hk : ∀ x t, a st = .ok x t → Walks registry S id N (k x) t) :
    Walks registry S id N (a >>= k) st :=
  ha.bind hk

theorem Walks.of_eq (h : Walks registry S id M a st) (he : M = N) : Walks registry S id N a st :=
  he ▸ h

/-- An operation of the builder walks as it moves, and it cannot fail. -/
theorem walks_build {operation : Builder → α × Builder}
    (h : Moves registry S id N st.builder (operation st.builder).2) :
    Walks registry S id N (build operation) st :=
  ⟨h, rfl⟩

theorem walks_change {operation : Builder → Builder}
    (h : Moves registry S id N st.builder (operation st.builder)) :
    Walks registry S id N (change operation) st :=
  ⟨h, rfl⟩

theorem walks_builder : Walks registry S id ∅ builder st :=
  ⟨.refl, rfl⟩

/-- An instruction that is no call. -/
theorem walks_define (label : String) {inst : ValueId → Inst}
    (h : ∀ dst x callee args, inst dst ≠ .call x callee args) :
    Walks registry S id (.value label) (build (Builder.define label inst)) st :=
  walks_build (.define label h)

theorem walks_slotOf (name : String) : Walks registry S id ∅ (slotOf name) st := by
  cases hg : st.scope.get? name with
  | some slot =>
    have found : slotOf name st = (pure slot : Emit SlotId) st := by
      simp only [slotOf, hg]
      rfl
    exact .behind found .refl rfl walks_pure
  | none =>
    have unbound : slotOf name st = .error (.unknownVariable name) st := by simp only [slotOf, hg]
    exact .of_error unbound .refl rfl

/-- A name that is bound for an action stands for what it stood for before when the action is
through, and when it has failed. -/
theorem walks_withName {name : String} {slot : SlotId}
    (h : Walks registry S id N a { st with scope := st.scope.insert name slot }) :
    Walks registry S id N (withName name slot a) st := by
  obtain ⟨moved, scope⟩ := h
  have putBack : ∀ {after : Emitter}, after.scope = st.scope.insert name slot →
      after.scope.put name (st.scope.get? name) = st.scope := by
    intro after he
    rw [he, Scope.put_insert]
  unfold withName
  cases he : a { st with scope := st.scope.insert name slot } with
  | ok x after =>
    rw [he] at moved scope
    exact ⟨by rw [he]; exact moved, by rw [he]; exact putBack scope⟩
  | error e after =>
    rw [he] at moved scope
    exact ⟨by rw [he]; exact moved, by rw [he]; exact putBack scope⟩

/-- A block is added to the function, and its place is one in the function. -/
theorem walks_appendBlock {k : Place → Emit β} (label : String)
    (hk : ∀ place t, place.func = id → Walks registry S id N (k place) t) :
    Walks registry S id (.block label ++ N) (build (Builder.appendBlock id label) >>= k) st := by
  refine (walks_build (.appendBlock label)).bind fun place t h => hk place t ?_
  cases h
  rfl

/-- Leaving a block ends it and brings no names. -/
theorem walks_leave (dest : Place) : Walks registry S id ∅ (leave dest) st :=
  (walks_change (.terminate _)).before fun _ _ _ => walks_builder.before fun _ _ _ => walks_pure

end Rules

section Calls

variable {st t : Emitter} {name : String}

/-- The function is there, found under its name or declared from the registry. -/
structure Finds (registry : Registry) (S : Char → Prop) (id : FuncId) (name : String)
    (st t : Emitter) (f : FuncId) (func : Func) : Prop where
  moves : Moves registry S id ∅ st.builder t.builder
  scope : t.scope = st.scope
  there : t.builder.func? f = some func
  name : registry.Named → func.name = name

theorem callee?_finds (registry : Registry) (S : Char → Prop) (id : FuncId) (name : String)
    (st : Emitter) : callee? registry name st = .ok none st ∨
      ∃ f func t, callee? registry name st = .ok (some f) t ∧
        Finds registry S id name st t f func := by
  unfold callee?
  rw [bind_of_ok (show builder st = .ok st.builder st from rfl)]
  cases hf : st.builder.find? name with
  | some f =>
    obtain ⟨func, there, hn⟩ := find?_eq_some hf
    exact .inr ⟨f, func, st, rfl, .refl, rfl, there, fun _ => hn⟩
  | none =>
    cases hr : registry.get? name with
    | none => exact .inl rfl
    | some proto =>
      obtain ⟨func, there, hn⟩ := func?_declare st.builder proto.name proto.params
      exact .inr ⟨_, func, _, rfl, .declare hr, rfl, there, fun named => hn.trans (named _ _ hr)⟩

/-- A function that is found for a call takes so many arguments. -/
theorem calleeOf_finds (registry : Registry) (S : Char → Prop) (id : FuncId) (name : String)
    (given : Nat) (st : Emitter) :
    (∃ e t, calleeOf registry name given st = .error e t ∧
        Moves registry S id ∅ st.builder t.builder ∧ t.scope = st.scope) ∨
      ∃ f func t, calleeOf registry name given st = .ok f t ∧ func.arity = given ∧
        Finds registry S id name st t f func := by
  rcases callee?_finds registry S id name st with he | ⟨f, func, t, he, finds⟩
  · exact .inl ⟨_, st, bind_of_ok he _, .refl, rfl⟩
  · have checked : calleeOf registry name given st =
        (if func.arity = given then pure f else throw (.argumentCount func.arity given) :
          Emit FuncId) t := by
      have arity : t.builder.arity f = func.arity := by
        rw [Builder.arity, finds.there]
        rfl
      unfold calleeOf
      rw [bind_of_ok he, ← arity]
      rfl
    by_cases hn : func.arity = given
    · exact .inr ⟨f, func, t, by rw [checked, if_pos hn]; rfl, hn, finds⟩
    · exact .inl ⟨_, t, by rw [checked, if_neg hn]; rfl, finds.moves, finds.scope⟩

/-- A call of an operator's function. -/
theorem walks_operator {unknown : Fault} {args : List ValueId} {label : String}
    (hs : ∀ func : Func, (registry.Named → func.name = name) →
      func.Suits registry S args.length) :
    Walks registry S id (.value label) (operator registry name unknown args label) st := by
  unfold operator
  rcases callee?_finds registry S id name st with he | ⟨f, func, t, he, finds⟩
  · exact .of_error (e := unknown) (bind_of_ok he _) .refl rfl
  · show Walks registry S id (∅ ++ .value label) _ st
    refine .behind (bind_of_ok he _) finds.moves finds.scope ?_
    exact walks_build (.call label args finds.there (hs func finds.name))

/-- An operation that is built in is an instruction, any other one is a call with two operands. -/
theorem walks_binary {op : Char} (hs : S op) (lhs rhs : ValueId) :
    Walks registry S id (.value (Expr.binaryLabel op)) (binary registry op lhs rhs) st := by
  unfold binary
  split
  · exact walks_define _ (by simp)
  · exact walks_define _ (by simp)
  · exact walks_define _ (by simp)
  · exact walks_define _ (by simp)
  · next h₁ h₂ h₃ h₄ =>
    rw [Expr.binaryLabel.eq_5 op h₁ h₂ h₃ h₄]
    exact walks_operator fun func hn => .inr ⟨op, hs, .inr ⟨rfl, hn⟩⟩

end Calls

section Expressions

/-- Nothing is spelled in a step that is left out. -/
theorem spelled_stepOrOne {N : String → Prop} {step : Option Expr}
    (h : ∀ e ∈ step, e.Spelled N S) : (Expr.stepOrOne step).Spelled N S := by
  cases step with
  | none => exact .number 1.0
  | some e => exact h e rfl

/-- A call of a function that is there is an instruction with its name. -/
theorem build_call {st : Emitter} {f : FuncId} {func : Func} (hf : st.builder.func? f = some func)
    (args : List ValueId) (label : String) : build (Builder.call f args label) st =
      build (Builder.define label (.call · func.name args)) st := by
  simp only [build, Builder.call, hf]

/-- Emitting a step that is left out is emitting the number one. -/
theorem stepOf_eq (registry : Registry) (id : FuncId) (step : Option Expr) :
    stepOf registry id step = expression registry id (.stepOrOne step) := by
  cases step <;> simp [stepOf, expression, Expr.stepOrOne]

theorem length_of_expressions {es : List Expr} :
    ∀ {st vs st₁}, expressions registry id es st = .ok vs st₁ → vs.length = es.length := by
  induction es with
  | nil =>
    intro st vs st₁ h
    simp only [expressions] at h
    cases h
    rfl
  | cons e es ih =>
    intro st vs st₂ h
    simp only [expressions] at h
    obtain ⟨v, st₁, -, h⟩ := bind_eq_ok.1 h
    obtain ⟨rest, st₃, hrest, h⟩ := bind_eq_ok.1 h
    cases h
    simp [ih hrest]

theorem walks_expressions {es : List Expr}
    (h : ∀ e ∈ es, ∀ st, Walks registry S id e.names (expression registry id e) st) :
    ∀ st, Walks registry S id (Expr.namesOfAll es) (expressions registry id es) st := by
  induction es with
  | nil =>
    intro st
    simp only [expressions, Expr.namesOfAll]
    exact walks_pure
  | cons e es ih =>
    intro st
    simp only [expressions, Expr.namesOfAll]
    refine (h e List.mem_cons_self st).bind fun _ t _ => ?_
    have rest := ih (fun e he => h e (List.mem_cons_of_mem _ he)) t
    exact (rest.bind fun _ _ _ => walks_pure).of_eq (Names.append_empty _)

/-- The function that a call found keeps its number of parameters while the arguments are
emitted. -/
theorem walks_call {callee : String} {args : List Expr}
    (ih : ∀ e ∈ args, ∀ st, Walks registry S id e.names (expression registry id e) st)
    (st : Emitter) : Walks registry S id (Expr.namesOfAll args ++ .value "calltmp")
      (expression registry id (.call callee args)) st := by
  simp only [expression]
  rcases calleeOf_finds registry S id callee args.length st with
    ⟨e, t, he, moves, scope⟩ | ⟨f, func, t, he, arity, finds⟩
  · exact .of_error (bind_of_error he _) moves scope
  · have rest : Walks registry S id (Expr.namesOfAll args ++ .value "calltmp")
        (expressions registry id args >>= fun values =>
          build (Builder.call f values "calltmp")) t := by
      have walked := walks_expressions ih t
      refine walked.bind fun values t' h => ?_
      have moved := walked.moved
      rw [h] at moved
      obtain ⟨func', there, -, params⟩ := Moves.carries moved f func finds.there
      refine walks_build (.call _ _ there (.inl ?_))
      rw [length_of_expressions h, ← arity, Func.arity, params, Func.arity]
    show Walks registry S id (∅ ++ (Expr.namesOfAll args ++ .value "calltmp")) _ st
    refine .behind (bind_of_ok he _) finds.moves finds.scope ?_
    exact rest

/-- **What emitting an expression does.** It is a sequence of operations of the builder, with which
the names of the expression come, and it leaves the scope that it finds. -/
theorem walks_expression {e : Expr} (hs : e.Spelled (fun _ => True) S) :
    ∀ st, Walks registry S id e.names (expression registry id e) st := by
  induction e using Expr.induct with
  | number x =>
    intro st
    simp only [expression, Expr.names]
    exact walks_define _ (by simp)
  | name x =>
    intro st
    simp only [expression, Expr.names]
    exact (walks_slotOf x).before fun _ _ _ => walks_define _ (by simp)
  | unary op e ih =>
    cases hs with | unary sign he =>
    intro st
    simp only [expression, Expr.names]
    exact (ih he st).bind fun _ _ _ => walks_operator fun func hn =>
      .inr ⟨op, sign, .inl ⟨rfl, hn⟩⟩
  | binary op l r ihl ihr =>
    cases hs with | binary sign hl hr =>
    intro st
    simp only [expression, Expr.names, Names.append_assoc]
    exact (ihl hl st).bind fun _ t _ => (ihr hr t).bind fun _ _ _ => walks_binary sign _ _
  | conditional c y n ihc ihy ihn =>
    cases hs with | conditional hc hy hn =>
    intro st
    simp only [expression, Expr.names, Names.append_assoc]
    refine (ihc hc st).bind fun _ _ _ => (walks_define _ (by simp)).bind fun _ _ _ => ?_
    refine walks_appendBlock _ fun yes _ hyes => walks_appendBlock _ fun no _ hno => ?_
    refine walks_appendBlock _ fun join _ hjoin =>
      (walks_change (.terminate _)).before fun _ _ _ => ?_
    refine (walks_change (.moveTo hyes)).before fun _ t _ => (ihy hy t).bind fun _ _ _ => ?_
    refine (walks_leave _).before fun _ _ _ => (walks_change (.moveTo hno)).before fun _ t _ => ?_
    refine (ihn hn t).bind fun _ _ _ => (walks_leave _).before fun _ _ _ => ?_
    exact (walks_change (.moveTo hjoin)).before fun _ _ _ => walks_build (.phi _ _)
  | loop var start goOn step body ihs ihg iht ihb =>
    cases hs with | loop _ hs hg ht hb =>
    -- one turn, with its names in the order in which they come
    have turn : ∀ slot top st, Walks registry S id (body.names ++ ((Expr.stepOrOne step).names ++
        (.value var ++ (.value "nextvar" ++ (goOn.names ++ (.value "loopcond" ++
          .block "afterloop")))))) (do
          let _ ← expression registry id body
          let growth ← expression registry id (Expr.stepOrOne step)
          let current ← build (Builder.load slot var)
          let next ← build (Builder.arith .add current growth "nextvar")
          change (Builder.store next slot)
          let value ← expression registry id goOn
          let truth ← build (Builder.nonzero value "loopcond")
          let after ← build (Builder.appendBlock id "afterloop")
          change (Builder.select truth top after)
          change (Builder.moveTo after)) st := by
      intro slot top st
      refine (ihb hb st).bind fun _ t _ => (iht (spelled_stepOrOne ht) t).bind fun _ _ _ => ?_
      refine (walks_define _ (by simp)).bind fun _ _ _ => (walks_define _ (by simp)).bind
        fun _ _ _ => (walks_change (.store _ _)).before fun _ t _ => ?_
      refine (ihg hg t).bind fun _ _ _ => (walks_define _ (by simp)).bind fun _ _ _ => ?_
      exact (walks_appendBlock _ fun after _ hafter => (walks_change (.terminate _)).before
        fun _ _ _ => walks_change (.moveTo hafter)).of_eq (Names.append_empty _)
    intro st
    simp only [expression, stepOf_eq, Expr.names, Expr.stepNames_eq, Names.append_assoc]
    refine (walks_build (.addSlot _)).bind fun slot t _ => (ihs hs t).bind fun _ _ _ => ?_
    refine (walks_change (.store _ _)).before fun _ _ _ => walks_appendBlock _ fun top _ htop => ?_
    refine (walks_change (.terminate _)).before fun _ _ _ =>
      (walks_change (.moveTo htop)).before fun _ _ _ => ?_
    exact ((walks_withName (turn slot top _)).bind fun _ _ _ => walks_define "" (by simp)).of_eq
      (by simp only [Names.append_assoc])
  | call callee args ih =>
    cases hs with | call _ hargs =>
    intro st
    simp only [Expr.names]
    exact walks_call (fun e he => ih e he (hargs e he)) st

/-- Nothing is asked of the names and operators. -/
theorem spelled_any (e : Expr) : e.Spelled (fun _ => True) (fun _ => True) := by
  induction e using Expr.induct with
  | number x => exact .number x
  | name x => exact .name trivial
  | unary op e ih => exact .unary trivial ih
  | binary op l r ihl ihr => exact .binary trivial ihl ihr
  | conditional c y n ihc ihy ihn => exact .conditional ihc ihy ihn
  | loop var start goOn step body ihs ihg iht ihb =>
    refine .loop trivial ihs ihg (fun e he => ?_) ihb
    cases he
    exact iht
  | call f args ih => exact .call trivial ih

/-- Emitting the arguments of a call does not change the name of the callee. -/
theorem name_of_expressions {st st' : Emitter} {es : List Expr} {vs : List ValueId} {f : FuncId}
    {func : Func} (h : expressions registry id es st = .ok vs st')
    (hf : st.builder.func? f = some func) :
    ∃ func', st'.builder.func? f = some func' ∧ func'.name = func.name := by
  have walks : Walks registry (fun _ => True) id (Expr.namesOfAll es)
      (expressions registry id es) st :=
    walks_expressions (fun e _ => walks_expression (spelled_any e)) st
  have moved := walks.moved
  rw [h] at moved
  obtain ⟨func', hf', hn, -⟩ := Moves.carries moved f func hf
  exact ⟨func', hf', hn⟩

/-- **The scope behind an expression.** Emitting an expression leaves the scope that it finds,
whether it gives a value or fails, and wherever in the expression it fails. -/
theorem expression_scope (registry : Registry) (func : FuncId) (e : Expr) (st : Emitter) :
    (left (expression registry func e st)).scope = st.scope :=
  (walks_expression (spelled_any e) st).scope

/-- A loop that shadows a name and fails at its end: the name is back. -/
example : (left (expression ∅ ⟨0⟩ (.loop "x" (.number 1) (.variable "y") none (.variable "x"))
    { builder := .empty "m", scope := Scope.insert ∅ "x" ⟨7⟩ })).scope.get? "x" = some ⟨7⟩ := by
  decide +kernel

end Expressions

section Definitions

variable {st : Emitter} {d : Definition}

/-- The code of a definition, before it is checked. -/
def code (registry : Registry) (func : FuncId) (d : Definition) : Emit Unit := do
  let entry ← build (Builder.appendBlock func "entry")
  change (Builder.moveTo entry)
  parameters func 0 d.proto.params
  let value ← expression registry func d.body
  change (Builder.ret value)

/-- Checks the code of a function and folds its constants. -/
def accept (func : FuncId) : Emit Unit := do
  match (← builder).check func with
  | .ok _ => change (Builder.optimize func)
  | .error fault => throw fault

/-- A body is emitted in two parts: its code, and what is done with the code once it is there. -/
theorem body_eq (registry : Registry) (id : FuncId) (d : Definition) :
    body registry id d = code registry id d >>= fun _ => accept id := by
  simp only [code, bind_assoc]
  rfl

/-- Parameters are bound for good, so that giving them slots is no walk; but it never fails. -/
theorem moves_parameters (params : List String) : ∀ index st, ∃ t,
    parameters id index params st = .ok () t ∧
      Moves registry S id ⟨[], params, []⟩ st.builder t.builder := by
  induction params with
  | nil => exact fun index st => ⟨st, rfl, .refl⟩
  | cons p ps ih =>
    intro index st
    let slotted := (st.builder.addSlot id p).2
    let next : Emitter :=
      { builder := slotted.store ⟨index⟩ (st.builder.addSlot id p).1,
        scope := st.scope.insert p (st.builder.addSlot id p).1 }
    obtain ⟨t, h, moves⟩ := ih (index + 1) next
    exact ⟨t, h, (Moves.addSlot p).trans ((Moves.store _ _).trans moves)⟩

/-- The code of a definition is a sequence of operations behind its first block. With it come the
parameters as slots, and the names of the body. -/
theorem moved_code (hs : d.body.Spelled (fun _ => True) S) :
    Moved registry S id (⟨[], d.proto.params, []⟩ ++ d.body.names)
      ((st.builder.appendBlock id "entry").2.moveTo (st.builder.appendBlock id "entry").1)
      (code registry id d st) := by
  let start : Emitter := { st with builder :=
    (st.builder.appendBlock id "entry").2.moveTo (st.builder.appendBlock id "entry").1 }
  obtain ⟨t, h, moves⟩ : ∃ t, parameters id 0 d.proto.params start = .ok () t ∧
      Moves registry S id ⟨[], d.proto.params, []⟩ start.builder t.builder :=
    moves_parameters d.proto.params 0 start
  have rest : Walks registry S id d.body.names (do
      let value ← expression registry id d.body
      change (Builder.ret value)) t :=
    ((walks_expression hs t).bind fun _ _ _ => walks_change (.terminate _)).of_eq
      (Names.append_empty _)
  have entered : code registry id d st = (parameters id 0 d.proto.params >>= fun _ => do
      let value ← expression registry id d.body
      change (Builder.ret value)) start := rfl
  rw [entered, bind_of_ok h]
  exact Moves.then_moved moves rest.moved

/-- Checking and folding touch nothing but the function itself. -/
theorem widens_accept (hb : Emitting id st.builder) :
    Widens registry id st.builder (left (accept id st)).builder := by
  unfold accept
  rw [bind_of_ok (show builder st = .ok st.builder st from rfl)]
  cases st.builder.check id with
  | ok _ => exact widens_modifyFunc hb _ (fun _ => rfl) fun _ => rfl
  | error e => exact .refl hb

/-- The body of a definition goes into its function, and whatever else it needs is declared. -/
theorem widens_body (h : id.index < st.builder.module.functions.size) (d : Definition) :
    Widens registry id st.builder (left (body registry id d st)).builder := by
  -- the first block is added and moved to, whatever the place was before
  let start : Builder :=
    (st.builder.appendBlock id "entry").2.moveTo (st.builder.appendBlock id "entry").1
  have hs : Emitting id (st.builder.moveTo (st.builder.appendBlock id "entry").1) := ⟨rfl, h⟩
  have added : Widens registry id _ _ := widens_modifyFunc hs
    (fun f => { f with blocks := f.blocks.push { label := "entry" } }) (fun _ => rfl) fun _ => rfl
  have first : Widens registry id st.builder start :=
    ⟨rfl, added.size, added.other, added.self, added.declared, added.distinct⟩
  have emitting : Emitting id start := ⟨rfl, Nat.lt_of_lt_of_le h first.size⟩
  have moved : Moved registry (fun _ => True) id _ start (code registry id d st) :=
    moved_code (spelled_any d.body)
  obtain ⟨M, moves⟩ := moved.exists
  have filled := first.trans h (moves.widens emitting)
  rw [body_eq]
  cases hc : code registry id d st with
  | error e t =>
    rw [hc] at filled
    rw [bind_of_error hc]
    exact filled
  | ok u t =>
    rw [hc] at filled
    rw [bind_of_ok hc]
    exact filled.trans h (widens_accept ⟨filled.place, Nat.lt_of_lt_of_le h filled.size⟩)

end Definitions

end Emit

end Kaleidoscope
