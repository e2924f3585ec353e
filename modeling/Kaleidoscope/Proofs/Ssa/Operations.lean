import Kaleidoscope.Proofs.Lowering.Widening
import Kaleidoscope.Ssa.Builder

/-!
# Runs of a builder

A builder is told what to do, one operation after another. An operation does one of five things to
the functions of the module (`Effect`): it adds a declaration behind them, deletes one of them, hands
all of them over, builds into one of them, or leaves them alone. Building changes the code of a
function, but neither its name nor its parameters (`Touches`).
-/

namespace Kaleidoscope.Ssa

/-- What a builder can be told to do. -/
inductive Operation
  | declare (name : String) (params : List String)
  | delete (f : FuncId)
  | appendBlock (f : FuncId) (label : String)
  | moveTo (place : Place)
  | addSlot (f : FuncId) (name : String)
  | load (slot : SlotId) (name : String)
  | store (src : ValueId) (slot : SlotId)
  | const (value : Float)
  | arith (op : Arith) (lhs rhs : ValueId) (name : String)
  | less (lhs rhs : ValueId)
  | nonzero (src : ValueId) (name : String)
  | call (f : FuncId) (args : List ValueId) (name : String)
  | select (condition : ValueId) (yes no : Place)
  | branch (dest : Place)
  | ret (value : ValueId)
  | phi (incoming : List (ValueId × Place)) (name : String)
  | optimize (f : FuncId)
  | take

namespace Builder

/-- The builder after an operation. -/
def perform (b : Builder) : Operation → Builder
  | .declare name params => (b.declare name params).2
  | .delete f => b.delete f
  | .appendBlock f label => (b.appendBlock f label).2
  | .moveTo place => b.moveTo place
  | .addSlot f name => (b.addSlot f name).2
  | .load slot name => (b.load slot name).2
  | .store src slot => b.store src slot
  | .const value => (b.const value).2
  | .arith op lhs rhs name => (b.arith op lhs rhs name).2
  | .less lhs rhs => (b.less lhs rhs).2
  | .nonzero src name => (b.nonzero src name).2
  | .call f args name => (b.call f args name).2
  | .select condition yes no => b.select condition yes no
  | .branch dest => b.branch dest
  | .ret value => b.ret value
  | .phi incoming name => (b.phi incoming name).2
  | .optimize f => b.optimize f
  | .take => b.take.2

/-- The builder after operations. -/
def after (b : Builder) (ops : List Operation) : Builder :=
  ops.foldl perform b

/-- The function that an operation builds into: the one it names, or the one at the place. -/
def site (b : Builder) : Operation → Option FuncId
  | .declare _ _ | .delete _ | .moveTo _ | .take => none
  | .appendBlock f _ | .addSlot f _ | .optimize f => some f
  | _ => some b.place.func

/-- No two functions of the module have the same name. -/
def Distinct (b : Builder) : Prop :=
  ∀ {i j f g}, b.func? i = some f → b.func? j = some g → f.name = g.name → i = j

end Builder

/-- The second builder has the functions of the first, the given one possibly with other code. -/
structure Touches (f : FuncId) (b b' : Builder) : Prop where
  place : b'.place = b.place
  size : b'.module.functions.size = b.module.functions.size
  other : ∀ {i}, i ≠ f → b'.func? i = b.func? i
  self : ∀ {func}, b.func? f = some func →
    ∃ func', b'.func? f = some func' ∧ func'.name = func.name ∧ func'.params = func.params

/-- What an operation does to the functions of the module. -/
inductive Effect (b : Builder) (b' : Builder) : Operation → Prop
  | declared {name : String} {params : List String} (fresh : b.find? name = none)
    (functions : b'.module.functions = b.module.functions.push (.declare name params)) :
    Effect b b' (.declare name params)
  | deleted {f : FuncId}
    (functions : b'.module.functions = b.module.functions.eraseIdxIfInBounds f.index) :
    Effect b b' (.delete f)
  | taken (functions : b'.module.functions = #[]) : Effect b b' .take
  | built {op : Operation} {f : FuncId} (site : b.site op = some f) (touches : Touches f b b') :
    Effect b b' op
  | kept {op : Operation} (stays : op ≠ .take ∧ ∀ f, op ≠ .delete f)
    (functions : b'.module.functions = b.module.functions) : Effect b b' op

section Touching

variable {b b' b'' : Builder} {f : FuncId} {i j : FuncId} {func func' : Func} {name : String}

/-- What touches one function twice touches no other. -/
theorem Touches.trans (h : Touches f b b') (h' : Touches f b' b'') : Touches f b b'' where
  place := h'.place.trans h.place
  size := h'.size.trans h.size
  other hi := (h'.other hi).trans (h.other hi)
  self hf := by
    obtain ⟨f₁, h₁, n₁, p₁⟩ := h.self hf
    obtain ⟨f₂, h₂, n₂, p₂⟩ := h'.self h₁
    exact ⟨f₂, h₂, n₂.trans n₁, p₂.trans p₁⟩

/-- A change of a function that keeps its name and its parameters touches that function only. -/
theorem touches_modifyFunc (b : Builder) (f : FuncId) (change : Func → Func)
    (hn : ∀ f, (change f).name = f.name) (hp : ∀ f, (change f).params = f.params) :
    Touches f b (b.modifyFunc f change) where
  place := rfl
  size := by simp [Builder.modifyFunc]
  other hi := by rw [func?_modifyFunc, if_neg (Ne.symm hi)]
  self {func} hf := ⟨change func, by rw [func?_modifyFunc, if_pos rfl, hf]; rfl, hn func, hp func⟩

theorem touches_modifyBlock (b : Builder) (change : Block → Block) :
    Touches b.place.func b (b.modifyBlock change) :=
  touches_modifyFunc b _ _ (fun _ => rfl) fun _ => rfl

theorem touches_newValue (b : Builder) (name : String) :
    Touches b.place.func b (b.newValue name).2 :=
  touches_modifyFunc b _ _ (fun _ => rfl) fun _ => rfl

/-- Defining a value touches the function at the place. -/
theorem touches_define (b : Builder) (name : String) (inst : ValueId → Inst) :
    Touches b.place.func b (b.define name inst).2 :=
  (touches_newValue b name).trans (touches_modifyBlock (b.newValue name).2 _)

/-- A call touches the function that calls, not the one that is called. -/
theorem touches_call (b : Builder) (f : FuncId) (args : List ValueId) (name : String) :
    Touches b.place.func b (b.call f args name).2 := by
  unfold Builder.call
  split
  · exact touches_define b name _
  · exact touches_newValue b name

theorem touches_phi (b : Builder) (incoming : List (ValueId × Place)) (name : String) :
    Touches b.place.func b (b.phi incoming name).2 :=
  (touches_newValue b name).trans (touches_modifyBlock (b.newValue name).2 _)

/-- Every operation has one of the five effects. -/
theorem effect_perform (b : Builder) (op : Operation) : Effect b (b.perform op) op := by
  cases op with
  | declare name params =>
    cases hf : b.find? name with
    | some i =>
      refine .kept ⟨by simp, by simp⟩ ?_
      rw [Builder.perform, declare_of_some hf]
    | none =>
      refine .declared hf ?_
      rw [Builder.perform, declare_of_none hf]
  | delete f => exact .deleted rfl
  | moveTo place => exact .kept ⟨by simp, by simp⟩ rfl
  | take => exact .taken rfl
  | appendBlock f label =>
    exact .built rfl (touches_modifyFunc b f _ (fun _ => rfl) fun _ => rfl)
  | addSlot f name =>
    exact .built rfl (touches_modifyFunc b f _ (fun _ => rfl) fun _ => rfl)
  | optimize f => exact .built rfl (touches_modifyFunc b f _ (fun _ => rfl) fun _ => rfl)
  | load | const | arith | less | nonzero => exact .built rfl (touches_define b _ _)
  | store | select | branch | ret => exact .built rfl (touches_modifyBlock b _)
  | call f args name => exact .built rfl (touches_call b f args name)
  | phi incoming name => exact .built rfl (touches_phi b incoming name)

end Touching

end Kaleidoscope.Ssa
