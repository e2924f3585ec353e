import Kaleidoscope.Proofs.Evaluation.Basic
import Kaleidoscope.Proofs.Expr.Induction
import Kaleidoscope.Proofs.Ssa.Layout
import Kaleidoscope.Lowering.Emit

/-!
# The code of an expression

`Coded f σ e m v m'` says that the function `f` holds the code of the expression `e` from the mark
`m` on, under the scope `σ`: the value of the expression is `v`, and control leaves the code at `m'`.
The relation follows the expression, one constructor for each form, and speaks of a finished
function: blocks stand where they stand, in whatever order they were built.

`Bodied f d` says the same of a whole definition.
-/

namespace Kaleidoscope

open Ssa

/-- The instruction of a binary operation. -/
def operation (op : Char) (dst lhs rhs : ValueId) : Inst :=
  match op with
  | '+' => .arith .add dst lhs rhs
  | '-' => .arith .sub dst lhs rhs
  | '*' => .arith .mul dst lhs rhs
  | '<' => .less dst lhs rhs
  | _ => .call dst (binaryName op) [lhs, rhs]

theorem operation_of_ne {op : Char} (h₁ : op ≠ '+') (h₂ : op ≠ '-') (h₃ : op ≠ '*') (h₄ : op ≠ '<')
    (dst lhs rhs : ValueId) :
    operation op dst lhs rhs = .call dst (binaryName op) [lhs, rhs] := by
  unfold operation
  split <;> first | rfl | contradiction

mutual

/-- The function holds the code of the expression from the first mark to the second. -/
inductive Coded (f : Func) : Scope → Expr → Mark → ValueId → Mark → Prop
  | number {σ : Scope} {m : Mark} {x : Float} :
    f.Defines m (.const · x) → Coded f σ (.number x) m m.fresh m.define
  | name {σ : Scope} {m : Mark} {x : String} {s : SlotId} :
    σ.get? x = some s → f.Defines m (.load · s) → Coded f σ (.variable x) m m.fresh m.define
  | unary {σ : Scope} {m m₁ : Mark} {op : Char} {e : Expr} {v : ValueId} :
    Coded f σ e m v m₁ → f.Defines m₁ (.call · (unaryName op) [v]) →
    Coded f σ (.unary op e) m m₁.fresh m₁.define
  | binary {σ : Scope} {m m₁ m₂ : Mark} {op : Char} {l r : Expr} {v w : ValueId} :
    Coded f σ l m v m₁ → Coded f σ r m₁ w m₂ → f.Defines m₂ (operation op · v w) →
    Coded f σ (.binary op l r) m m₂.fresh m₂.define
  | conditional {σ : Scope} {m m₁ m₂ m₃ : Mark} {c y n : Expr} {v v₁ v₂ : ValueId}
      {yes no join : BlockId} :
    Coded f σ c m v m₁ → f.Defines m₁ (.nonzero · v) →
    f.EndsAt m₁.block (m₁.index + 1) (.select m₁.fresh yes no) →
    Coded f σ y (m₁.define.enter yes) v₁ m₂ → f.EndsAt m₂.block m₂.index (.branch join) →
    Coded f σ n (m₂.enter no) v₂ m₃ → f.EndsAt m₃.block m₃.index (.branch join) →
    m₂.block ≠ m₃.block →
    f.Defines (m₃.enter join) (.phi · [(v₁, m₂.block), (v₂, m₃.block)]) →
    Coded f σ (.conditional c y n) m m₃.fresh (m₃.enter join).define
  | loop {σ : Scope} {m m₁ m₂ m₃ m₄ : Mark} {var : String} {start goOn body : Expr}
      {step : Option Expr} {v b g c : ValueId} {top after : BlockId} :
    m.slots < f.slots.size →
    Coded f σ start m.allot v m₁ → f.InstAt m₁.block m₁.index (.store m.freshSlot v) →
    f.EndsAt m₁.block (m₁.index + 1) (.branch top) →
    Coded f (σ.insert var m.freshSlot) body (m₁.enter top) b m₂ →
    Coded f (σ.insert var m.freshSlot) (.stepOrOne step) m₂ g m₃ →
    f.Defines m₃ (.load · m.freshSlot) →
    f.Defines m₃.define (.arith .add · m₃.fresh g) →
    f.InstAt m₃.block (m₃.index + 2) (.store m.freshSlot m₃.define.fresh) →
    Coded f (σ.insert var m.freshSlot) goOn m₃.define.define.next c m₄ →
    f.Defines m₄ (.nonzero · c) →
    f.EndsAt m₄.block (m₄.index + 1) (.select m₄.fresh top after) →
    f.Defines (m₄.define.enter after) (.const · 0.0) →
    Coded f σ (.loop var start goOn step body) m m₄.define.fresh (m₄.define.enter after).define
  | call {σ : Scope} {m m₁ : Mark} {callee : String} {args : List Expr} {vs : List ValueId} :
    CodedAll f σ args m vs m₁ → f.Defines m₁ (.call · callee vs) →
    Coded f σ (.call callee args) m m₁.fresh m₁.define

/-- The function holds the code of the expressions, one after another. -/
inductive CodedAll (f : Func) : Scope → List Expr → Mark → List ValueId → Mark → Prop
  | nil {σ : Scope} {m : Mark} : CodedAll f σ [] m [] m
  | cons {σ : Scope} {m m₁ m₂ : Mark} {e : Expr} {es : List Expr} {v : ValueId}
      {vs : List ValueId} :
    Coded f σ e m v m₁ → CodedAll f σ es m₁ vs m₂ → CodedAll f σ (e :: es) m (v :: vs) m₂

end

/-- The slots that parameters stand for, the first of them in the given slot. -/
def Scope.ofParams : Scope → Nat → List String → Scope
  | σ, _, [] => σ
  | σ, n, p :: ps => Scope.ofParams (σ.insert p ⟨n⟩) (n + 1) ps

/-- The function holds the code of the definition: the parameters go to their slots, and the body is
returned. -/
structure Bodied (f : Func) (d : Definition) : Prop where
  arity : f.arity = d.proto.arity
  slots : d.proto.arity ≤ f.slots.size
  values : d.proto.arity ≤ f.values.size
  stores : ∀ n < d.proto.arity, f.InstAt ⟨0⟩ n (.store ⟨n⟩ ⟨n⟩)
  body : ∃ v m, Coded f (.ofParams ∅ 0 d.proto.params) d.body
    ⟨⟨0⟩, d.proto.arity, d.proto.arity, d.proto.arity⟩ v m ∧ f.EndsAt m.block m.index (.ret v)

section Bounds

variable {f g : Func} {e : Expr}

/-- Expressions in a row number their values and slots upwards if each of them does. -/
theorem codedAll_bounds {es : List Expr}
    (h : ∀ e ∈ es, ∀ {σ m v m'}, Coded f σ e m v m' →
      m.values ≤ m'.values ∧ m.slots ≤ m'.slots ∧ v.index < m'.values) :
    ∀ {σ m vs m'}, CodedAll f σ es m vs m' →
      m.values ≤ m'.values ∧ m.slots ≤ m'.slots ∧ ∀ v ∈ vs, v.index < m'.values := by
  induction es with
  | nil =>
    intro σ m vs m' hc
    cases hc
    simp
  | cons e es ih =>
    intro σ m vs m' hc
    cases hc with
    | cons he hes =>
      obtain ⟨h₁, h₂, h₃⟩ := h e (by simp) he
      obtain ⟨i₁, i₂, i₃⟩ := ih (fun e he => h e (List.mem_cons_of_mem _ he)) hes
      exact ⟨by omega, by omega, List.forall_mem_cons.2 ⟨by omega, i₃⟩⟩

/-- The code of an expression takes values and slots, and its own value is among those taken. -/
theorem Coded.bounds : ∀ {σ m v m'}, Coded f σ e m v m' →
    m.values ≤ m'.values ∧ m.slots ≤ m'.slots ∧ v.index < m'.values := by
  induction e using Expr.induct with
  | number x =>
    intro σ m v m' h
    cases h
    simp [Mark.define, Mark.fresh]
  | name x =>
    intro σ m v m' h
    cases h
    simp [Mark.define, Mark.fresh]
  | unary op e ih =>
    intro σ m v m' h
    cases h with
    | unary he _ =>
      have := ih he
      simp only [Mark.define, Mark.fresh]
      omega
  | binary op l r ihl ihr =>
    intro σ m v m' h
    cases h with
    | binary hl hr _ =>
      have := ihl hl
      have := ihr hr
      simp only [Mark.define, Mark.fresh]
      omega
  | conditional c y n ihc ihy ihn =>
    intro σ m v m' h
    cases h with
    | conditional hc _ _ hy _ hn _ _ _ =>
      have := ihc hc
      have := ihy hy
      have := ihn hn
      simp only [Mark.define, Mark.fresh, Mark.enter] at *
      omega
  | loop var start goOn step body ihs ihg iht ihb =>
    intro σ m v m' h
    cases h with
    | loop _ hs _ _ hb ht _ _ _ hg _ _ _ =>
      have := ihs hs
      have := ihb hb
      have := iht ht
      have := ihg hg
      simp only [Mark.define, Mark.fresh, Mark.enter, Mark.next, Mark.allot] at *
      omega
  | call callee args ih =>
    intro σ m v m' h
    cases h with
    | call ha _ =>
      have := codedAll_bounds ih ha
      simp only [Mark.define, Mark.fresh]
      omega

end Bounds

end Kaleidoscope
