import Kaleidoscope.Proofs.Evaluation.Safety
import Kaleidoscope.Proofs.Lowering.Coded

/-!
# Evaluation without loops

Only a loop can go on without end: recursion is cut off at a fixed depth of calls. So if no body has
a loop in it, a call is never cut off by the bound on turns, which does not even count
(`callWithin_eq`), and it has a value or stops for a reason of its own (`finishes_callWithin`).
-/

namespace Kaleidoscope

open Engine (Run Caller Host)

/-- No loop occurs in the expression. -/
inductive Expr.LoopFree : Expr → Prop
  | number (x : Float) : LoopFree (.number x)
  | name (x : String) : LoopFree (.variable x)
  | unary {op : Char} {e : Expr} : LoopFree e → LoopFree (.unary op e)
  | binary {op : Char} {l r : Expr} : LoopFree l → LoopFree r → LoopFree (.binary op l r)
  | conditional {c y n : Expr} :
    LoopFree c → LoopFree y → LoopFree n → LoopFree (.conditional c y n)
  | call {f : String} {args : List Expr} : (∀ e ∈ args, LoopFree e) → LoopFree (.call f args)

/-- The variables are in scope; any call is allowed. -/
abbrev Expr.Scoped (vars : List String) (e : Expr) : Prop :=
  e.WellCalled (fun _ _ => True) vars

/-- The reasons to stop that a run without loops can have. -/
def Stop.Prompt (cause : Stop) : Prop :=
  cause = .stackExhausted ∨ (∃ name wanted given, cause = .wrongArguments name wanted given) ∨
    ∃ name, cause = .unresolved name

/-- The run has a result, or stops for one of these reasons. -/
abbrev Finishes {α : Type} (a : Run α) : Prop :=
  Keeps (fun _ : String => True) (fun _ => True) Stop.Prompt a

section Expressions

variable {call : Caller} {fuel : Nat} {e : Expr}

/-- Operators finish where calls do: the built-in ones are arithmetic, and the others are calls. -/
theorem finishes_operate (hcall : ∀ name args, Finishes (call name args)) (op : Char) (x y : Float) :
    Finishes (Expr.operate call op x y) := by
  unfold Expr.operate
  split
  · exact keeps_pure trivial
  · exact keeps_pure trivial
  · exact keeps_pure trivial
  · exact keeps_pure trivial
  · exact hcall _ _

/-- Arguments are evaluated one by one, each under the same bound. -/
theorem finishes_evalAll {env : Bindings} {es : List Expr}
    (h : ∀ e ∈ es, Finishes (e.eval call fuel env)) : Finishes (Expr.evalAll call fuel env es) := by
  induction es with
  | nil => exact keeps_pure trivial
  | cons e es ih =>
    unfold Expr.evalAll
    refine (h e (by simp)).bind fun x _ => ?_
    exact (ih fun e he => h e (List.mem_cons_of_mem _ he)).bind fun xs _ => keeps_pure trivial

/-- An expression without loops comes to an end if its calls do. -/
theorem Expr.LoopFree.finishes_eval (h : e.LoopFree)
    (hcall : ∀ name args, Finishes (call name args)) {vars : List String} (hs : e.Scoped vars)
    {env : Bindings} (henv : ∀ x ∈ vars, (env.get? x).isSome) : Finishes (e.eval call fuel env) := by
  induction h with
  | number => exact keeps_pure trivial
  | name =>
    cases hs with
    | name hx =>
      obtain ⟨x, hx⟩ := Option.isSome_iff_exists.1 (henv _ hx)
      simp only [Expr.eval, hx]
      exact keeps_pure trivial
  | unary _ ih =>
    cases hs with
    | unary _ he =>
      simp only [Expr.eval]
      exact (ih he).bind fun x _ => hcall _ _
  | binary _ _ ihl ihr =>
    cases hs with
    | binary _ hl hr =>
      simp only [Expr.eval]
      exact (ihl hl).bind fun x _ => (ihr hr).bind fun y _ => finishes_operate hcall _ x y
  | conditional _ _ _ ihc ihy ihn =>
    cases hs with
    | conditional hc hy hn =>
      simp only [Expr.eval]
      apply (ihc hc).bind
      intro x _
      split
      · exact ihy hy
      · exact ihn hn
  | call _ ih =>
    cases hs with
    | call _ ha =>
      simp only [Expr.eval]
      exact (finishes_evalAll fun e he => ih e he (ha e he)).bind fun xs _ => hcall _ _

/-- Arguments that do not depend on the bound do not do so together. -/
theorem evalAll_eq (fuel fuel' : Nat) {env : Bindings} {es : List Expr}
    (h : ∀ e ∈ es, e.eval call fuel env = e.eval call fuel' env) :
    Expr.evalAll call fuel env es = Expr.evalAll call fuel' env es := by
  induction es with
  | nil => simp only [Expr.evalAll]
  | cons e es ih =>
    have rest := ih fun e he => h e (List.mem_cons_of_mem _ he)
    simp only [Expr.evalAll, h e (by simp), rest]

/-- The bound on turns does not count where there are no loops. -/
theorem Expr.LoopFree.eval_eq (h : e.LoopFree) (fuel fuel' : Nat) (env : Bindings) :
    e.eval call fuel env = e.eval call fuel' env := by
  induction h with
  | number => simp only [Expr.eval]
  | name => simp only [Expr.eval]
  | unary _ ih => simp only [Expr.eval, ih]
  | binary _ _ ihl ihr => simp only [Expr.eval, ihl, ihr]
  | conditional _ _ _ ihc ihy ihn => simp only [Expr.eval, ihc, ihy, ihn]
  | call _ ih => simp only [Expr.eval, evalAll_eq fuel fuel' ih]

end Expressions

/-- No body has a loop in it, and the variables of each are its parameters. -/
def LoopFreeDefinitions (definitions : Dict String Definition) : Prop :=
  ∀ name d, definitions.get? name = some d → d.body.LoopFree ∧ d.body.Scoped d.proto.params

section Definitions

variable {definitions : Dict String Definition}

/-- Calls among such definitions do not depend on the bound on turns. -/
theorem callWithin_eq (h : LoopFreeDefinitions definitions) (fuel fuel' depth : Nat) :
    Definition.callWithin definitions fuel depth = Definition.callWithin definitions fuel' depth := by
  induction depth with
  | zero =>
    funext name args
    simp only [Definition.callWithin]
  | succ depth ih =>
    funext name args
    simp only [Definition.callWithin]
    cases hd : definitions.get? name with
    | none => rfl
    | some d => simp only [ih, (h name d hd).1.eval_eq fuel fuel']

/-- Calls among such definitions come to an end. -/
theorem finishes_callWithin (h : LoopFreeDefinitions definitions) (fuel depth : Nat) :
    ∀ name args, Finishes (Definition.callWithin definitions fuel depth name args) := by
  induction depth with
  | zero => exact fun _ _ => keeps_throw (.inl rfl)
  | succ depth ih =>
    intro name args
    unfold Definition.callWithin
    cases hd : definitions.get? name with
    | some d =>
      obtain ⟨free, inScope⟩ := h name d hd
      by_cases ha : d.proto.arity = args.length
      · simp only [if_pos ha]
        exact free.finishes_eval ih inScope fun _ hx => isSome_bind ha.symm (.inl hx)
      · simp only [if_neg ha]
        exact keeps_throw (.inr (.inl ⟨_, _, _, rfl⟩))
    | none =>
      cases hh : Host.ofName? name with
      | some host =>
        refine ⟨fun _ _ => ⟨trivial, trivial⟩, fun _ hr => ?_⟩
        cases hr
      | none => exact keeps_throw (.inr (.inr ⟨_, rfl⟩))

end Definitions

end Kaleidoscope
