import Kaleidoscope.Proofs.Action
import Kaleidoscope.Proofs.Evaluation.Basic
import Kaleidoscope.Proofs.Expr.Induction

/-!
# Evaluation that does not go wrong

`Expr.WellCalled C vars e` says that the variables of `e` are in scope and that its calls are ones
that `C` allows. If the bodies of all definitions are well called (`WellDefined`), so that a name is
only ever called with as many arguments as its definition has parameters, then a call is stopped for
one of three reasons (`WellDefined.safe_callWithin`): calls are nested too deeply, the bound on the
turns of a loop is used up, or a name is called that has no definition and is not the host's either.
-/

namespace Kaleidoscope

open Engine (Run Caller Host)

/-- The variables are in scope, and each function is called with a number of arguments that `C`
allows for its name. -/
inductive Expr.WellCalled (C : String → Nat → Prop) : List String → Expr → Prop
  | number {vars : List String} {x : Float} : WellCalled C vars (.number x)
  | name {vars : List String} {x : String} : x ∈ vars → WellCalled C vars (.variable x)
  | unary {vars : List String} {op : Char} {e : Expr} :
    C (unaryName op) 1 → WellCalled C vars e → WellCalled C vars (.unary op e)
  | binary {vars : List String} {op : Char} {l r : Expr} :
    (op ≠ '+' → op ≠ '-' → op ≠ '*' → op ≠ '<' → C (binaryName op) 2) →
    WellCalled C vars l → WellCalled C vars r → WellCalled C vars (.binary op l r)
  | conditional {vars : List String} {c y n : Expr} :
    WellCalled C vars c → WellCalled C vars y → WellCalled C vars n →
    WellCalled C vars (.conditional c y n)
  | loop {vars : List String} {var : String} {start goOn body : Expr} {step : Option Expr} :
    WellCalled C vars start → WellCalled C (var :: vars) goOn →
    WellCalled C (var :: vars) (.stepOrOne step) → WellCalled C (var :: vars) body →
    WellCalled C vars (.loop var start goOn step body)
  | call {vars : List String} {callee : String} {args : List Expr} :
    C callee args.length → (∀ e ∈ args, WellCalled C vars e) →
    WellCalled C vars (.call callee args)

/-- Allowing more calls does no harm. -/
theorem Expr.WellCalled.mono {C C' : String → Nat → Prop} (h : ∀ f n, C f n → C' f n)
    {vars : List String} {e : Expr} (he : e.WellCalled C vars) : e.WellCalled C' vars := by
  induction he with
  | number => exact .number
  | name hx => exact .name hx
  | unary hc _ ih => exact .unary (h _ _ hc) ih
  | binary hc _ _ ihl ihr => exact .binary (fun h₁ h₂ h₃ h₄ => h _ _ (hc h₁ h₂ h₃ h₄)) ihl ihr
  | conditional _ _ _ ihc ihy ihn => exact .conditional ihc ihy ihn
  | loop _ _ _ _ ihs ihg iht ihb => exact .loop ihs ihg iht ihb
  | call hc _ ih => exact .call (h _ _ hc) ih

/-- What may stop a run of a well called expression. -/
def Stop.Tolerable (missing : String → Prop) (cause : Stop) : Prop :=
  cause = .outOfFuel ∨ cause = .stackExhausted ∨ ∃ name, cause = .unresolved name ∧ missing name

/-- The run has a result that satisfies `P`, or is stopped for a reason that is tolerable. -/
abbrev Safe {α : Type} (missing : String → Prop) (P : α → Prop) (a : Run α) : Prop :=
  Keeps (fun _ : String => True) P (Stop.Tolerable missing) a

section Expressions

variable {missing : String → Prop} {C : String → Nat → Prop} {call : Caller} {fuel : Nat}

/-- A loop is as safe as its turns, however many there are. -/
theorem safe_turns {turn : Float → Run (Float × Bool)}
    (h : ∀ x, Safe missing (fun _ => True) (turn x)) (n : Nat) :
    ∀ x, Safe missing (fun _ => True) (Expr.turns turn n x) := by
  induction n with
  | zero => exact fun _ => keeps_throw (.inl rfl)
  | succ n ih =>
    intro x
    unfold Expr.turns
    apply (h x).bind
    intro result _
    dsimp only
    split
    · exact ih _
    · exact keeps_pure trivial

/-- An operator is safe if it is built in or its function can be called. -/
theorem safe_operate {op : Char} (x y : Float)
    (h : op ≠ '+' → op ≠ '-' → op ≠ '*' → op ≠ '<' →
      Safe missing (fun _ => True) (call (binaryName op) [x, y])) :
    Safe missing (fun _ => True) (Expr.operate call op x y) := by
  unfold Expr.operate
  split
  · exact keeps_pure trivial
  · exact keeps_pure trivial
  · exact keeps_pure trivial
  · exact keeps_pure trivial
  · next h₁ h₂ h₃ h₄ => exact h h₁ h₂ h₃ h₄

/-- Arguments that can be evaluated give one number each. -/
theorem safe_evalAll {env : Bindings} {es : List Expr}
    (h : ∀ e ∈ es, Safe missing (fun _ => True) (e.eval call fuel env)) :
    Safe missing (fun xs => xs.length = es.length) (Expr.evalAll call fuel env es) := by
  induction es with
  | nil => exact keeps_pure rfl
  | cons e es ih =>
    unfold Expr.evalAll
    apply (h e (by simp)).bind
    intro x _
    refine (ih fun e he => h e (List.mem_cons_of_mem _ he)).bind fun xs hxs => keeps_pure ?_
    simp [hxs]

/-- A well called expression is safe if the calls that are allowed are. -/
theorem Expr.WellCalled.safe_eval {vars : List String} {e : Expr} (he : e.WellCalled C vars)
    (hcall : ∀ f args, C f args.length → Safe missing (fun _ => True) (call f args)) :
    ∀ {env : Bindings}, (∀ x ∈ vars, (env.get? x).isSome) →
      Safe missing (fun _ => True) (e.eval call fuel env) := by
  induction he with
  | number => exact fun _ => keeps_pure trivial
  | name hx =>
    intro env henv
    obtain ⟨x, hx⟩ := Option.isSome_iff_exists.1 (henv _ hx)
    simp only [Expr.eval, hx]
    exact keeps_pure trivial
  | unary hc _ ih =>
    intro env henv
    simp only [Expr.eval]
    exact (ih henv).bind fun x _ => hcall _ [x] hc
  | binary hc _ _ ihl ihr =>
    intro env henv
    simp only [Expr.eval]
    refine (ihl henv).bind fun x _ => (ihr henv).bind fun y _ => safe_operate x y ?_
    exact fun h₁ h₂ h₃ h₄ => hcall _ [x, y] (hc h₁ h₂ h₃ h₄)
  | conditional _ _ _ ihc ihy ihn =>
    intro env henv
    simp only [Expr.eval]
    apply (ihc henv).bind
    intro x _
    split
    · exact ihy henv
    · exact ihn henv
  | @loop vars var start goOn body step _ _ _ _ ihs ihg iht ihb =>
    intro env henv
    simp only [Expr.eval, Expr.evalStep_eq]
    -- the variable of the loop is bound, whatever its value
    have bound : ∀ x, ∀ y ∈ var :: vars, ((env.insert var x).get? y).isSome := by
      intro x y hy
      rw [Dict.get?_insert]
      split
      · rfl
      · next hne => exact henv y ((List.mem_cons.1 hy).resolve_left hne)
    refine (ihs henv).bind fun first _ => (safe_turns (fun x => ?_) fuel first).bind fun _ _ => ?_
    · refine (ihb (bound x)).bind fun _ _ => (iht (bound x)).bind fun growth _ => ?_
      exact (ihg (bound _)).bind fun again _ => keeps_pure trivial
    · exact keeps_pure trivial
  | call hc _ ih =>
    intro env henv
    simp only [Expr.eval]
    exact (safe_evalAll fun e he => ih e he henv).bind fun xs hxs => hcall _ xs (hxs ▸ hc)

end Expressions

/-- All bodies are well called, and what is called by the name of a definition is called with as
many arguments as it has parameters. -/
structure WellDefined (C : String → Nat → Prop) (definitions : Dict String Definition) : Prop where
  body : ∀ {name d}, definitions.get? name = some d → d.body.WellCalled C d.proto.params
  arity : ∀ {name d n}, definitions.get? name = some d → C name n → d.proto.arity = n

section Definitions

variable {C : String → Nat → Prop} {definitions : Dict String Definition} {missing : String → Prop}

/-- Binding parameters gives each of them a number and hides no name that had one. -/
theorem isSome_bind {params : List String} :
    ∀ {args : List Float} {env : Bindings} {x : String}, args.length = params.length →
      x ∈ params ∨ (env.get? x).isSome → ((Bindings.bind env params args).get? x).isSome := by
  induction params with
  | nil =>
    intro args env x _ hx
    simpa [Bindings.bind] using hx
  | cons p ps ih =>
    intro args env x hl hx
    cases args with
    | nil => cases hl
    | cons y ys =>
      apply ih (Nat.succ.inj hl)
      rw [Dict.get?_insert]
      split
      · exact .inr rfl
      · next hne => exact hx.imp_left fun h => (List.mem_cons.1 h).resolve_left hne

/-- A further definition, whose name is called with the right number of arguments if it is called. -/
theorem WellDefined.insert (h : WellDefined C definitions) {name : String} {d : Definition}
    (hb : d.body.WellCalled C d.proto.params) (ha : ∀ n, C name n → d.proto.arity = n) :
    WellDefined C (definitions.insert name d) := by
  constructor
  · intro name' d' hd
    rw [Dict.get?_insert] at hd
    split at hd
    · cases hd
      exact hb
    · exact h.body hd
  · intro name' d' n hd hc
    rw [Dict.get?_insert] at hd
    split at hd
    · next he =>
      cases hd
      exact ha n (he ▸ hc)
    · exact h.arity hd hc

/-- The body of a definition is safe if the calls that are allowed are. -/
theorem WellDefined.safe_body (h : WellDefined C definitions) {name : String} {d : Definition}
    (hd : definitions.get? name = some d) {call : Caller} {fuel : Nat}
    (hcall : ∀ f args, C f args.length → Safe missing (fun _ => True) (call f args))
    {args : List Float} (ha : args.length = d.proto.arity) :
    Safe missing (fun _ => True) (d.body.eval call fuel (Bindings.bind ∅ d.proto.params args)) :=
  (h.body hd).safe_eval hcall fun _ hx => isSome_bind ha (.inl hx)

/-- A call that is allowed is safe, however deeply calls may be nested. -/
theorem WellDefined.safe_callWithin (h : WellDefined C definitions)
    (hmissing : ∀ {f n}, C f n → definitions.get? f = none → Host.ofName? f = none → missing f)
    (fuel depth : Nat) : ∀ f args, C f args.length →
      Safe missing (fun _ => True) (Definition.callWithin definitions fuel depth f args) := by
  induction depth with
  | zero => exact fun _ _ _ => keeps_throw (.inr (.inl rfl))
  | succ depth ih =>
    intro f args hc
    unfold Definition.callWithin
    cases hd : definitions.get? f with
    | some d =>
      have arity := h.arity hd hc
      simp only [if_pos arity]
      exact h.safe_body hd ih arity.symm
    | none =>
      cases hh : Host.ofName? f with
      | some host =>
        refine ⟨fun _ hr => ?_, fun _ hr => nomatch hr⟩
        exact ⟨trivial, trivial⟩
      | none => exact keeps_throw (.inr (.inr ⟨f, rfl, hmissing hc hd hh⟩))

end Definitions

end Kaleidoscope
