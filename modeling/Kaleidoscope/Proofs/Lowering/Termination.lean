import Kaleidoscope.Proofs.Engine.Loading
import Kaleidoscope.Proofs.Evaluation.LoopFree
import Kaleidoscope.Proofs.Lowering.Linking
import Kaleidoscope.Proofs.Lowering.Registering

/-!
# Runs of functions without loops

The code of an accepted definition is in scope, since the code of a variable was found in its slot
(`Coded.scoped`). So an engine whose functions were all lowered from definitions without loops is
linked to definitions of which no call is cut off, and neither is a run of the engine: the depth of
calls bounds the recursion, and the expression bounds what a call does, although the blocks of its
code are not visited in the order of their numbers.

Main statement: `Engine.run_settles`.
-/

namespace Kaleidoscope

open Ssa Engine

/-- The function is what lowering has made of the definition, whatever it was asked for before. -/
def LoweredFrom (f : Func) (d : Definition) : Prop :=
  ∃ moduleName requests i l,
    Lower.definition d ((Lowering.empty moduleName).after requests) = .ok i l ∧
      l.builder.func? i = some f

section Modules

variable {i : FuncId} {f : Func}

/-- Every function with a body was lowered from a definition that was asked for. -/
theorem loweredFrom_of_after (moduleName : String) (requests : List Request)
    (hf : ((Lowering.empty moduleName).after requests).builder.func? i = some f)
    (hb : f.isDeclaration = false) : ∃ d, .define d ∈ requests ∧ LoweredFrom f d := by
  obtain ⟨d, earlier, later, j, l', rfl, hd, hj⟩ :=
    Lowering.made_of_after moduleName requests hf hb
  exact ⟨d, by simp, moduleName, earlier, j, l', hd, hj⟩

/-- A loaded function was loaded before, or is a function of the module that has a body. -/
theorem of_lookup_add {b : Builder} {e : Engine} {name : String}
    (h : (Engine.add b.module e).2.lookup name = some f) :
    e.lookup name = some f ∨ ∃ i, b.func? i = some f ∧ f.isDeclaration = false := by
  rw [Engine.lookup_add, Option.or_eq_some_iff] at h
  refine h.symm.imp And.right fun hf => ?_
  obtain ⟨hf, body⟩ := List.mem_filter.1 (List.mem_reverse.1 (List.mem_of_find?_eq_some hf))
  obtain ⟨n, hn⟩ := List.mem_iff_getElem?.1 hf
  exact ⟨⟨n⟩, by rwa [Array.getElem?_toList] at hn, by simpa using body⟩

end Modules

section Scopes

variable {f : Func} {e : Expr} {vars : List String}

theorem codedAll_scoped {es : List Expr} {σ : Scope} (hσ : ∀ x, (σ.get? x).isSome → x ∈ vars)
    (h : ∀ e ∈ es, ∀ {σ m v m' vars}, Coded f σ e m v m' →
      (∀ x, (σ.get? x).isSome → x ∈ vars) → e.Scoped vars) :
    ∀ {m vs m'}, CodedAll f σ es m vs m' → ∀ e ∈ es, e.Scoped vars := by
  induction es with
  | nil =>
    intro m vs m' _ e he
    cases he
  | cons e es ih =>
    intro m vs m' hc
    cases hc with
    | cons he hes =>
      exact List.forall_mem_cons.2
        ⟨h e (by simp) he hσ, ih (fun e he => h e (List.mem_cons_of_mem _ he)) hes⟩

/-- An expression that has code is in scope. -/
theorem Coded.scoped : ∀ {σ m v m' vars}, Coded f σ e m v m' →
    (∀ x, (σ.get? x).isSome → x ∈ vars) → e.Scoped vars := by
  induction e using Expr.induct with
  | number x => exact fun _ _ => .number
  | name x =>
    intro σ m v m' vars h hσ
    cases h with
    | name hs _ => exact .name (hσ x (by rw [hs]; rfl))
  | unary op e ih =>
    intro σ m v m' vars h hσ
    cases h with
    | unary he _ => exact .unary trivial (ih he hσ)
  | binary op l r ihl ihr =>
    intro σ m v m' vars h hσ
    cases h with
    | binary hl hr _ => exact .binary (fun _ _ _ _ => trivial) (ihl hl hσ) (ihr hr hσ)
  | conditional c y n ihc ihy ihn =>
    intro σ m v m' vars h hσ
    cases h with
    | conditional hc _ _ hy _ hn _ _ _ => exact .conditional (ihc hc hσ) (ihy hy hσ) (ihn hn hσ)
  | loop var start goOn step body ihs ihg iht ihb =>
    intro σ m v m' vars h hσ
    have inner : ∀ {s : SlotId} (x : String), ((σ.insert var s).get? x).isSome → x ∈ var :: vars := by
      intro s x hx
      rw [Scope.get?_insert] at hx
      split at hx
      · next he => exact he ▸ List.mem_cons_self
      · exact List.mem_cons_of_mem _ (hσ x hx)
    cases h with
    | loop _ hs _ _ hb ht _ _ _ hg _ _ _ =>
      exact .loop (ihs hs hσ) (ihg hg inner) (iht ht inner) (ihb hb inner)
  | call callee args ih =>
    intro σ m v m' vars h hσ
    cases h with
    | call ha _ => exact .call trivial (codedAll_scoped hσ ih ha)

/-- Only parameters stand for slots at the start of a body. -/
theorem mem_of_ofParams {params : List String} {x : String} : ∀ {σ : Scope} {n : Nat},
    ((Scope.ofParams σ n params).get? x).isSome → x ∈ params ∨ (σ.get? x).isSome := by
  induction params with
  | nil => exact fun h => .inr h
  | cons p ps ih =>
    intro σ n h
    rcases ih h with hx | hx
    · exact .inl (List.mem_cons_of_mem _ hx)
    · rw [Scope.get?_insert] at hx
      split at hx
      · next he => exact .inl (he ▸ List.mem_cons_self)
      · exact .inr hx

/-- The variables of a body that has code are parameters. -/
theorem Bodied.scoped {d : Definition} (h : Bodied f d) : d.body.Scoped d.proto.params := by
  obtain ⟨v, m, code, -⟩ := h.body
  refine code.scoped fun x hx => ?_
  rcases mem_of_ofParams hx with hx | hx
  · exact hx
  · simp at hx

end Scopes

section Engines

variable {f : Func} {d : Definition} {e : Engine}

/-- What was lowered from a definition implements it. -/
theorem LoweredFrom.implements (h : LoweredFrom f d) : Implements f d := by
  obtain ⟨moduleName, requests, i, l, hd, hf⟩ := h
  have coherent := Lowering.Coherent.after requests (Lowering.coherent_empty moduleName)
  rcases Lower.definition_cases coherent d with ⟨e, l', he, -⟩ | ⟨k, l', he, accepted⟩
  · cases he.symm.trans hd
  · cases he.symm.trans hd
    obtain ⟨g, hg, strict, bodied⟩ := accepted.func
    cases hf.symm.trans hg
    exact ⟨g, rfl, strict.check, bodied⟩

/-- If every value of a dictionary has a partner, the partners make a dictionary. -/
theorem exists_partners {κ α β : Type} [DecidableEq κ] [Nonempty β] {R : α → β → Prop}
    {values : Dict κ α} (h : ∀ k a, values.get? k = some a → ∃ b, R a b) :
    ∃ partners : Dict κ β, ∀ k, (values.get? k = none ∧ partners.get? k = none) ∨
      ∃ a b, values.get? k = some a ∧ partners.get? k = some b ∧ R a b := by
  -- a value that is shadowed may have none, and then any choice will do
  obtain ⟨partner, hp⟩ : ∃ partner : α → β, ∀ a, (∃ b, R a b) → R a (partner a) :=
    ⟨fun a => Classical.epsilon (R a), fun a ha => Classical.epsilon_spec ha⟩
  refine ⟨⟨values.entries.map fun entry => (entry.1, partner entry.2)⟩, fun k => ?_⟩
  have view : Dict.get? ⟨values.entries.map fun entry => (entry.1, partner entry.2)⟩ k =
      (values.get? k).map partner := by
    simp [Dict.get?, List.find?_map, Function.comp_def]
  rw [view]
  cases hv : values.get? k with
  | none => exact .inl ⟨rfl, rfl⟩
  | some a => exact .inr ⟨a, partner a, rfl, rfl, hp a (h k a hv)⟩

/-- An engine whose functions were lowered from definitions without loops is linked to such
definitions. -/
theorem exists_linked
    (h : ∀ name f, e.lookup name = some f → ∃ d, LoweredFrom f d ∧ d.body.LoopFree) :
    ∃ definitions, Linked e definitions ∧ LoopFreeDefinitions definitions := by
  have : Nonempty Definition := ⟨.anonymous (.number 0.0)⟩
  obtain ⟨definitions, partners⟩ := exists_partners h
  refine ⟨definitions, fun name => ?_, fun name d hd => ?_⟩
  · rcases partners name with ⟨hf, hd⟩ | ⟨f, d, hf, hd, lowered, -⟩
    · rw [hf, hd]
      exact .none
    · rw [hf, hd]
      exact .some lowered.implements
  · rcases partners name with ⟨-, hd'⟩ | ⟨f, d', -, hd', lowered, free⟩
    · cases hd'.symm.trans hd
    · cases hd'.symm.trans hd
      obtain ⟨g, -, -, bodied⟩ := lowered.implements
      exact ⟨free, bodied.scoped⟩

/-- **Runs without loops come to an end.** If every function that an engine has loaded was lowered
from a definition without loops, whatever the recursion among them, then a call of any name with any
arguments has a result, which it comes to in finitely many steps. It is a value, or the run stops
because calls are nested too deeply, a function is called with a wrong number of arguments, or a name
is unknown. -/
theorem Engine.run_settles
    (h : ∀ name f, e.lookup name = some f → ∃ d, LoweredFrom f d ∧ d.body.LoopFree)
    (name : String) (args : List Float) (log : String) :
    ∃ r, Settles (fun fuel => e.run fuel name args) log r ∧
      ((∃ x text, r = .ok x text) ∨ ∃ cause text, r = .error cause text ∧ cause.Prompt) := by
  obtain ⟨definitions, linked, free⟩ := exists_linked h
  have settles : ∀ r, Definition.callWithin definitions 0 maxDepth name args log = r →
      (∀ text, r ≠ .error .outOfFuel text) → Settles (fun fuel => e.run fuel name args) log r := by
    intro r hr hne
    refine ((sameRuns_of_linked linked name args log).settles r).2 ⟨hne, 0, fun n _ => ?_⟩
    dsimp only
    rw [callWithin_eq free n 0]
    exact hr
  cases hr : Definition.callWithin definitions 0 maxDepth name args log with
  | ok x text => exact ⟨_, settles _ hr (by simp), .inl ⟨x, text, rfl⟩⟩
  | error cause text =>
    have prompt := ((finishes_callWithin free 0 maxDepth name args).error trivial hr).2
    refine ⟨_, settles _ hr fun text' he => ?_, .inr ⟨cause, text, rfl, prompt⟩⟩
    cases he
    simp [Stop.Prompt] at prompt

/-- A function that calls itself as long as its argument is not zero, and never with another one. -/
def circling : Definition :=
  ⟨⟨.function "f", ["x"]⟩,
    .conditional (.variable "x") (.call "f" [.variable "x"]) (.variable "x")⟩

theorem run_settles_circling :
    let m := ((Lowering.empty "m").after [.define circling]).builder.module
    let e := (Engine.add m {}).2
    (e.lookup "f").isSome ∧
      (∀ name f, e.lookup name = some f → ∃ d, LoweredFrom f d ∧ d.body.LoopFree) ∧
      ∃ r, Settles (fun fuel => e.run fuel "f" [1.0]) "" r ∧
        ((∃ x text, r = .ok x text) ∨ ∃ cause text, r = .error cause text ∧ cause.Prompt) := by
  intro m e
  have free : circling.body.LoopFree :=
    .conditional (.name "x") (.call (List.forall_mem_singleton.2 (.name "x"))) (.name "x")
  have loaded : ∀ name f, e.lookup name = some f → ∃ d, LoweredFrom f d ∧ d.body.LoopFree := by
    intro name f hf
    rcases of_lookup_add hf with old | ⟨i, hi, body⟩
    · cases old
    · obtain ⟨d, hd, lowered⟩ := loweredFrom_of_after "m" [.define circling] hi body
      cases List.mem_singleton.1 hd
      exact ⟨circling, lowered, free⟩
  exact ⟨by decide +kernel, loaded, Engine.run_settles loaded "f" [1.0] ""⟩

end Engines

end Kaleidoscope
