import Kaleidoscope.Proofs.Lowering.Requests

/-!
# A refused request leaves no trace

A definition that fails has by then registered its prototype and declared what it calls, and it takes
back more than it did: its function is deleted also if it was declared before. So the module is not
the one before. What is `Alike` is all that later answers depend on: what is registered, which names
are defined, and which have bodies in the module. Alike lowerings answer alike and stay alike
(`Lowering.Alike.ask`).

Main statement: `Lowering.answers_after_refused`.
-/

namespace Kaleidoscope

open Ssa

namespace Lowering

variable {l l' : Lowering} {proto : Prototype} {d : Definition}

/-- Whether a prototype is refused is decided by what is registered. -/
theorem Alike.agrees (h : l.Alike l') : Lower.Agrees l proto ↔ Lower.Agrees l' proto := by
  simp only [Lower.Agrees, h.registry]

/-- Alike lowerings refuse a declaration together, or stay alike. -/
theorem Alike.declaration (h : l.Alike l') (proto : Prototype) :
    (∃ e, Lower.declaration proto l = .error e l ∧ Lower.declaration proto l' = .error e l') ∨
      ∃ i i' l₁ l₁', Lower.declaration proto l = .ok i l₁ ∧ Lower.declaration proto l' = .ok i' l₁' ∧
        l₁.Alike l₁' := by
  rcases Lower.declaration_eq h.coherent proto with ⟨ha, i, l₁, he, registered⟩ | ⟨ha, he⟩
  · rcases Lower.declaration_eq h.coherent' proto with ⟨-, i', l₁', he', registered'⟩ | ⟨ha', -⟩
    · refine .inr ⟨i, i', l₁, l₁', he, he', registered.coherent, registered'.coherent, ?_, ?_,
        fun name => ?_⟩
      · rw [registered.registry, registered'.registry, h.registry]
      · rw [registered.defined, registered'.defined, h.defined]
      · rw [registered.bodies, registered'.bodies, h.bodies]
    · exact absurd (h.agrees.1 ha) ha'
  · rcases Lower.declaration_eq h.coherent' proto with ⟨ha', -⟩ | ⟨-, he'⟩
    · exact absurd (h.agrees.2 ha') ha
    · exact .inl ⟨_, he, he'⟩

/-- Alike lowerings refuse a definition together, or leave the same code for it. -/
theorem Alike.definition (h : l.Alike l') (d : Definition) :
    (∃ e l₁ l₁', Lower.definition d l = .error e l₁ ∧ Lower.definition d l' = .error e l₁' ∧
        l₁.Alike l₁') ∨
      ∃ i i' l₁ l₁' f f', Lower.definition d l = .ok i l₁ ∧ Lower.definition d l' = .ok i' l₁' ∧
        l₁.Alike l₁' ∧ l₁.builder.func? i = some f ∧ l₁'.builder.func? i' = some f' ∧
        f.blocks = f'.blocks ∧ f.slots = f'.slots := by
  have same := h.isDefined d.proto.name
  rcases Lower.definition_eq h.coherent d with
    ⟨hd, he⟩ | ⟨hd, ha, he⟩ | ⟨hd, ha, i, l₁, registered, he⟩
  · rcases Lower.definition_eq h.coherent' d with ⟨-, he'⟩ | ⟨hd', -⟩ | ⟨hd', -⟩
    · exact .inl ⟨_, l, l', he, he', h⟩
    · cases hd.symm.trans (same.trans hd')
    · cases hd.symm.trans (same.trans hd')
  · rcases Lower.definition_eq h.coherent' d with ⟨hd', -⟩ | ⟨-, -, he'⟩ | ⟨-, ha', -⟩
    · cases hd'.symm.trans (same.symm.trans hd)
    · exact .inl ⟨_, l, l', he, he', h⟩
    · exact absurd (h.agrees.2 ha') ha
  · rcases Lower.definition_eq h.coherent' d with
      ⟨hd', -⟩ | ⟨-, ha', -⟩ | ⟨hd', -, i', l₁', registered', he'⟩
    · cases hd'.symm.trans (same.symm.trans hd)
    · exact absurd (h.agrees.1 ha) ha'
    rw [he, he']
    -- both are declared, and the code goes into twins
    obtain ⟨params, hl, hi⟩ := registered.declared h.coherent hd
    obtain ⟨params', hl', hi'⟩ := registered'.declared h.coherent' hd'
    have registry : l₁.registry = l₁'.registry := by
      rw [registered.registry, registered'.registry, h.registry]
    have together := Emit.parallel_code registered.coherent.named registered.coherent.agreed
      (registry ▸ registered'.coherent.agreed) hi hi' (hl.trans hl'.symm) d
    rcases together.cases with ⟨_, _, st, st', hc, hc', twin, -⟩ | ⟨e, st, st', hc, hc', -⟩
    · obtain ⟨hfill, accepted, f, hf, folded⟩ :=
        Lower.accepted_of_code h.coherent hd registered hc
      obtain ⟨hfill', accepted', f', hf', folded'⟩ :=
        Lower.accepted_of_code h.coherent' hd' registered' (registry ▸ hc')
      obtain ⟨g, g', hg, hg', same⟩ := twin.builder.func
      cases hf.symm.trans hg
      cases hf'.symm.trans hg'
      refine .inr ⟨i, i', _, _, f.fold, f'.fold, hfill, hfill', ⟨accepted.coherent,
        accepted'.coherent, registry, ?_, fun name => ?_⟩, folded, folded', ?_, same.slots⟩
      · rw [accepted.defined, accepted'.defined, h.defined]
      · rw [accepted.bodies, accepted'.bodies, h.bodies]
      · simp only [Func.fold, Func.insts, same.blocks]
    · obtain ⟨hfill, alike⟩ := Lower.alike_of_code h.coherent hd registered hc
      obtain ⟨hfill', alike'⟩ :=
        Lower.alike_of_code h.coherent' hd' registered' (registry ▸ hc')
      exact .inl ⟨e, _, _, hfill, hfill', (alike.symm.trans h).trans alike'⟩

/-- Alike lowerings answer alike, and stay alike. -/
theorem Alike.ask (h : l.Alike l') (request : Request) :
    (l.ask request).1 = (l'.ask request).1 ∧ (l.ask request).2.Alike (l'.ask request).2 := by
  cases request with
  | declare proto =>
    rcases h.declaration proto with ⟨e, he, he'⟩ | ⟨i, i', l₁, l₁', he, he', alike⟩
    · simp only [Lowering.ask, he, he', true_and]
      exact h
    · simp only [Lowering.ask, he, he', true_and]
      exact alike
  | define d =>
    rcases h.definition d with
      ⟨e, l₁, l₁', he, he', alike⟩ | ⟨i, i', l₁, l₁', f, f', he, he', alike, hf, hf', hb, hs⟩
    · simp only [Lowering.ask, he, he', true_and]
      exact alike
    · simp only [Lowering.ask, he, he', hf, hf', hb, hs, Option.map_some, true_and]
      exact alike
  | take =>
    refine ⟨rfl, h.coherent.ask .take, h.coherent'.ask .take, h.registry, h.defined, fun name => ?_⟩
    simp [Lowering.ask, Lowering.take, Builder.take, Builder.Bodies]
  | forget name =>
    refine ⟨rfl, h.coherent.ask (.forget name), h.coherent'.ask (.forget name), h.registry, ?_,
      h.bodies⟩
    simp only [Lowering.ask, Lowering.forget, h.defined]

/-- By induction on the requests: alike lowerings answer each of them alike, and stay alike. -/
theorem Alike.answers (requests : List Request) : ∀ {l l' : Lowering}, l.Alike l' →
    l.answers requests = l'.answers requests := by
  induction requests with
  | nil => exact fun _ => rfl
  | cons request requests ih =>
    intro l l' h
    obtain ⟨answer, alike⟩ := h.ask request
    simp only [Lowering.answers, answer, ih alike]

/-- A request that is refused leaves what is alike. -/
theorem Coherent.alike_of_refused (h : l.Coherent) {request : Request} {e : Fault}
    (hr : (l.ask request).1 = .refused e) : l.Alike (l.ask request).2 := by
  cases request with
  | declare proto =>
    rcases Lower.declaration_eq h proto with ⟨-, i, l', he, -⟩ | ⟨-, he⟩
    · simp [Lowering.ask, he] at hr
    · simp only [Lowering.ask, he]
      exact .refl h
  | define d =>
    rcases Lower.definition_cases h d with ⟨e, l', he, alike, -⟩ | ⟨i, l', he, -⟩
    · simp only [Lowering.ask, he]
      exact alike
    · simp [Lowering.ask, he] at hr
  | take => cases hr
  | forget name => cases hr

/-- **A refused request leaves no trace.** After any sequence of requests, one that is refused leaves
the registry and the defined names as they were, and whatever is asked later is answered as if it had
not been made: with the same faults, and with the same code and slots for what is defined. -/
theorem answers_after_refused {moduleName : String} {requests : List Request} {request : Request}
    {e : Fault} (hr : (((Lowering.empty moduleName).after requests).ask request).1 = .refused e) :
    (((Lowering.empty moduleName).after requests).ask request).2.registry =
        ((Lowering.empty moduleName).after requests).registry ∧
      (((Lowering.empty moduleName).after requests).ask request).2.defined =
        ((Lowering.empty moduleName).after requests).defined ∧
      ∀ later, (((Lowering.empty moduleName).after requests).ask request).2.answers later =
        ((Lowering.empty moduleName).after requests).answers later := by
  have alike := (Coherent.after requests (coherent_empty moduleName)).alike_of_refused hr
  exact ⟨alike.registry.symm, alike.defined.symm, fun later => (alike.answers later).symm⟩

/-- A function is declared, and another one calls it. -/
def declaredCallee : List Request :=
  [.declare ⟨.function "g", ["x"]⟩, .define ⟨⟨.function "f", ["x"]⟩, .call "g" [.variable "x"]⟩]

/-- A definition of the declared function that reads a name which is not bound. -/
def unboundBody : Definition :=
  ⟨⟨.function "g", ["x"]⟩, .variable "y"⟩

theorem answers_after_refused_unboundBody :
    (((Lowering.empty "m").after declaredCallee).ask (.define unboundBody)).1 =
        .refused (.unknownVariable "y") ∧
      ∀ later, (((Lowering.empty "m").after declaredCallee).ask (.define unboundBody)).2.answers
          later = ((Lowering.empty "m").after declaredCallee).answers later := by
  have refused : (((Lowering.empty "m").after declaredCallee).ask (.define unboundBody)).1 =
      .refused (.unknownVariable "y") := by
    have fault : (match (((Lowering.empty "m").after declaredCallee).ask (.define unboundBody)).1 with
        | .refused e => some e
        | _ => none) = some (.unknownVariable "y") := by decide +kernel
    split at fault <;> cases fault
    next he => exact he
  exact ⟨refused, (answers_after_refused refused).2.2⟩

end Lowering

end Kaleidoscope
