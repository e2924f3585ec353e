import Kaleidoscope.Proofs.Lowering.Parallel
import Kaleidoscope.Proofs.Lowering.Shaping

/-!
# Sequences of requests

Lowering is asked to declare and to define functions, to hand over the module, and to forget names.
Whatever it is asked, its module stays coherent (`Lowering.Coherent.ask`). A definition that is
refused leaves what counts as it was (`Lowering.Alike`); one that is accepted leaves the folded code
of the definition, and this code is in strict form (`Lower.Accepted`).

Main statement: `Lowering.definition_strictSsa`.
-/

namespace Kaleidoscope

open Ssa

/-- A function of the module has the name, and has a body. -/
def Builder.Bodies (b : Builder) (name : String) : Prop :=
  ∃ i f, b.func? i = some f ∧ f.name = name ∧ f.isDeclaration = false

/-- The two know the same about names, and the same names have bodies in their modules. -/
structure Lowering.Alike (l l' : Lowering) : Prop where
  coherent : l.Coherent
  coherent' : l'.Coherent
  registry : l.registry = l'.registry
  defined : l.defined = l'.defined
  bodies : ∀ name, Builder.Bodies l.builder name ↔ Builder.Bodies l'.builder name

section Bodies

variable {registry : Registry} {id : FuncId} {b b' : Builder} {l l' l'' : Lowering} {f : Func}
  {name : String} {params : List String}

theorem Lowering.Alike.refl (h : l.Coherent) : l.Alike l :=
  ⟨h, h, rfl, rfl, fun _ => .rfl⟩

theorem Lowering.Alike.symm (h : l.Alike l') : l'.Alike l :=
  ⟨h.coherent', h.coherent, h.registry.symm, h.defined.symm, fun name => (h.bodies name).symm⟩

theorem Lowering.Alike.trans (h : l.Alike l') (h' : l'.Alike l'') : l.Alike l'' :=
  ⟨h.coherent, h'.coherent', h.registry.trans h'.registry, h.defined.trans h'.defined,
    fun name => (h.bodies name).trans (h'.bodies name)⟩

/-- Where the same is known about names, the same names count as defined. -/
theorem Lowering.Alike.isDefined (h : l.Alike l') (name : String) :
    l.isDefined name = l'.isDefined name := by
  have : l.hasBody name = l'.hasBody name := by
    rw [Bool.eq_iff_iff, h.coherent.hasBody_iff, h.coherent'.hasBody_iff]
    exact h.bodies name
  simp only [Lowering.isDefined, this, h.defined]

/-- What is built into one function gives a body to no other one. -/
theorem Widens.bodies (h : Widens registry id b b') (hd : b.func? id = some (.declare name params))
    (hf : b'.func? id = some f) (n : String) :
    Builder.Bodies b' n ↔ Builder.Bodies b n ∨ f.name = n ∧ f.isDeclaration = false := by
  constructor
  · rintro ⟨i, g, hg, hn, hb⟩
    by_cases hi : i = id
    · subst hi
      cases hg.symm.trans hf
      exact .inr ⟨hn, hb⟩
    · rcases h.old_or_declared hi hg with old | ⟨_, _, rfl⟩
      · exact .inl ⟨i, g, old, hn, hb⟩
      · cases hb
  · rintro (⟨i, g, hg, hn, hb⟩ | ⟨hn, hb⟩)
    · have hi : i ≠ id := by
        rintro rfl
        cases hg.symm.trans hd
        cases hb
      exact ⟨i, g, (h.other hi (func?_lt hg)).trans hg, hn, hb⟩
    · exact ⟨id, f, hf, hn, hb⟩

/-- Deleting a function without a body. -/
theorem bodies_delete (hf : b.func? id = some f) (n : String) :
    Builder.Bodies (b.delete id) n ↔ ∃ i g, i ≠ id ∧ b.func? i = some g ∧ g.name = n ∧
      g.isDeclaration = false := by
  constructor
  · rintro ⟨i, g, hg, hn, hb⟩
    obtain ⟨k, -, hk, hg⟩ := Lower.exists_of_delete hf hg
    exact ⟨k, g, hk, hg, hn, hb⟩
  · rintro ⟨i, g, hi, hg, hn, hb⟩
    obtain ⟨j, hj⟩ := Lower.exists_delete hf hi hg
    exact ⟨j, g, hj, hn, hb⟩

end Bodies

namespace Lower

variable {l l' l₁ : Lowering} {proto : Prototype} {d : Definition} {i : FuncId} {e : Fault}

/-- Emitting the body of a definition whose function is there. -/
theorem Registered.widens (h : Registered l proto i l') (d : Definition) :
    Widens l'.registry i l'.builder
      (left (Emit.body l'.registry i d { builder := l'.builder })).builder := by
  obtain ⟨f, hf, -⟩ := h.func
  exact @Emit.widens_body l'.registry i { builder := l'.builder } (func?_lt hf) d

/-- A declaration gives no body to any function. -/
theorem Registered.bodies (h : Registered l proto i l') (name : String) :
    Builder.Bodies l'.builder name ↔ Builder.Bodies l.builder name := by
  constructor
  · rintro ⟨j, f, hf, hn, hb⟩
    rcases h.added hf with old | rfl
    · exact ⟨j, f, old, hn, hb⟩
    · cases hb
  · rintro ⟨j, f, hf, hn, hb⟩
    exact ⟨j, f, h.kept hf, hn, hb⟩

/-- What an accepted definition leaves in any coherent module: its function has the folded code of the
definition, and the code was in strict form before. -/
structure Accepted (l : Lowering) (d : Definition) (i : FuncId) (l' : Lowering) : Prop where
  coherent : l'.Coherent
  registry : l'.registry = l.registry.insert d.proto.name d.proto
  defined : l'.defined = d.proto.name :: l.defined
  bodies : ∀ name, Builder.Bodies l'.builder name ↔
    Builder.Bodies l.builder name ∨ d.proto.name = name
  func : ∃ f : Func, l'.builder.func? i = some f.fold ∧ f.StrictSsa ∧ Bodied f d

/-- Code that was emitted is accepted and folded. -/
theorem Registered.body_of_code (hr : Registered l d.proto i l₁) (h : l.Coherent)
    (hd : l.isDefined d.proto.name = false) {st : Emitter}
    (hc : Emit.code l₁.registry i d { builder := l₁.builder } = .ok () st) :
    Emit.body l₁.registry i d { builder := l₁.builder } =
        .ok () { st with builder := st.builder.optimize i } ∧
      Widens l₁.registry i l₁.builder (st.builder.optimize i) := by
  obtain ⟨params, hl, hi⟩ := hr.declared h hd
  have hb : Emit.body l₁.registry i d { builder := l₁.builder } =
      .ok () { st with builder := st.builder.optimize i } := by
    rw [Emit.body_eq, bind_of_ok hc]
    exact Emit.accept_of_code hr.coherent.named hi hl rfl hc
  have widens := hr.widens d
  rw [hb] at widens
  exact ⟨hb, widens⟩

/-- Code that was refused is refused as a body. -/
theorem Registered.body_of_refused (hr : Registered l d.proto i l₁) {st : Emitter}
    (hc : Emit.code l₁.registry i d { builder := l₁.builder } = .error e st) :
    Emit.body l₁.registry i d { builder := l₁.builder } = .error e st ∧
      Widens l₁.registry i l₁.builder st.builder := by
  have hb : Emit.body l₁.registry i d { builder := l₁.builder } = .error e st := by
    rw [Emit.body_eq, bind_of_error hc]
  have widens := hr.widens d
  rw [hb] at widens
  exact ⟨hb, widens⟩

/-- The code of a definition went into its declared function, and is accepted and folded. -/
theorem accepted_of_code (h : l.Coherent) (hd : l.isDefined d.proto.name = false)
    (hr : Registered l d.proto i l₁) {st : Emitter}
    (hc : Emit.code l₁.registry i d { builder := l₁.builder } = .ok () st) :
    fill l.registry i d l₁ = .ok i { l₁ with
        builder := st.builder.optimize i
        defined := d.proto.name :: l₁.defined } ∧
      Accepted l d i { l₁ with
        builder := st.builder.optimize i
        defined := d.proto.name :: l₁.defined } ∧
      ∃ f, st.builder.func? i = some f ∧ (st.builder.optimize i).func? i = some f.fold := by
  obtain ⟨params, hl, hi⟩ := hr.declared h hd
  obtain ⟨f, hf, strict, bodied, hn⟩ := Emit.strictSsa_of_code hr.coherent.named hi hl rfl hc
  obtain ⟨hb, hw⟩ := hr.body_of_code h hd hc
  have folded : (st.builder.optimize i).func? i = some f.fold := by
    rw [Builder.optimize, func?_modifyFunc, if_pos rfl, hf]
    rfl
  have body := strict.fold.isDeclaration_eq_false
  refine ⟨by simp only [fill, hb], ⟨⟨hr.coherent.named, hr.coherent.agreed.widens
    hr.coherent.named hw, fun {j g} hg hdecl => ?_⟩, hr.registry, by rw [hr.defined], fun name => ?_,
    f, folded, strict, bodied⟩, f, hf, folded⟩
  · by_cases hj : j = i
    · subst hj
      cases hg.symm.trans folded
      rw [body] at hdecl
      cases hdecl
    · rcases hw.old_or_declared hj hg with old | ⟨_, _, rfl⟩
      · exact hr.coherent.plain old hdecl
      · exact ⟨_, rfl⟩
  · rw [hw.bodies hi folded, hr.bodies, body]
    simp [show f.fold.name = d.proto.name from hn]

/-- The code of a definition was refused, and its function is deleted. -/
theorem alike_of_code (h : l.Coherent) (hd : l.isDefined d.proto.name = false)
    (hr : Registered l d.proto i l₁) {st : Emitter}
    (hc : Emit.code l₁.registry i d { builder := l₁.builder } = .error e st) :
    fill l.registry i d l₁ = .error e
        { l₁ with builder := st.builder.delete i, registry := l.registry } ∧
      l.Alike { l₁ with builder := st.builder.delete i, registry := l.registry } := by
  obtain ⟨params, hl, hi⟩ := hr.declared h hd
  obtain ⟨hb, hw⟩ := hr.body_of_refused hc
  obtain ⟨f, hf, hn, -⟩ := hw.self hi
  have keys : ∀ n, n ≠ f.name → l.registry.get? n = l₁.registry.get? n := by
    intro n hne
    have hne : n ≠ d.proto.name := fun e => hne (e.trans hn.symm)
    rw [hr.registry, Dict.get?_insert, if_neg hne]
  refine ⟨by simp only [fill, hb], h, ⟨h.named, agreed_delete (hr.coherent.agreed.widens
    hr.coherent.named hw) hf keys, fun {j g} hg hdecl => ?_⟩, rfl, hr.defined.symm, fun name => ?_⟩
  · obtain ⟨k, -, hk, hg⟩ := exists_of_delete hf hg
    rcases hw.old_or_declared hk hg with old | ⟨_, _, rfl⟩
    · exact hr.coherent.plain old hdecl
    · exact ⟨_, rfl⟩
  · rw [bodies_delete hf, ← hr.bodies]
    constructor
    · rintro ⟨j, g, hg, hn, hbody⟩
      have hj : j ≠ i := by
        rintro rfl
        cases hg.symm.trans hi
        cases hbody
      exact ⟨j, g, hj, (hw.other hj (func?_lt hg)).trans hg, hn, hbody⟩
    · rintro ⟨j, g, hj, hg, hn, hbody⟩
      rcases hw.old_or_declared hj hg with old | ⟨_, _, rfl⟩
      · exact ⟨j, g, old, hn, hbody⟩
      · cases hbody

/-- A definition is refused, and what counts is as before, or it is accepted. It is never refused for
a defect of its code. -/
theorem definition_cases (h : l.Coherent) (d : Definition) :
    (∃ e l', definition d l = .error e l' ∧ l.Alike l' ∧ ∀ name defect, e ≠ .unverified name defect) ∨
      ∃ i l', definition d l = .ok i l' ∧ Accepted l d i l' := by
  rcases definition_eq h d with ⟨-, he⟩ | ⟨-, -, he⟩ | ⟨hd, -, i, l₁, registered, he⟩
  · exact .inl ⟨_, _, he, .refl h, nofun⟩
  · exact .inl ⟨_, _, he, .refl h, nofun⟩
  · rw [he]
    cases hc : Emit.code l₁.registry i d { builder := l₁.builder } with
    | ok u st =>
      obtain ⟨hfill, accepted, -⟩ := accepted_of_code h hd registered hc
      exact .inr ⟨i, _, hfill, accepted⟩
    | error e st =>
      obtain ⟨hfill, alike⟩ := alike_of_code h hd registered hc
      obtain ⟨params, -, hi⟩ := registered.declared h hd
      have refusal := Emit.refusal_of_code registered.coherent.named registered.coherent.agreed hi hc
      refine .inl ⟨e, _, hfill, alike, ?_⟩
      rintro name defect rfl
      exact refusal

end Lower

/-- What lowering is asked for. -/
inductive Request
  | declare (proto : Prototype)
  | define (d : Definition)
  | take
  | forget (name : String)

/-- What comes back: the fault of a request that was refused, or the code and the slots of a function
that was defined. -/
inductive Answer
  | refused (e : Fault)
  | declared
  | defined (code : Option (Array Block × Array String))
  | done

namespace Lowering

/-- The answer to a request, and what it leaves. -/
def ask (l : Lowering) : Request → Answer × Lowering
  | .declare proto =>
    match Lower.declaration proto l with
    | .ok _ l => (.declared, l)
    | .error e l => (.refused e, l)
  | .define d =>
    match Lower.definition d l with
    | .ok i l => (.defined ((l.builder.func? i).map fun f => (f.blocks, f.slots)), l)
    | .error e l => (.refused e, l)
  | .take => (.done, l.take.2)
  | .forget name => (.done, l.forget name)

/-- What a sequence of requests leaves. -/
def after (l : Lowering) (requests : List Request) : Lowering :=
  requests.foldl (fun l request => (l.ask request).2) l

/-- The answers to a sequence of requests. -/
def answers (l : Lowering) : List Request → List Answer
  | [] => []
  | request :: requests => (l.ask request).1 :: (l.ask request).2.answers requests

section Runs

variable {l : Lowering}

theorem coherent_empty (moduleName : String) : (Lowering.empty moduleName).Coherent :=
  (tidy_empty moduleName).coherent

/-- Whatever is asked, the module stays coherent. -/
theorem Coherent.ask (h : l.Coherent) (request : Request) : (l.ask request).2.Coherent := by
  cases request with
  | declare proto =>
    rcases Lower.declaration_eq h proto with ⟨-, i, l', he, registered⟩ | ⟨-, he⟩
    · simp only [Lowering.ask, he]
      exact registered.coherent
    · simp only [Lowering.ask, he]
      exact h
  | define d =>
    rcases Lower.definition_cases h d with ⟨e, l', he, alike, -⟩ | ⟨i, l', he, accepted⟩
    · simp only [Lowering.ask, he]
      exact alike.coherent'
    · simp only [Lowering.ask, he]
      exact accepted.coherent
  | take =>
    refine ⟨h.named, agreed_empty l.builder.module.name, fun hf _ => ?_⟩
    simp [Lowering.ask, Lowering.take, Builder.take] at hf
  | forget name => exact ⟨h.named, h.agreed, h.plain⟩

/-- Coherence lasts through any sequence of requests. -/
theorem Coherent.after (requests : List Request) : ∀ {l : Lowering}, l.Coherent →
    (l.after requests).Coherent := by
  induction requests with
  | nil => exact fun h => h
  | cons request requests ih => exact fun h => ih (h.ask request)

/-- **Lowering emits strict form.** Whatever was declared, defined, handed over or forgotten before, a
definition is never refused for a defect of its code, and the function of an accepted one is in
strict form. -/
theorem definition_strictSsa (moduleName : String) (requests : List Request) (d : Definition) :
    match Lower.definition d ((Lowering.empty moduleName).after requests) with
    | .ok i l => ∃ f, l.builder.func? i = some f ∧ f.StrictSsa
    | .error e _ => ∀ name defect, e ≠ .unverified name defect := by
  have coherent := Coherent.after requests (coherent_empty moduleName)
  rcases Lower.definition_cases coherent d with ⟨e, l', he, -, verified⟩ | ⟨i, l', he, accepted⟩
  · rw [he]
    exact verified
  · rw [he]
    obtain ⟨f, hf, strict, -⟩ := accepted.func
    exact ⟨f.fold, hf, strict.fold⟩

end Runs

end Lowering

end Kaleidoscope
