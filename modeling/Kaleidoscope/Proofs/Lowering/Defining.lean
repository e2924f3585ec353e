import Kaleidoscope.Proofs.Lowering.Emission
import Kaleidoscope.Lowering.Basic
import Mathlib.Tactic.ByContra

/-!
# Declaring and defining functions

The functions of a module have names of their own, and as many parameters as is registered for their
names (`Lowering.Coherent`). In such a module it is settled what a declaration or a definition does:
`Lower.declaration_eq` and `Lower.definition_eq` list the cases.

Between two forms of a session the module holds declarations only (`Lowering.Tidy`). A declaration
keeps it so. A definition either fails, and then the registry and the names that have bodies are as
before, or it leaves one function with a body: the folded code of the definition.
-/

namespace Kaleidoscope

open Ssa

/-- The functions of the module agree with the registry. -/
structure Builder.Agreed (registry : Registry) (b : Builder) : Prop where
  registered : ∀ {i f}, b.func? i = some f →
    ∃ proto, registry.get? f.name = some proto ∧ proto.arity = f.arity
  distinct : ∀ {i j f g}, b.func? i = some f → b.func? j = some g → f.name = g.name → i = j

/-- The functions of the module agree with the registry, and those without a body are as they were
declared. -/
structure Lowering.Coherent (l : Lowering) : Prop where
  named : l.registry.Named
  agreed : Builder.Agreed l.registry l.builder
  plain : ∀ {i f}, l.builder.func? i = some f → f.isDeclaration →
    ∃ params, f = .declare f.name params

/-- The module holds declarations only, and they agree with the registry. -/
structure Lowering.Tidy (l : Lowering) : Prop where
  named : l.registry.Named
  agreed : Builder.Agreed l.registry l.builder
  declared : ∀ {i f}, l.builder.func? i = some f → ∃ params, f = .declare f.name params

section Agreement

variable {registry : Registry} {id : FuncId} {b b' : Builder} {l l' : Lowering} {proto : Prototype}
  {name : String}

/-- A function that emitting declares is declared from the registry, and so agrees with it. -/
theorem Builder.Agreed.widens (h : Builder.Agreed registry b) (hr : registry.Named)
    (hw : Widens registry id b b') : Builder.Agreed registry b' := by
  have old : ∀ {i f}, b'.func? i = some f → i.index < b.module.functions.size →
      ∃ f₀, b.func? i = some f₀ ∧ f.name = f₀.name ∧ f.arity = f₀.arity := by
    intro i f hf hi
    obtain ⟨f₀, h₀⟩ := func?_of_lt hi
    obtain ⟨f₁, h₁, hn, hp⟩ := hw.name h₀
    rw [hf] at h₁
    cases h₁
    exact ⟨f₀, h₀, hn, by rw [Func.arity, hp]; rfl⟩
  constructor
  · intro i f hf
    by_cases hi : i.index < b.module.functions.size
    · obtain ⟨f₀, h₀, hn, ha⟩ := old hf hi
      rw [hn, ha]
      exact h.registered h₀
    · obtain ⟨name, proto, hp, rfl⟩ := hw.declared (by omega) hf
      refine ⟨proto, ?_, rfl⟩
      rw [← hp, ← hr name proto hp]
      rfl
  · intro i j f g hf hg he
    by_contra hne
    have lt : i.index < j.index ∨ j.index < i.index := by
      have : i.index ≠ j.index := mt FuncId.index_inj.1 hne
      omega
    -- of two functions the later one was declared for a name of its own, unless both are old
    have apart : ∀ {i j f g}, b'.func? i = some f → b'.func? j = some g → i.index < j.index →
        f.name ≠ g.name := by
      intro i j f g hf hg hlt he
      by_cases hj : j.index < b.module.functions.size
      · obtain ⟨f₀, h₀, hn, -⟩ := old hf (by omega)
        obtain ⟨g₀, h₁, hm, -⟩ := old hg hj
        have := h.distinct h₀ h₁ (by rw [← hn, ← hm, he])
        rw [this] at hlt
        omega
      · exact hw.distinct hlt (by omega) hf hg he
    rcases lt with hlt | hlt
    · exact apart hf hg hlt he
    · exact apart hg hf hlt he.symm

/-- The first block is added to a function and moved to, whatever the place was before. -/
theorem Builder.Agreed.entered (ha : Builder.Agreed registry b) (hr : registry.Named)
    (hlt : id.index < b.module.functions.size) :
    Builder.Agreed registry ((b.appendBlock id "entry").2.moveTo (b.appendBlock id "entry").1) := by
  have moved : Emitting id (b.moveTo ⟨id, ⟨0⟩⟩) := ⟨rfl, hlt⟩
  have before : Builder.Agreed registry (b.moveTo ⟨id, ⟨0⟩⟩) := ⟨ha.registered, ha.distinct⟩
  have after := before.widens hr (widens_modifyFunc moved
    (fun f => { f with blocks := f.blocks.push { label := "entry" } }) (fun _ => rfl) fun _ => rfl)
  exact ⟨after.registered, after.distinct⟩

theorem Lowering.Tidy.coherent (h : l.Tidy) : l.Coherent :=
  ⟨h.named, h.agreed, fun hf _ => h.declared hf⟩

/-- A function is found by its name. -/
theorem Builder.Agreed.find? (h : Builder.Agreed registry b) {f : Func} (hf : b.func? id = some f) :
    b.find? f.name = some id := by
  cases hn : b.find? f.name with
  | none => exact absurd rfl (find?_eq_none hn hf)
  | some j =>
    obtain ⟨g, hg, he⟩ := find?_eq_some hn
    rw [h.distinct hg hf he]

/-- A name has a body when some function of that name has one, since there is no other of its name.
-/
theorem Lowering.Coherent.hasBody_iff (h : l.Coherent) : l.hasBody name ↔
    ∃ i f, l.builder.func? i = some f ∧ f.name = name ∧ f.isDeclaration = false := by
  unfold Lowering.hasBody
  constructor
  · intro hb
    split at hb
    · next i hn =>
      obtain ⟨f, hf, he⟩ := find?_eq_some hn
      exact ⟨i, f, hf, he, by simpa [Builder.hasBody, hf] using hb⟩
    · cases hb
  · rintro ⟨i, f, hf, rfl, hb⟩
    simp [h.agreed.find? hf, Builder.hasBody, hf, hb]

/-- What is known about a name is what is registered for it. -/
theorem Lowering.Coherent.knownArity (h : l.Coherent) (name : String) :
    l.knownArity name = (l.registry.get? name).map Prototype.arity := by
  unfold Lowering.knownArity
  cases hf : l.builder.find? name with
  | none => rfl
  | some i =>
    obtain ⟨f, hi, rfl⟩ := find?_eq_some hf
    obtain ⟨proto, hp, ha⟩ := h.agreed.registered hi
    simp [Builder.arity, hi, hp, ha]

/-- In a tidy module no function has a body, so the names that were defined decide. -/
theorem Lowering.Tidy.isDefined (h : l.Tidy) (name : String) :
    l.isDefined name = decide (name ∈ l.defined) := by
  have : l.hasBody name = false := by
    rw [Bool.eq_false_iff, Ne, h.coherent.hasBody_iff]
    rintro ⟨i, f, hf, -, hb⟩
    obtain ⟨params, he⟩ := h.declared hf
    rw [he] at hb
    cases hb
  simp [Lowering.isDefined, this]

@[simp] theorem func?_empty (moduleName : String) (i : FuncId) :
    (Builder.empty moduleName).func? i = none := by
  simp [Builder.empty, Builder.func?, Module.get?]

/-- An empty module agrees with whatever is registered. -/
theorem agreed_empty (moduleName : String) : Builder.Agreed registry (.empty moduleName) where
  registered h := by simp at h
  distinct h := by simp at h

theorem tidy_empty (moduleName : String) : (Lowering.empty moduleName).Tidy where
  named _ _ h := by simp [Lowering.empty] at h
  agreed := agreed_empty moduleName
  declared h := by simp [Lowering.empty] at h

theorem Registry.Named.insert {registry : Registry} (h : registry.Named) (proto : Prototype) :
    Registry.Named (registry.insert proto.name proto) := by
  intro name p hp
  rw [Dict.get?_insert] at hp
  split at hp
  · next he =>
    cases hp
    exact he.symm
  · exact h name p hp

end Agreement

namespace Lower

variable {l l' : Lowering} {proto : Prototype} {i j : FuncId} {e : Fault} {d : Definition}

/-- The prototype agrees with what is registered for its name. -/
def Agrees (l : Lowering) (proto : Prototype) : Prop :=
  ∀ p, l.registry.get? proto.name = some p → p.arity = proto.arity

/-- A prototype that disagrees with the registry is refused. -/
theorem agree_eq (h : l.Coherent) (proto : Prototype) :
    Agrees l proto ∧ agree proto l = .ok () l ∨
      ¬ Agrees l proto ∧ agree proto l = .error (.signatureMismatch proto.name) l := by
  have here : (get : Lower Lowering) l = .ok l l := rfl
  rw [agree, bind_of_ok here, h.knownArity]
  cases hp : l.registry.get? proto.name with
  | none => exact .inl ⟨by simp [Agrees, hp], rfl⟩
  | some p =>
    by_cases ha : p.arity = proto.arity
    · refine .inl ⟨by simp [Agrees, hp, ha], ?_⟩
      simp [ha]
      rfl
    · refine .inr ⟨by simp [Agrees, hp, ha], ?_⟩
      simp [ha]
      rfl

/-- What a declaration leaves in any coherent module: its prototype is registered, and its function is
there, by now or by then. -/
structure Registered (l : Lowering) (proto : Prototype) (i : FuncId) (l' : Lowering) : Prop where
  coherent : l'.Coherent
  registry : l'.registry = l.registry.insert proto.name proto
  defined : l'.defined = l.defined
  func : ∃ f, l'.builder.func? i = some f ∧ f.name = proto.name ∧ f.arity = proto.arity
  kept : ∀ {j f}, l.builder.func? j = some f → l'.builder.func? j = some f
  added : ∀ {j f}, l'.builder.func? j = some f →
    l.builder.func? j = some f ∨ f = .declare proto.name proto.params

theorem registered_declare (h : l.Coherent) (ha : Agrees l proto) :
    Registered l proto (l.builder.declare proto.name proto.params).1
      { l with
        builder := (l.builder.declare proto.name proto.params).2
        registry := l.registry.insert proto.name proto } := by
  -- a name that was registered before has as many parameters as the prototype
  have agreed : ∀ {j f}, l.builder.func? j = some f → ∃ q,
      (l.registry.insert proto.name proto).get? f.name = some q ∧ q.arity = f.arity := by
    intro j f hf
    obtain ⟨p, hp, harity⟩ := h.agreed.registered hf
    rw [Dict.get?_insert]
    split
    · next he => exact ⟨proto, rfl, (ha p (he ▸ hp)).symm.trans harity⟩
    · exact ⟨p, hp, harity⟩
  cases hf : l.builder.find? proto.name with
  | some j =>
    rw [declare_of_some hf]
    obtain ⟨f, hj, hn⟩ := find?_eq_some hf
    obtain ⟨p, hp, harity⟩ := h.agreed.registered hj
    exact ⟨⟨h.named.insert proto, ⟨agreed, h.agreed.distinct⟩, h.plain⟩, rfl, rfl,
      ⟨f, hj, hn, harity.symm.trans (ha p (hn ▸ hp))⟩, id, .inl⟩
  | none =>
    rw [declare_of_none hf]
    let b : Builder := { l.builder with module := { l.builder.module with
      functions := l.builder.module.functions.push (.declare proto.name proto.params) } }
    have get : ∀ {j f}, b.func? j = some f → l.builder.func? j = some f ∨
        j = ⟨l.builder.module.functions.size⟩ ∧ f = .declare proto.name proto.params := by
      intro j f hj
      change (l.builder.module.functions.push _)[j.index]? = _ at hj
      rw [Array.getElem?_push] at hj
      split at hj
      · next he => exact .inr ⟨FuncId.index_inj.1 he, by simpa using hj.symm⟩
      · exact .inl hj
    refine ⟨⟨h.named.insert proto, ⟨fun {j f} hj => ?_, fun {j k f g} hj hk he => ?_⟩,
      fun {j f} hj hd => ?_⟩, rfl, rfl, ⟨.declare proto.name proto.params, ?_, rfl, rfl⟩,
      fun {j f} hj => ?_, fun hj => (get hj).imp_right And.right⟩
    · rcases get hj with hj | ⟨-, rfl⟩
      · exact agreed hj
      · exact ⟨proto, Dict.get?_insert_self _ _ _, rfl⟩
    · rcases get hj with old | ⟨last, rfl⟩ <;> rcases get hk with old' | ⟨last', rfl⟩
      · exact h.agreed.distinct old old' he
      · exact absurd he (find?_eq_none hf old)
      · exact absurd he.symm (find?_eq_none hf old')
      · exact last.trans last'.symm
    · rcases get hj with hj | ⟨-, rfl⟩
      · exact h.plain hj hd
      · exact ⟨_, rfl⟩
    · show (l.builder.module.functions.push _)[_]? = _
      simp
    · show (l.builder.module.functions.push _)[_]? = _
      rw [Array.getElem?_push, if_neg (Nat.ne_of_lt (func?_lt hj))]
      exact hj

/-- A declaration is refused if it disagrees with the registry, and then nothing has changed. -/
theorem declaration_eq (h : l.Coherent) (proto : Prototype) :
    (Agrees l proto ∧ ∃ i l', declaration proto l = .ok i l' ∧ Registered l proto i l') ∨
      ¬ Agrees l proto ∧ declaration proto l = .error (.signatureMismatch proto.name) l := by
  unfold declaration
  rcases agree_eq h proto with ⟨ha, he⟩ | ⟨ha, he⟩
  · rw [bind_of_ok he]
    exact .inl ⟨ha, _, _, rfl, registered_declare h ha⟩
  · rw [bind_of_error he]
    exact .inr ⟨ha, rfl⟩

/-- A definition is refused if its name has a body or if it disagrees with the registry, and then
nothing has changed. Otherwise it is declared and filled. -/
theorem definition_eq (h : l.Coherent) (d : Definition) :
    (l.isDefined d.proto.name = true ∧
        definition d l = .error (.redefinition d.proto.name) l) ∨
      (l.isDefined d.proto.name = false ∧ ¬ Agrees l d.proto ∧
        definition d l = .error (.signatureMismatch d.proto.name) l) ∨
      l.isDefined d.proto.name = false ∧ Agrees l d.proto ∧
        ∃ i l', Registered l d.proto i l' ∧ definition d l = fill l.registry i d l' := by
  have start : definition d l = if l.isDefined d.proto.name then
      .error (.redefinition d.proto.name) l
      else (declaration d.proto >>= fun i => fill l.registry i d) l := by
    have hg : (get : Lower Lowering) l = .ok l l := rfl
    unfold definition
    rw [bind_of_ok hg]
    split
    · rfl
    · exact bind_of_ok hg _
  rw [start]
  cases hd : l.isDefined d.proto.name with
  | true => exact .inl ⟨rfl, rfl⟩
  | false =>
    rw [if_neg Bool.false_ne_true]
    rcases declaration_eq h d.proto with ⟨ha, i, l', he, registered⟩ | ⟨ha, he⟩
    · exact .inr (.inr ⟨rfl, ha, i, l', registered, bind_of_ok he _⟩)
    · exact .inr (.inl ⟨rfl, ha, bind_of_error he _⟩)

/-- A name without a body is declared plainly. -/
theorem Registered.declared (h : Registered l proto i l') (hc : l.Coherent)
    (hb : l.isDefined proto.name = false) : ∃ params, params.length = proto.arity ∧
      l'.builder.func? i = some (.declare proto.name params) := by
  obtain ⟨f, hf, hn, ha⟩ := h.func
  obtain ⟨params, he⟩ : ∃ params, f = .declare proto.name params := by
    rcases h.added hf with old | rfl
    · have none : ¬ l.hasBody proto.name := by
        simp only [Lowering.isDefined, Bool.or_eq_false_iff] at hb
        simp [hb.1]
      rw [hc.hasBody_iff] at none
      refine hn ▸ hc.plain old ?_
      by_contra hbody
      exact none ⟨i, f, old, hn, by simpa using hbody⟩
    · exact ⟨_, rfl⟩
  subst he
  exact ⟨params, ha, hf⟩

/-- What a declaration leaves: its function is there, and its prototype is registered. -/
structure Declared (l : Lowering) (proto : Prototype) (i : FuncId) (l' : Lowering) : Prop where
  tidy : l'.Tidy
  registry : l'.registry = l.registry.insert proto.name proto
  defined : l'.defined = l.defined
  arity : ∀ p, l.registry.get? proto.name = some p → p.arity = proto.arity
  func : ∃ params, params.length = proto.arity ∧
    l'.builder.func? i = some (.declare proto.name params)

theorem Declared.bound (h : Declared l proto i l') :
    i.index < l'.builder.module.functions.size := by
  obtain ⟨params, -, hi⟩ := h.func
  exact func?_lt hi

/-- Emitting the body of a definition that is declared. -/
theorem Declared.widens (h : Declared l proto i l') (d : Definition) :
    Widens l'.registry i l'.builder
      (left (Emit.body l'.registry i d { builder := l'.builder })).builder :=
  @Emit.widens_body l'.registry i { builder := l'.builder } h.bound d

/-- In a module that holds declarations only, a declaration leaves such a module. -/
theorem Registered.tidy (h : Registered l proto i l') (ht : l.Tidy) (ha : Agrees l proto) :
    Declared l proto i l' := by
  have declared : ∀ {j f}, l'.builder.func? j = some f → ∃ params, f = .declare f.name params := by
    intro j f hf
    rcases h.added hf with old | rfl
    · exact ht.declared old
    · exact ⟨_, rfl⟩
  refine ⟨⟨h.coherent.named, h.coherent.agreed, declared⟩, h.registry, h.defined, ha, ?_⟩
  obtain ⟨f, hf, hn, harity⟩ := h.func
  obtain ⟨params, he⟩ := declared hf
  rw [hn] at he
  subst he
  exact ⟨params, harity, hf⟩

/-- A declaration that is accepted leaves a tidy module with its function. -/
theorem declaration_ok (h : l.Tidy) (hd : declaration proto l = .ok i l') :
    Declared l proto i l' := by
  rcases declaration_eq h.coherent proto with ⟨ha, i, l₁, he, registered⟩ | ⟨-, he⟩
  · cases he.symm.trans hd
    exact registered.tidy h ha
  · cases he.symm.trans hd

/-- A declaration that is refused leaves everything as it was. -/
theorem declaration_error (h : l.Coherent) (hd : declaration proto l = .error e l') :
    l' = l ∧ e.Static := by
  rcases declaration_eq h proto with ⟨-, i, l₁, he, -⟩ | ⟨-, he⟩
  · cases he.symm.trans hd
  · cases he.symm.trans hd
    exact ⟨rfl, nofun⟩

/-- What a definition leaves: its folded code is the only function with a body. -/
structure Defined (l : Lowering) (d : Definition) (i : FuncId) (l' : Lowering) : Prop where
  fresh : d.proto.name ∉ l.defined
  registry : l'.registry = l.registry.insert d.proto.name d.proto
  defined : l'.defined = d.proto.name :: l.defined
  arity : ∀ p, l.registry.get? d.proto.name = some p → p.arity = d.proto.arity
  func : ∃ f : Func, l'.builder.func? i = some f.fold ∧ f.check = .ok () ∧ Bodied f d ∧
    f.name = d.proto.name
  others : ∀ {j f}, j ≠ i → l'.builder.func? j = some f → f.isDeclaration

/-- Deleting a function moves those behind it. -/
theorem func?_delete {b : Builder} {j : FuncId} {f : Func} (hi : i.index < b.module.functions.size)
    (h : (b.delete i).func? j = some f) :
    ∃ k : FuncId, k.index = (if j.index < i.index then j.index else j.index + 1) ∧
      b.func? k = some f := by
  refine ⟨⟨if j.index < i.index then j.index else j.index + 1⟩, rfl, ?_⟩
  simp only [Builder.func?, Builder.delete, Module.get?, Array.eraseIdxIfInBounds_eq, dif_pos hi,
    Array.getElem?_eraseIdx] at h ⊢
  split at h
  · next hj => rw [if_pos hj, h]
  · next hj => rw [if_neg hj, h]

/-- What is left when a function is deleted was another one before. -/
theorem exists_of_delete {b : Builder} {j : FuncId} {f g : Func} (hi : b.func? i = some f)
    (h : (b.delete i).func? j = some g) :
    ∃ k : FuncId, k.index = (if j.index < i.index then j.index else j.index + 1) ∧ k ≠ i ∧
      b.func? k = some g := by
  obtain ⟨k, hk, hg⟩ := func?_delete (func?_lt hi) h
  refine ⟨k, hk, fun he => ?_, hg⟩
  rw [he] at hk
  split at hk <;> omega

/-- Another function is still there when one is deleted. -/
theorem exists_delete {b : Builder} {j : FuncId} {f g : Func} (hi : b.func? i = some f) (hj : j ≠ i)
    (hg : b.func? j = some g) : ∃ k, (b.delete i).func? k = some g := by
  refine ⟨⟨if j.index < i.index then j.index else j.index - 1⟩, ?_⟩
  have hlt := func?_lt hi
  have hne : j.index ≠ i.index := mt FuncId.index_inj.1 hj
  simp only [Builder.func?, Builder.delete, Module.get?, Array.eraseIdxIfInBounds_eq, dif_pos hlt,
    Array.getElem?_eraseIdx] at hg ⊢
  by_cases hs : j.index < i.index
  · rw [if_pos hs, if_pos hs, hg]
  · rw [if_neg hs, if_neg (by omega), show j.index - 1 + 1 = j.index by omega, hg]

/-- When a function is deleted and its name is not looked up any more, the others agree with the
registry as they did. -/
theorem agreed_delete {registry before : Registry} {b : Builder} {f : Func}
    (h : Builder.Agreed registry b) (hi : b.func? i = some f)
    (hk : ∀ n, n ≠ f.name → before.get? n = registry.get? n) :
    Builder.Agreed before (b.delete i) where
  registered := by
    intro j g hj
    obtain ⟨k, -, hne, hg⟩ := exists_of_delete hi hj
    obtain ⟨p, hp, ha⟩ := h.registered hg
    exact ⟨p, by rw [hk _ fun e => hne (h.distinct hg hi e), hp], ha⟩
  distinct := by
    intro j j' g g' hj hj' he
    obtain ⟨k, ek, -, hg⟩ := exists_of_delete hi hj
    obtain ⟨k', ek', -, hg'⟩ := exists_of_delete hi hj'
    have := h.distinct hg hg' he
    subst this
    have : j.index = j'.index := by
      rw [ek] at ek'
      split at ek' <;> split at ek' <;> omega
    exact FuncId.index_inj.1 this

/-- A function that is filled has the body of its definition, and its name counts as defined. -/
theorem fill_ok {before : Registry} (h : fill before i d l = .ok j l') : j = i ∧
    ∃ st, Emit.body l.registry i d { builder := l.builder } = .ok () st ∧
      l' = { l with builder := st.builder, defined := d.proto.name :: l.defined } := by
  unfold fill at h
  split at h
  · next hb =>
    cases h
    exact ⟨rfl, _, hb, rfl⟩
  · cases h

/-- A function that cannot be filled is deleted, and the registry is put back. -/
theorem fill_error {before : Registry} (h : fill before i d l = .error e l') :
    ∃ st, Emit.body l.registry i d { builder := l.builder } = .error e st ∧
      l' = { l with builder := st.builder.delete i, registry := before } := by
  unfold fill at h
  split at h
  · cases h
  · next hb =>
    cases h
    exact ⟨_, hb, rfl⟩

/-- A definition that is accepted is of a new name. It is declared, and then its body goes into its
function. -/
theorem definition_eq_ok (h : l.Tidy) (hd : definition d l = .ok i l') :
    d.proto.name ∉ l.defined ∧ ∃ l₁ st, Declared l d.proto i l₁ ∧
      Emit.body l₁.registry i d { builder := l₁.builder } = .ok () st ∧
      l' = { l₁ with builder := st.builder, defined := d.proto.name :: l₁.defined } := by
  rcases definition_eq h.coherent d with ⟨-, he⟩ | ⟨-, -, he⟩ | ⟨hb, ha, j, l₁, registered, he⟩
  · cases he.symm.trans hd
  · cases he.symm.trans hd
  · obtain ⟨rfl, st, hbody, hl⟩ := fill_ok (he.symm.trans hd)
    rw [h.isDefined] at hb
    exact ⟨of_decide_eq_false hb, l₁, st, registered.tidy h ha, hbody, hl⟩

/-- A definition that is refused was not even declared, or its body was refused, and then its
function is deleted. -/
theorem definition_eq_error (h : l.Tidy) (hd : definition d l = .error e l') :
    l' = l ∧ e.Static ∨ ∃ j l₁ st, Declared l d.proto j l₁ ∧
      Emit.body l₁.registry j d { builder := l₁.builder } = .error e st ∧
      l' = { l₁ with builder := st.builder.delete j, registry := l.registry } := by
  rcases definition_eq h.coherent d with ⟨-, he⟩ | ⟨-, -, he⟩ | ⟨hb, ha, j, l₁, registered, he⟩
  · cases he.symm.trans hd
    exact .inl ⟨rfl, nofun⟩
  · cases he.symm.trans hd
    exact .inl ⟨rfl, nofun⟩
  · obtain ⟨st, hbody, hl⟩ := fill_error (he.symm.trans hd)
    exact .inr ⟨j, l₁, st, registered.tidy h ha, hbody, hl⟩

/-- A definition that is accepted leaves what `Defined` says. -/
theorem definition_ok (h : l.Tidy) (hd : definition d l = .ok i l') :
    Defined l d i l' := by
  obtain ⟨fresh, l₁, st, declared, hb, rfl⟩ := definition_eq_ok h hd
  obtain ⟨params, hp, hi⟩ := declared.func
  have widens := declared.widens d
  rw [hb] at widens
  obtain ⟨f, hf, hc, hbody, hn⟩ := Emit.bodied_of_body declared.tidy.named hi hp rfl hb
  refine ⟨fresh, declared.registry, by rw [declared.defined], declared.arity,
    ⟨f, hf, hc, hbody, hn⟩, ?_⟩
  intro k g hk hg
  obtain ⟨params, he⟩ : ∃ params, g = .declare g.name params := by
    rcases widens.old_or_declared hk hg with old | ⟨_, _, rfl⟩
    · exact declared.tidy.declared old
    · exact ⟨_, rfl⟩
  rw [he]
  rfl

/-- A definition that fails leaves the registry and the names with bodies as they were. -/
theorem definition_error (h : l.Tidy) (hd : definition d l = .error e l') :
    l'.Tidy ∧ l'.registry = l.registry ∧ l'.defined = l.defined := by
  rcases definition_eq_error h hd with ⟨rfl, -⟩ | ⟨j, l₁, st, declared, hb, rfl⟩
  · exact ⟨h, rfl, rfl⟩
  obtain ⟨params, hp, hj⟩ := declared.func
  have widens := declared.widens d
  rw [hb] at widens
  obtain ⟨f, hf, hn, -⟩ := widens.self hj
  have agreed := declared.tidy.agreed.widens declared.tidy.named widens
  have keys : ∀ n, n ≠ f.name → l.registry.get? n = l₁.registry.get? n := by
    intro n hne
    have hne : n ≠ d.proto.name := fun e => hne (e.trans hn.symm)
    rw [declared.registry, Dict.get?_insert, if_neg hne]
  refine ⟨⟨h.named, agreed_delete agreed hf keys, fun {k g} hg => ?_⟩, rfl, declared.defined⟩
  obtain ⟨k', -, hk, hg⟩ := exists_of_delete hf hg
  rcases widens.old_or_declared hk hg with old | ⟨_, _, rfl⟩
  · exact declared.tidy.declared old
  · exact ⟨_, rfl⟩

end Lower

end Kaleidoscope
