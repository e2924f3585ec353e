import Kaleidoscope.Proofs.Action
import Kaleidoscope.Proofs.Expr.Induction
import Kaleidoscope.Proofs.Ssa.Layout
import Kaleidoscope.Lowering.Emit

/-!
# What emitting does to the module

While code goes into one function the others stay as they are, and functions that are added are
declarations from the registry, each under a name of its own (`Widens`). Here this is said of each
operation of the builder; what is emitted is a sequence of them.
-/

namespace Kaleidoscope

open Ssa

/-- Every function of the first builder is one of the second, with its name and its parameters. -/
def Builder.Carries (b b' : Builder) : Prop :=
  ∀ i f, b.func? i = some f → ∃ f', b'.func? i = some f' ∧ f'.name = f.name ∧ f'.params = f.params

/-- The second builder has the functions of the first, the given one possibly with other code, and
behind them new declarations from the registry. -/
structure Widens (registry : Registry) (id : FuncId) (b b' : Builder) : Prop where
  place : b'.place.func = id
  size : b.module.functions.size ≤ b'.module.functions.size
  other : ∀ {i}, i ≠ id → i.index < b.module.functions.size → b'.func? i = b.func? i
  self : ∀ {f}, b.func? id = some f →
    ∃ f', b'.func? id = some f' ∧ f'.name = f.name ∧ f'.params = f.params
  declared : ∀ {i f}, b.module.functions.size ≤ i.index → b'.func? i = some f →
    ∃ name proto, registry.get? name = some proto ∧ f = .declare proto.name proto.params
  distinct : ∀ {i j f g}, i.index < j.index → b.module.functions.size ≤ j.index →
    b'.func? i = some f → b'.func? j = some g → f.name ≠ g.name

/-- The builder emits into the given function. -/
structure Emitting (id : FuncId) (b : Builder) : Prop where
  place : b.place.func = id
  bound : id.index < b.module.functions.size

section Builders

variable {registry : Registry} {id : FuncId} {b b' b'' : Builder} {i : FuncId} {f : Func}

theorem func?_lt (h : b.func? i = some f) : i.index < b.module.functions.size :=
  (Array.getElem?_eq_some_iff.1 h).1

theorem func?_of_lt (h : i.index < b.module.functions.size) : ∃ f, b.func? i = some f :=
  ⟨_, Array.getElem?_eq_some_iff.2 ⟨h, rfl⟩⟩

/-- A change of one function is seen there and nowhere else. -/
theorem func?_modifyFunc (b : Builder) (i j : FuncId) (change : Func → Func) :
    (b.modifyFunc i change).func? j = if i = j then (b.func? j).map change else b.func? j := by
  simp only [Builder.func?, Builder.modifyFunc, Module.get?, Array.getElem?_modify,
    FuncId.index_inj]

theorem Widens.emitting (h : Widens registry id b b') (hb : Emitting id b) : Emitting id b' :=
  ⟨h.place, Nat.lt_of_lt_of_le hb.bound h.size⟩

theorem Widens.refl (h : Emitting id b) : Widens registry id b b where
  place := h.place
  size := Nat.le_refl _
  other _ _ := rfl
  self hf := ⟨_, hf, rfl, rfl⟩
  declared hi hf := absurd (func?_lt hf) (by omega)
  distinct _ hj _ hg := absurd (func?_lt hg) (by omega)

/-- Declarations that come later are behind those that came before, and their names are new to both.
-/
theorem Widens.trans (hb : id.index < b.module.functions.size) (h : Widens registry id b b')
    (h' : Widens registry id b' b'') : Widens registry id b b'' where
  place := h'.place
  size := Nat.le_trans h.size h'.size
  other hi hn := (h'.other hi (Nat.lt_of_lt_of_le hn h.size)).trans (h.other hi hn)
  self hf := by
    obtain ⟨f₁, h₁, n₁, p₁⟩ := h.self hf
    obtain ⟨f₂, h₂, n₂, p₂⟩ := h'.self h₁
    exact ⟨f₂, h₂, n₂.trans n₁, p₂.trans p₁⟩
  declared := by
    intro i f hi hf
    by_cases hn : i.index < b'.module.functions.size
    · have ne : i ≠ id := by
        rintro rfl
        omega
      exact h.declared hi (h'.other ne hn ▸ hf)
    · exact h'.declared (by omega) hf
  distinct := by
    intro i j f g hij hj hf hg
    by_cases hn : j.index < b'.module.functions.size
    · have ne : j ≠ id := by
        rintro rfl
        omega
      rw [h'.other ne hn] at hg
      by_cases hi : i = id
      · obtain ⟨f₁, h₁⟩ := func?_of_lt (Nat.lt_of_lt_of_le hb h.size)
        obtain ⟨f₂, h₂, n₂, -⟩ := h'.self h₁
        rw [hi, h₂] at hf
        cases hf
        rw [n₂]
        exact h.distinct hij hj (hi ▸ h₁) hg
      · rw [h'.other hi (by omega)] at hf
        exact h.distinct hij hj hf hg
    · exact h'.distinct hij (by omega) hf hg

/-- Every function keeps its name and parameters. -/
theorem Widens.name (h : Widens registry id b b') (hf : b.func? i = some f) :
    ∃ f', b'.func? i = some f' ∧ f'.name = f.name ∧ f'.params = f.params := by
  by_cases hi : i = id
  · subst hi
    exact h.self hf
  · exact ⟨f, (h.other hi (func?_lt hf)).trans hf, rfl, rfl⟩

/-- Another function was there before, or is a declaration. -/
theorem Widens.old_or_declared (h : Widens registry id b b') (hi : i ≠ id)
    (hf : b'.func? i = some f) :
    b.func? i = some f ∨ ∃ name params, f = .declare name params := by
  by_cases hlt : i.index < b.module.functions.size
  · exact .inl ((h.other hi hlt).symm.trans hf)
  · obtain ⟨_, proto, -, he⟩ := h.declared (by omega) hf
    exact .inr ⟨_, _, he⟩

/-- Changing the function at the place, but not its name and parameters. -/
theorem widens_modifyFunc (h : Emitting id b) (change : Func → Func)
    (hn : ∀ f, (change f).name = f.name) (hp : ∀ f, (change f).params = f.params) :
    Widens registry id b (b.modifyFunc id change) where
  place := h.place
  size := by simp [Builder.modifyFunc]
  other hi _ := by rw [func?_modifyFunc, if_neg (Ne.symm hi)]
  self {f} hf := ⟨change f, by rw [func?_modifyFunc, if_pos rfl, hf]; rfl, hn f, hp f⟩
  declared hi hf := by
    have := func?_lt hf
    simp only [Builder.modifyFunc, Array.size_modify] at this
    omega
  distinct _ hj _ hg := by
    have := func?_lt hg
    simp only [Builder.modifyFunc, Array.size_modify] at this
    omega

/-- Changing code changes one function and neither its name nor its parameters. -/
theorem widens_modifyBlock (h : Emitting id b) (change : Block → Block) :
    Widens registry id b (b.modifyBlock change) := by
  unfold Builder.modifyBlock
  rw [h.place]
  exact widens_modifyFunc h _ (fun _ => rfl) fun _ => rfl

theorem widens_newValue (h : Emitting id b) (name : String) :
    Widens registry id b (b.newValue name).2 := by
  unfold Builder.newValue
  rw [h.place]
  exact widens_modifyFunc h _ (fun _ => rfl) fun _ => rfl

theorem widens_define (h : Emitting id b) (name : String) (inst : ValueId → Inst) :
    Widens registry id b (b.define name inst).2 :=
  have hv := widens_newValue h name
  hv.trans h.bound (widens_modifyBlock (hv.emitting h) _)

theorem widens_phi (h : Emitting id b) (incoming : List (ValueId × Place)) (name : String) :
    Widens registry id b (b.phi incoming name).2 :=
  have hv := widens_newValue h name
  hv.trans h.bound (widens_modifyBlock (hv.emitting h) _)

/-- To call a function is to read its name and to define a value. -/
theorem widens_call (h : Emitting id b) (f : FuncId) (args : List ValueId) (name : String) :
    Widens registry id b (b.call f args name).2 := by
  unfold Builder.call
  split
  · exact widens_define h name _
  · exact widens_newValue h name

theorem find?_eq_some {name : String} (h : b.find? name = some i) :
    ∃ f, b.func? i = some f ∧ f.name = name := by
  obtain ⟨n, hn, rfl⟩ := Option.map_eq_some_iff.1 h
  obtain ⟨hlt, hp, -⟩ := Array.findIdx?_eq_some_iff_getElem.1 hn
  exact ⟨_, Array.getElem?_eq_some_iff.2 ⟨hlt, rfl⟩, by simpa using hp⟩

/-- Nothing is found under a name only if no function has it. -/
theorem find?_eq_none {name : String} (h : b.find? name = none) (hf : b.func? i = some f) :
    f.name ≠ name := by
  have hn := Option.map_eq_none_iff.1 h
  have := Array.findIdx?_eq_none_iff.1 hn f (Array.mem_of_getElem? hf)
  simpa using this

/-- A name that is not in the module is declared behind all functions. -/
theorem declare_of_none {name : String} (h : b.find? name = none) (params : List String) :
    b.declare name params = (⟨b.module.functions.size⟩,
      { b with module := { b.module with
        functions := b.module.functions.push (.declare name params) } }) := by
  simp only [Builder.declare, h]

/-- A name that is in the module is not declared again, whatever parameters are given. -/
theorem declare_of_some {name : String} (h : b.find? name = some i) (params : List String) :
    b.declare name params = (i, b) := by
  simp only [Builder.declare, h]

/-- A function that is declared is there under its name. -/
theorem func?_declare (b : Builder) (name : String) (params : List String) :
    ∃ f, (b.declare name params).2.func? (b.declare name params).1 = some f ∧ f.name = name := by
  cases hf : b.find? name with
  | some i =>
    rw [declare_of_some hf]
    exact find?_eq_some hf
  | none =>
    rw [declare_of_none hf]
    refine ⟨.declare name params, ?_, rfl⟩
    show (b.module.functions.push (.declare name params))[_]? = _
    simp

/-- Declaring a function leaves those that are there. -/
theorem func?_declare_of_lt (h : i.index < b.module.functions.size) (name : String)
    (params : List String) : (b.declare name params).2.func? i = b.func? i := by
  cases hf : b.find? name with
  | some j => rw [declare_of_some hf]
  | none =>
    rw [declare_of_none hf]
    show (b.module.functions.push (.declare name params))[i.index]? = _
    rw [Array.getElem?_push, if_neg (Nat.ne_of_lt h)]
    rfl

theorem place_declare (b : Builder) (name : String) (params : List String) :
    (b.declare name params).2.place = b.place := by
  cases hf : b.find? name with
  | some j => rw [declare_of_some hf]
  | none => rw [declare_of_none hf]

/-- Declaring a registered function. -/
theorem widens_declare (h : Emitting id b) {name : String} {proto : Prototype}
    (hr : registry.get? name = some proto) :
    Widens registry id b (b.declare proto.name proto.params).2 := by
  cases hf : b.find? proto.name with
  | some i =>
    rw [declare_of_some hf]
    exact .refl h
  | none =>
    rw [declare_of_none hf]
    have old : ∀ {i : FuncId}, i.index < b.module.functions.size →
        (b.module.functions.push (.declare proto.name proto.params))[i.index]? = b.func? i := by
      intro i hi
      rw [Array.getElem?_push, if_neg (by omega)]
      rfl
    have new : ∀ {i : FuncId} {f}, b.module.functions.size ≤ i.index →
        (b.module.functions.push (.declare proto.name proto.params))[i.index]? = some f →
        i.index = b.module.functions.size ∧ f = .declare proto.name proto.params := by
      intro i f hi hf
      rw [Array.getElem?_push] at hf
      split at hf
      · next he => exact ⟨he, by simpa using hf.symm⟩
      · have := (Array.getElem?_eq_some_iff.1 hf).1
        omega
    exact {
      place := h.place
      size := by simp
      other := fun _ hi => old hi
      self := fun hf => ⟨_, (old h.bound).trans hf, rfl, rfl⟩
      declared := fun hi hf => ⟨name, proto, hr, (new hi hf).2⟩
      distinct := by
        intro i j f g hij hj hf' hg
        obtain ⟨hj, rfl⟩ := new hj hg
        have hi : i.index < b.module.functions.size := by omega
        exact find?_eq_none hf ((old hi).symm.trans hf') }

section Carrying

theorem Builder.Carries.refl : Builder.Carries b b :=
  fun _ _ hf => ⟨_, hf, rfl, rfl⟩

theorem Builder.Carries.trans (h : Builder.Carries b b') (h' : Builder.Carries b' b'') :
    Builder.Carries b b'' := by
  intro i f hf
  obtain ⟨f₁, h₁, n₁, p₁⟩ := h i f hf
  obtain ⟨f₂, h₂, n₂, p₂⟩ := h' i f₁ h₁
  exact ⟨f₂, h₂, n₂.trans n₁, p₂.trans p₁⟩

/-- Neither code nor names of values show in what is carried. -/
theorem carries_modifyFunc (change : Func → Func) (hn : ∀ f, (change f).name = f.name)
    (hp : ∀ f, (change f).params = f.params) : Builder.Carries b (b.modifyFunc id change) := by
  intro i f hf
  rw [func?_modifyFunc, hf]
  split
  · exact ⟨change f, rfl, hn f, hp f⟩
  · exact ⟨f, rfl, rfl, rfl⟩

theorem carries_modifyBlock (change : Block → Block) : Builder.Carries b (b.modifyBlock change) := by
  unfold Builder.modifyBlock
  exact carries_modifyFunc _ (fun _ => rfl) fun _ => rfl

theorem carries_newValue (name : String) : Builder.Carries b (b.newValue name).2 := by
  unfold Builder.newValue
  exact carries_modifyFunc _ (fun _ => rfl) fun _ => rfl

theorem carries_define (name : String) (inst : ValueId → Inst) :
    Builder.Carries b (b.define name inst).2 :=
  (carries_newValue name).trans (carries_modifyBlock _)

/-- A declaration is added behind the functions, or is there already. -/
theorem carries_declare (name : String) (params : List String) :
    Builder.Carries b (b.declare name params).2 :=
  fun _ _ hf => ⟨_, (func?_declare_of_lt (func?_lt hf) name params).trans hf, rfl, rfl⟩

end Carrying

end Builders

end Kaleidoscope
