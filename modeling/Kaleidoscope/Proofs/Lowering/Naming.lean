import Kaleidoscope.Proofs.Lowering.Emission

/-!
# The names that a function gets

Every operation of the builder brings the function at its place some names more (`Gains`), and so
does a sequence of them (`Moves.gains`). What the code of a definition brings can be read off the
definition: `Emit.names_of_code`.
-/

namespace Kaleidoscope

open Ssa

/-- The function that the builder is at has got these names more. -/
structure Gains (id : FuncId) (N : Names) (b b' : Builder) : Prop where
  place : b'.place.func = id
  func : ∀ {f}, b.func? id = some f →
    ∃ f', b'.func? id = some f' ∧ f'.names = f.names ++ N ∧ f'.params = f.params

section Builders

variable {id : FuncId} {b b' b'' : Builder} {M N : Names}

theorem Gains.refl (h : b.place.func = id) : Gains id ∅ b b :=
  ⟨h, fun hf => ⟨_, hf, (Names.append_empty _).symm, rfl⟩⟩

theorem Gains.trans (h : Gains id M b b') (h' : Gains id N b' b'') : Gains id (M ++ N) b b'' := by
  refine ⟨h'.place, fun hf => ?_⟩
  obtain ⟨f₁, h₁, n₁, p₁⟩ := h.func hf
  obtain ⟨f₂, h₂, n₂, p₂⟩ := h'.func h₁
  exact ⟨f₂, h₂, by rw [n₂, n₁, Names.append_assoc], p₂.trans p₁⟩

/-- A change of the function brings the names that it adds to the function. -/
theorem gains_modifyFunc (h : b.place.func = id) (change : Func → Func)
    (hn : ∀ f, (change f).names = f.names ++ N) (hp : ∀ f, (change f).params = f.params) :
    Gains id N b (b.modifyFunc id change) := by
  refine ⟨h, fun {f} hf => ⟨change f, ?_, hn f, hp f⟩⟩
  rw [func?_modifyFunc, if_pos rfl, hf]
  rfl

/-- Code in a block brings no names as long as the block keeps its label. -/
theorem gains_modifyBlock (h : b.place.func = id) (change : Block → Block)
    (hl : ∀ blk, (change blk).label = blk.label) : Gains id ∅ b (b.modifyBlock change) := by
  unfold Builder.modifyBlock
  rw [h]
  refine gains_modifyFunc h _ (fun f => ?_) fun _ => rfl
  have labels : (f.blocks.modify b.place.block.index change).toList.map (·.label) =
      f.blocks.toList.map (·.label) := by
    refine List.ext_getElem? fun k => ?_
    simp only [Array.toList_modify, List.getElem?_map, List.getElem?_modify]
    split
    · cases f.blocks.toList[k]? <;> simp [hl]
    · simp
  rw [Names.append_empty]
  simp only [Func.names, labels]

/-- Values are named when they are numbered, so that their definitions bring no further names. -/
theorem gains_newValue (h : b.place.func = id) (name : String) :
    Gains id (.value name) b (b.newValue name).2 := by
  unfold Builder.newValue
  rw [h]
  exact gains_modifyFunc h _ (fun f => by simp [Func.names, Names.value, Names.mk_append]) fun _ => rfl

theorem gains_define (h : b.place.func = id) (name : String) (inst : ValueId → Inst) :
    Gains id (.value name) b (b.define name inst).2 :=
  have named := gains_newValue h name
  Names.append_empty (.value name) ▸ named.trans (gains_modifyBlock named.place _ fun _ => rfl)

theorem gains_phi (h : b.place.func = id) (incoming : List (ValueId × Place)) (name : String) :
    Gains id (.value name) b (b.phi incoming name).2 :=
  have named := gains_newValue h name
  Names.append_empty (.value name) ▸ named.trans (gains_modifyBlock named.place _ fun _ => rfl)

/-- Looking up the callee of a call brings no names. -/
theorem gains_call (h : b.place.func = id) (f : FuncId) (args : List ValueId) (name : String) :
    Gains id (.value name) b (b.call f args name).2 := by
  unfold Builder.call
  split
  · exact gains_define h name _
  · exact gains_newValue h name

theorem gains_addSlot (h : b.place.func = id) (name : String) :
    Gains id (.slot name) b (b.addSlot id name).2 :=
  gains_modifyFunc h _ (fun f => by simp [Func.names, Names.slot, Names.mk_append]) fun _ => rfl

theorem gains_appendBlock (h : b.place.func = id) (label : String) :
    Gains id (.block label) b (b.appendBlock id label).2 :=
  gains_modifyFunc h _ (fun f => by simp [Func.names, Names.block, Names.mk_append]) fun _ => rfl

/-- Declaring a function leaves the one that the builder is at. -/
theorem gains_declare (h : b.place.func = id) (name : String) (params : List String) :
    Gains id ∅ b (b.declare name params).2 := by
  refine ⟨place_declare b name params ▸ h, fun {f} hf => ⟨f, ?_, (Names.append_empty _).symm, rfl⟩⟩
  exact (func?_declare_of_lt (func?_lt hf) name params).trans hf

/-- What a sequence of operations brings is what its operations bring, one behind the other. -/
theorem Moves.gains {registry : Registry} {S : Char → Prop} (h : Moves registry S id N b b')
    (hp : b.place.func = id) : Gains id N b b' := by
  induction h with
  | refl => exact .refl hp
  | trans _ _ ih ih' => exact (ih hp).trans (ih' (ih hp).place)
  | define label _ => exact gains_define hp label _
  | call label args _ _ => exact gains_call hp _ args label
  | phi label incoming => exact gains_phi hp incoming label
  | store => exact gains_modifyBlock hp _ fun _ => rfl
  | terminate => exact gains_modifyBlock hp _ fun _ => rfl
  | addSlot name => exact gains_addSlot hp name
  | appendBlock label => exact gains_appendBlock hp label
  | moveTo h => exact { Gains.refl hp with place := h }
  | declare => exact gains_declare hp _ _

end Builders

/-- The code of a definition comes with the parameters as slots, and the names of the body. -/
theorem Emit.names_of_code {registry : Registry} {id : FuncId} {d : Definition} {name : String}
    {params : List String} {st st₁ : Emitter} {u : Unit}
    (hf : st.builder.func? id = some (.declare name params))
    (h : code registry id d st = .ok u st₁) :
    ∃ f, st₁.builder.func? id = some f ∧ f.params = params ∧
      f.names = ⟨params, d.proto.params, ["entry"]⟩ ++ d.body.names := by
  have moved : Moved registry (fun _ => True) id _ _ (code registry id d st) :=
    moved_code (spelled_any d.body)
  rw [h] at moved
  obtain ⟨sees, -⟩ := @sees_entered id st _ _ _ _ _ _ hf rfl rfl
  obtain ⟨f, hf₁, names, params'⟩ := (Moves.gains moved rfl).func sees.func
  refine ⟨f, hf₁, params', ?_⟩
  rw [names, ← Names.append_assoc]
  congr 1
  simp [entered, Func.declare, Func.names, Names.mk_append]

end Kaleidoscope
