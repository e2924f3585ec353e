import Kaleidoscope.Proofs.Lowering.Checking
import Kaleidoscope.Proofs.Lowering.Rollback

/-!
# Which calls find their function in the module

Emitting a call finds its function in the module or declares it there from the registry, so that the
function is in the module by then, with as many parameters as the call has arguments
(`Emit.served_of_code`). The number of operands of an operator is not compared with anything: it is
right if all forms are such as are read from a source (`Request.Regular`).

The function stays, with one exception. A definition that is refused deletes its function, even one
that was declared before, and functions that are in the module by then may call it. Nothing declares
it again until the next call of it is emitted, and a module that is handed over before lacks it: this
happens after `extern g(x)`, `def f(x) g(x)` and `def g(x) y` (`declaredCallee_open`).

These are the only calls without their function: `Lowering.closedUpTo_after`.
-/

namespace Kaleidoscope

open Ssa

/-- The instruction, if it is a call, is of a function and a number of arguments that satisfy `C`. -/
def Ssa.Inst.Calls (C : String → Nat → Prop) : Inst → Prop
  | .call _ callee args => C callee args.length
  | _ => True

/-- Every call of the function is of a function and a number of arguments that satisfy `C`. -/
def Ssa.Func.Calls (C : String → Nat → Prop) (f : Func) : Prop :=
  ∀ i ∈ f.insts, i.Calls C

/-- A function of the module has the name, and so many parameters. -/
def Ssa.Module.Offers (m : Module) (name : String) (n : Nat) : Prop :=
  ∃ f ∈ m.functions, f.name = name ∧ f.arity = n

/-- Every call of the module is of a function that is there and has as many parameters as the call
has arguments, or of one that is excused. -/
def Ssa.Module.ClosedUpTo (excused : String → Prop) (m : Module) : Prop :=
  ∀ f ∈ m.functions, f.Calls fun callee n => m.Offers callee n ∨ excused callee

/-- The name is that of an operator's function. -/
def OperatorName (name : String) : Prop :=
  ∃ op, name = unaryName op ∨ name = binaryName op

/-- The name is registered with so many parameters. Of an operator's function the number counts only
if `exact` holds. -/
def Registry.Fits (registry : Registry) (exact : Prop) (name : String) (n : Nat) : Prop :=
  ∃ proto, registry.get? name = some proto ∧ (proto.arity = n ∨ OperatorName name ∧ ¬ exact)

/-- A function of the module has the name. -/
def Builder.Holds (b : Builder) (name : String) : Prop :=
  ∃ i f, b.func? i = some f ∧ f.name = name

/-- The function called is registered and in the module. -/
def Builder.Serves (registry : Registry) (exact : Prop) (b : Builder) (name : String) (n : Nat) :
    Prop :=
  registry.Fits exact name n ∧ Builder.Holds b name

/-- The instructions of the function in the second builder that were not there in the first are no
calls, or calls that satisfy `C`. -/
def Builder.Adds (id : FuncId) (C : String → Nat → Prop) (b b' : Builder) : Prop :=
  ∀ f', b'.func? id = some f' →
    ∃ f, b.func? id = some f ∧ ∀ i ∈ f'.insts, i ∈ f.insts ∨ i.Calls C

section Builders

variable {C D : String → Nat → Prop} {registry : Registry} {exact : Prop} {id : FuncId}
  {b b' b'' : Builder} {f : Func} {i : Inst} {name : String}

theorem Ssa.Inst.calls_call {dst : ValueId} {args : List ValueId} :
    (Inst.call dst name args).Calls C ↔ C name args.length :=
  .rfl

theorem calls_of_ne (h : ∀ dst callee args, i ≠ .call dst callee args) : i.Calls C := by
  cases i with
  | call dst callee args => exact absurd rfl (h dst callee args)
  | _ => trivial

/-- Whatever is said of callees may be weakened, for an instruction and so for a function. -/
theorem Ssa.Inst.Calls.mono (h : i.Calls C) (hcd : ∀ callee n, C callee n → D callee n) :
    i.Calls D := by
  cases i with
  | call dst callee args => exact hcd _ _ h
  | _ => trivial

theorem Ssa.Func.Calls.mono (h : f.Calls C) (hcd : ∀ callee n, C callee n → D callee n) :
    f.Calls D :=
  fun i hi => (h i hi).mono hcd

theorem calls_declare (name : String) (params : List String) :
    (Func.declare name params).Calls C := by
  intro i hi
  simp [Func.insts, Func.declare] at hi

/-- Folding adds no calls. -/
theorem Ssa.Func.Calls.fold (h : f.Calls C) : f.fold.Calls C := by
  intro i hi
  obtain ⟨k, n, hi⟩ := Func.exists_instAt hi
  obtain ⟨i₀, hi₀, r⟩ := Func.instAt_of_fold hi
  cases r with
  | same => exact h i hi₀.mem_insts
  | constant => trivial

/-- Registering a prototype that agrees with what is registered for its name takes nothing away. -/
theorem Registry.Fits.insert {proto : Prototype} {n : Nat} (h : registry.Fits exact name n)
    (ha : ∀ p, registry.get? proto.name = some p → p.arity = proto.arity) :
    Registry.Fits (registry.insert proto.name proto) exact name n := by
  obtain ⟨p, hp, fits⟩ := h
  rw [Registry.Fits, Dict.get?_insert]
  split
  · next he => exact ⟨proto, rfl, ha p (he ▸ hp) ▸ fits⟩
  · exact ⟨p, hp, fits⟩

/-- Emitting takes no function out of the module. -/
theorem Builder.Holds.widens (h : Builder.Holds b name) (hw : Widens registry id b b') :
    Builder.Holds b' name := by
  obtain ⟨i, f, hf, hn⟩ := h
  obtain ⟨f', hf', hn', -⟩ := hw.name hf
  exact ⟨i, f', hf', hn'.trans hn⟩

/-- Deleting a function takes its name from the module, and no other one. -/
theorem Builder.Holds.delete (h : Builder.Holds b name) {k : FuncId} (hf : b.func? k = some f) :
    name = f.name ∨ Builder.Holds (b.delete k) name := by
  obtain ⟨j, g, hg, rfl⟩ := h
  by_cases hj : j = k
  · subst hj
    cases hg.symm.trans hf
    exact .inl rfl
  · obtain ⟨j', hj'⟩ := Lower.exists_delete hf hj hg
    exact .inr ⟨j', g, hj', rfl⟩

/-- Names are given once, so that deleting a function takes its name out of the module. -/
theorem not_holds_delete (ha : Builder.Agreed registry b) {k : FuncId} (hf : b.func? k = some f) :
    ¬ Builder.Holds (b.delete k) f.name := by
  rintro ⟨j, g, hg, hn⟩
  obtain ⟨j', -, hj', hg⟩ := Lower.exists_of_delete hf hg
  exact hj' (ha.distinct hg hf hn)

/-- A function can be found under each name that the module has. -/
theorem find?_isSome_iff : (b.find? name).isSome ↔ Builder.Holds b name := by
  cases hf : b.find? name with
  | some i =>
    obtain ⟨f, hi, hn⟩ := find?_eq_some hf
    simpa using ⟨i, f, hi, hn⟩
  | none =>
    refine ⟨nofun, fun held => ?_⟩
    obtain ⟨i, f, hi, hn⟩ := held
    exact absurd hn (find?_eq_none hf hi)

theorem find?_eq_none_iff : b.find? name = none ↔ ¬ Builder.Holds b name := by
  rw [← find?_isSome_iff, Option.not_isSome_iff_eq_none]

/-- Declaring takes no name out of the module. -/
theorem Lower.Registered.holds {l l' : Lowering} {proto : Prototype} {k : FuncId}
    (hr : Lower.Registered l proto k l') (h : Builder.Holds l.builder name) :
    Builder.Holds l'.builder name := by
  obtain ⟨j, f, hf, hn⟩ := h
  exact ⟨j, f, hr.kept hf, hn⟩

theorem adds_of_func?_eq (h : b'.func? id = b.func? id) : Builder.Adds id C b b' :=
  fun _ hf => ⟨_, h.symm.trans hf, fun _ hi => .inl hi⟩

/-- What two operations add is what the first adds and what the second adds. -/
theorem Builder.Adds.trans (h : Builder.Adds id C b b') (h' : Builder.Adds id C b' b'') :
    Builder.Adds id C b b'' := by
  intro f'' hf''
  obtain ⟨f', hf', new'⟩ := h' f'' hf''
  obtain ⟨f, hf, new⟩ := h f' hf'
  exact ⟨f, hf, fun i hi => (new' i hi).elim (new i) .inr⟩

/-- A change of the function adds no more than what was not there before. -/
theorem adds_modifyFunc {change : Func → Func}
    (h : ∀ f, ∀ i ∈ (change f).insts, i ∈ f.insts ∨ i.Calls C) :
    Builder.Adds id C b (b.modifyFunc id change) := by
  intro f' hf'
  rw [func?_modifyFunc, if_pos rfl] at hf'
  obtain ⟨f, hf, rfl⟩ := Option.map_eq_some_iff.1 hf'
  exact ⟨f, hf, h f⟩

/-- Changing a block of a function changes no other block. -/
theorem adds_modifyBlock (hb : Emitting id b) {change : Block → Block}
    (h : ∀ blk, ∀ i ∈ (change blk).insts, i ∈ blk.insts ∨ i.Calls C) :
    Builder.Adds id C b (b.modifyBlock change) := by
  unfold Builder.modifyBlock
  rw [hb.place]
  refine adds_modifyFunc fun f i hi => ?_
  obtain ⟨k, n, blk, hk, hi⟩ := Func.exists_instAt hi
  simp only [Array.getElem?_modify] at hk
  split at hk
  · obtain ⟨blk₀, hk₀, rfl⟩ := Option.map_eq_some_iff.1 hk
    refine (h blk₀ i (List.mem_of_getElem? hi)).imp_left fun hi => ?_
    exact Func.mem_insts (Array.mem_toList_iff.2 (Array.mem_of_getElem? hk₀)) hi
  · exact .inl (Func.InstAt.mem_insts ⟨blk, hk, hi⟩)

theorem adds_newValue (hb : Emitting id b) (name : String) :
    Builder.Adds id C b (b.newValue name).2 := by
  unfold Builder.newValue
  rw [hb.place]
  exact adds_modifyFunc fun _ _ hi => .inl hi

theorem adds_define (hb : Emitting id b) (name : String) (inst : ValueId → Inst)
    (h : ∀ dst, (inst dst).Calls C) : Builder.Adds id C b (b.define name inst).2 := by
  have hv : Widens ∅ id b (b.newValue name).2 := widens_newValue hb name
  refine (adds_newValue hb name).trans (adds_modifyBlock (hv.emitting hb) fun blk i hi => ?_)
  rcases List.mem_append.1 hi with hi | hi
  · exact .inl hi
  · rw [List.mem_singleton.1 hi]
    exact .inr (h _)

theorem adds_phi (hb : Emitting id b) (incoming : List (ValueId × Place)) (name : String) :
    Builder.Adds id C b (b.phi incoming name).2 := by
  have hv : Widens ∅ id b (b.newValue name).2 := widens_newValue hb name
  refine (adds_newValue hb name).trans (adds_modifyBlock (hv.emitting hb) fun blk i hi => ?_)
  rcases List.mem_append.1 hi with hi | hi
  · exact .inl (List.takeWhile_sublist _ |>.mem hi)
  rcases List.mem_cons.1 hi with rfl | hi
  · exact .inr trivial
  · exact .inl (List.dropWhile_sublist _ |>.mem hi)

end Builders

namespace Emit

variable {registry : Registry} {exact : Prop} {id : FuncId} {b b' : Builder} {st st₁ : Emitter}
  {name : String} {α β : Type}

/-- The builder emits into the given function of a module that agrees with the registry, and what the
function calls is there. -/
structure Served (registry : Registry) (exact : Prop) (id : FuncId) (b : Builder) : Prop where
  emitting : Emitting id b
  agreed : Builder.Agreed registry b
  calls : ∀ {f}, b.func? id = some f → f.Calls (Builder.Serves registry exact b)

/-- Calls that are added are served if their callees are in the module by then; the others stay
served, since the module only grows. -/
theorem Served.adds (h : Served registry exact id b) (hr : registry.Named)
    (hw : Widens registry id b b') (ha : Builder.Adds id (Builder.Serves registry exact b') b b') :
    Served registry exact id b' where
  emitting := hw.emitting h.emitting
  agreed := h.agreed.widens hr hw
  calls := by
    intro f' hf'
    obtain ⟨f, hf, new⟩ := ha f' hf'
    have old : f.Calls (Builder.Serves registry exact b') :=
      (h.calls hf).mono fun _ _ served => ⟨served.1, served.2.widens hw⟩
    exact fun i hi => (new i hi).elim (old i) fun hc => hc

theorem Served.define (h : Served registry exact id b) (hr : registry.Named) (label : String)
    (inst : ValueId → Inst)
    (hi : ∀ dst, (inst dst).Calls (Builder.Serves registry exact (b.define label inst).2)) :
    Served registry exact id (b.define label inst).2 :=
  h.adds hr (widens_define h.emitting label inst) (adds_define h.emitting label inst hi)

/-- A block is empty when it is appended. -/
theorem adds_appendBlock {C : String → Nat → Prop} (label : String) :
    Builder.Adds id C b (b.appendBlock id label).2 := by
  refine adds_modifyFunc fun f i hi => .inl ?_
  simpa [Func.insts] using hi

/-- A call fits if its function is there and suits the number of its arguments. -/
theorem Served.fits (h : Served registry exact id b) (hr : registry.Named)
    (hg : exact → registry.Regular) {f : FuncId} {func : Func} {n : Nat}
    (hf : b.func? f = some func) (hs : func.Suits registry (fun op => exact → Sign op) n) :
    registry.Fits exact func.name n := by
  obtain ⟨proto, hp, ha⟩ := h.agreed.registered hf
  rcases hs with hn | ⟨op, sign, ⟨rfl, hn⟩ | ⟨rfl, hn⟩⟩
  · exact ⟨proto, hp, .inl (ha.trans hn)⟩
  -- an operator's function has so many parameters if its prototype is one that can be read
  · rw [hn hr] at hp ⊢
    by_cases hx : exact
    · obtain ⟨-, p, hp', harity⟩ := (hg hx).knows_unaryName hr (sign hx) hp
      exact ⟨p, hp', .inl harity⟩
    · exact ⟨proto, hp, .inr ⟨⟨op, .inl rfl⟩, hx⟩⟩
  · rw [hn hr] at hp ⊢
    by_cases hx : exact
    · obtain ⟨-, p, hp', harity⟩ := (hg hx).knows_binaryName hr (sign hx) hp
      exact ⟨p, hp', .inl harity⟩
    · exact ⟨proto, hp, .inr ⟨⟨op, .inr rfl⟩, hx⟩⟩

/-- Every operation keeps what the function calls in the module, and adds only calls of what is
there. -/
theorem Moves.served {N : Names} (h : Moves registry (fun op => exact → Sign op) id N b b')
    (hr : registry.Named) (hg : exact → registry.Regular) (hs : Served registry exact id b) :
    Served registry exact id b' := by
  induction h with
  | refl => exact hs
  | trans _ _ ih ih' => exact ih' (ih hs)
  | define label hi => exact hs.define hr label _ fun dst => calls_of_ne (hi dst)
  | @call b f func label args hf hsuits =>
    simp only [Builder.call, hf]
    have held : Builder.Holds b func.name := ⟨f, func, hf, rfl⟩
    have hw : Widens registry id b (b.define label (.call · func.name args)).2 :=
      widens_define hs.emitting _ _
    exact hs.define hr label _ fun _ =>
      Inst.calls_call.2 ⟨hs.fits hr hg hf hsuits, held.widens hw⟩
  | phi label incoming =>
    exact hs.adds hr (widens_phi hs.emitting incoming label) (adds_phi hs.emitting incoming label)
  | store src slot =>
    refine hs.adds hr (widens_modifyBlock hs.emitting _) (adds_modifyBlock hs.emitting fun blk i hi => ?_)
    refine (List.mem_append.1 hi).imp_right fun hi => ?_
    rw [List.mem_singleton.1 hi]
    trivial
  | terminate term =>
    exact hs.adds hr (widens_modifyBlock hs.emitting _)
      (adds_modifyBlock hs.emitting fun _ _ hi => .inl hi)
  | addSlot name =>
    exact hs.adds hr (widens_modifyFunc hs.emitting _ (fun _ => rfl) fun _ => rfl)
      (adds_modifyFunc fun _ _ hi => .inl hi)
  | appendBlock label =>
    exact hs.adds hr (widens_modifyFunc hs.emitting _ (fun _ => rfl) fun _ => rfl)
      (adds_appendBlock label)
  | moveTo h =>
    exact ⟨⟨h, hs.emitting.bound⟩, ⟨hs.agreed.registered, hs.agreed.distinct⟩, hs.calls⟩
  | declare hp =>
    exact hs.adds hr (widens_declare hs.emitting hp)
      (adds_of_func?_eq (func?_declare_of_lt hs.emitting.bound _ _))

/-- Whatever a definition calls is in the module when its code has been emitted. -/
theorem served_of_code (hr : registry.Named) (hg : exact → registry.Regular)
    (ha : Builder.Agreed registry b) {params : List String}
    (hf : b.func? id = some (.declare name params)) {d : Definition}
    (hs : exact → d.body.Spelled Word Sign) {u : Unit}
    (h : code registry id d { builder := b } = .ok u st) :
    Served registry exact id st.builder := by
  obtain ⟨sees, -⟩ := @sees_entered id { builder := b } _ _ _ _ _ _ hf rfl rfl
  have start : Served registry exact id
      ((b.appendBlock id "entry").2.moveTo (b.appendBlock id "entry").1) := by
    refine ⟨sees.emitting, ha.entered hr (func?_lt hf), fun {f} hf i hi => ?_⟩
    cases sees.func.symm.trans hf
    simp [Func.insts, entered, Func.declare] at hi
  have hs' : d.body.Spelled (fun _ => True) fun op => exact → Sign op := by
    by_cases hx : exact
    · exact (hs hx).mono (fun _ _ => trivial) fun _ sign _ => sign
    · exact (spelled_any d.body).mono (fun _ _ => trivial) fun _ _ h => absurd h hx
  have moved : Moved registry _ id _ _ (code registry id d { builder := b }) := moved_code hs'
  rw [h] at moved
  exact Moves.served moved hr hg start

end Emit

/-- The forms that are asked for are such as are read from a source. -/
def Request.Regular : Request → Prop
  | .declare proto => (Form.declaration proto).Regular
  | .define d => (Form.definition d).Regular ∨ (Form.expression d).Regular
  | .take | .forget _ => True

/-- A definition that is read has a regular prototype or the anonymous one, and its operators are
signs. -/
theorem Request.Regular.proto {d : Definition} (h : (Request.define d).Regular) :
    (d.proto.Regular ∨ d.proto.name = anonymousName) ∧ d.body.Spelled Word Sign := by
  rcases h with ⟨hp, hs⟩ | ⟨body, rfl, hs⟩
  · exact ⟨.inl hp, hs⟩
  · exact ⟨.inr rfl, hs⟩

namespace Lowering

variable {exact : Prop} {gone gone' : List String} {l l₁ : Lowering} {d : Definition}

/-- The names of functions that refused definitions have taken from the module being built: those
that were taken before, and that of the request if it takes one. -/
def drop (l : Lowering) (gone : List String) : Request → List String
  | .define d =>
    let l' := (l.ask (.define d)).2
    if (l.builder.find? d.proto.name).isSome && (l'.builder.find? d.proto.name).isNone then
      d.proto.name :: gone
    else gone
  | .take => []
  | _ => gone

/-- The names of functions that refused definitions have taken from the module being built, when a
sequence of requests is through. -/
def dropped (l : Lowering) (gone : List String) : List Request → List String
  | [] => gone
  | request :: requests => (l.ask request).2.dropped (l.drop gone request) requests

/-- What the functions of the module call is registered, and it is in the module or was taken from
it. -/
structure Accounted (exact : Prop) (gone : List String) (l : Lowering) : Prop where
  coherent : l.Coherent
  regular : exact → l.registry.Regular
  calls : ∀ {i f}, l.builder.func? i = some f → f.Calls fun callee n =>
    l.registry.Fits exact callee n ∧ (Builder.Holds l.builder callee ∨ callee ∈ gone)

section Runs

theorem Accounted.mono (h : l.Accounted exact gone) (hg : ∀ name ∈ gone, name ∈ gone') :
    l.Accounted exact gone' :=
  ⟨h.coherent, h.regular, fun hf =>
    (h.calls hf).mono fun _ _ => And.imp_right (Or.imp_right (hg _))⟩

/-- What is gone stays gone until the module is taken. -/
theorem mem_drop_define {name : String} (h : name ∈ gone) : name ∈ l.drop gone (.define d) := by
  simp only [drop]
  split
  · exact List.mem_cons_of_mem _ h
  · exact h

/-- What is declared is new, or was there before. -/
theorem Accounted.registered (h : l.Accounted exact gone) {proto : Prototype} {i : FuncId}
    (ha : Lower.Agrees l proto) (hr : Lower.Registered l proto i l₁)
    (hp : exact → proto.Regular ∨ proto.name = anonymousName) : l₁.Accounted exact gone where
  coherent := hr.coherent
  regular hx := hr.registry ▸ (h.regular hx).insert (hp hx)
  calls := by
    intro j f hf
    rcases hr.added hf with old | rfl
    · refine (h.calls old).mono fun _ _ ⟨fits, held⟩ => ⟨?_, held.imp_left hr.holds⟩
      exact hr.registry ▸ fits.insert ha
    · exact calls_declare _ _

/-- What an accepted definition calls is in the module. -/
theorem Accounted.accepted (accounted : l₁.Accounted exact gone) (h : l.Coherent) {i : FuncId}
    {st : Emitter} (hd : l.isDefined d.proto.name = false) (hr : Lower.Registered l d.proto i l₁)
    (hs : exact → d.body.Spelled Word Sign)
    (hc : Emit.code l₁.registry i d { builder := l₁.builder } = .ok () st) :
    Accounted exact gone { l₁ with
      builder := st.builder.optimize i
      defined := d.proto.name :: l₁.defined } := by
  obtain ⟨-, accepted, f, hf, folded⟩ := Lower.accepted_of_code h hd hr hc
  obtain ⟨-, hw⟩ := hr.body_of_code h hd hc
  obtain ⟨params, -, hi⟩ := hr.declared h hd
  have served := Emit.served_of_code accounted.coherent.named accounted.regular
    accounted.coherent.agreed hi hs hc
  have hw' : Widens l₁.registry i st.builder (st.builder.optimize i) :=
    widens_modifyFunc served.emitting _ (fun _ => rfl) fun _ => rfl
  refine ⟨accepted.coherent, accounted.regular, fun {j g} hg => ?_⟩
  by_cases hj : j = i
  · subst hj
    cases hg.symm.trans folded
    exact (served.calls hf).fold.mono fun _ _ ⟨fits, held⟩ => ⟨fits, .inl (held.widens hw')⟩
  · rcases hw.old_or_declared hj hg with old | ⟨_, _, rfl⟩
    · exact (accounted.calls old).mono fun _ _ =>
        And.imp_right (Or.imp_left fun held => held.widens hw)
    · exact calls_declare _ _

/-- A refused definition takes its function from the module, and no other one. -/
theorem Accounted.refused (h : l.Accounted exact gone) {i : FuncId} {st : Emitter} {e : Fault}
    (hd : l.isDefined d.proto.name = false) (hr : Lower.Registered l d.proto i l₁)
    (hc : Emit.code l₁.registry i d { builder := l₁.builder } = .error e st)
    (hdrop : Builder.Holds l.builder d.proto.name →
      ¬ Builder.Holds (st.builder.delete i) d.proto.name → d.proto.name ∈ gone')
    (hg : ∀ name ∈ gone, name ∈ gone') :
    Accounted exact gone' { l₁ with builder := st.builder.delete i, registry := l.registry } := by
  obtain ⟨-, alike⟩ := Lower.alike_of_code h.coherent hd hr hc
  obtain ⟨-, hw⟩ := hr.body_of_refused hc
  obtain ⟨params, -, hi⟩ := hr.declared h.coherent hd
  obtain ⟨f, hf, hn, -⟩ := hw.self hi
  have hn : f.name = d.proto.name := hn
  have taken : ¬ Builder.Holds (st.builder.delete i) d.proto.name :=
    hn ▸ not_holds_delete (hr.coherent.agreed.widens hr.coherent.named hw) hf
  have kept : ∀ name, Builder.Holds l.builder name →
      Builder.Holds (st.builder.delete i) name ∨ name ∈ gone' := by
    intro name held
    rcases ((hr.holds held).widens hw).delete hf with he | held'
    · obtain rfl : name = d.proto.name := he.trans hn
      exact .inr (hdrop held taken)
    · exact .inl held'
  refine ⟨alike.coherent', h.regular, fun {j g} hg' => ?_⟩
  obtain ⟨k, -, hk, hg'⟩ := Lower.exists_of_delete hf hg'
  rcases hw.old_or_declared hk hg' with old | ⟨_, _, rfl⟩
  · rcases hr.added old with old | rfl
    · refine (h.calls old).mono fun callee n ⟨fits, held⟩ => ⟨fits, ?_⟩
      exact held.elim (kept callee) fun hm => .inr (hg callee hm)
    · exact calls_declare _ _
  · exact calls_declare _ _

/-- Whatever is asked, what is called is in the module or was taken from it. -/
theorem Accounted.ask (h : l.Accounted exact gone) (request : Request)
    (hr : exact → request.Regular) : (l.ask request).2.Accounted exact (l.drop gone request) := by
  cases request with
  | declare proto =>
    rcases Lower.declaration_eq h.coherent proto with ⟨ha, i, l', he, registered⟩ | ⟨-, he⟩
    · simp only [Lowering.ask, he]
      exact h.registered ha registered fun hx => .inl (hr hx)
    · simp only [Lowering.ask, he]
      exact h
  | define d =>
    have more : l.Accounted exact (l.drop gone (.define d)) := h.mono fun _ => mem_drop_define
    rcases Lower.definition_eq h.coherent d with
      ⟨-, he⟩ | ⟨-, -, he⟩ | ⟨hd, ha, i, l₁, registered, he⟩
    · simpa only [Lowering.ask, he] using more
    · simpa only [Lowering.ask, he] using more
    have accounted := h.registered ha registered fun hx => (hr hx).proto.1
    cases hc : Emit.code l₁.registry i d { builder := l₁.builder } with
    | ok u st =>
      obtain ⟨hfill, -⟩ := Lower.accepted_of_code h.coherent hd registered hc
      have after := accounted.accepted h.coherent hd registered (fun hx => (hr hx).proto.2) hc
      simp only [Lowering.ask, he, hfill]
      exact after.mono fun _ => mem_drop_define
    -- the function of a refused definition is deleted, also if it was declared before
    | error e st =>
      obtain ⟨hfill, -⟩ := Lower.alike_of_code h.coherent hd registered hc
      have asked : (l.ask (.define d)).2 =
          { l₁ with builder := st.builder.delete i, registry := l.registry } := by
        simp only [Lowering.ask, he, hfill]
      rw [asked]
      refine h.refused hd registered hc (fun before after => ?_) fun _ => mem_drop_define
      have found := find?_isSome_iff.2 before
      have missing := find?_eq_none_iff.2 after
      simp only [drop, asked, found, missing, Option.isNone_none, Bool.and_self, if_true]
      exact List.mem_cons_self
  | take =>
    refine ⟨h.coherent.ask .take, h.regular, fun {i f} hf => ?_⟩
    simp [Lowering.ask, Lowering.take, Builder.take] at hf
  | forget name => exact ⟨h.coherent.ask (.forget name), h.regular, h.calls⟩

/-- By induction on the requests, each of which keeps the account. -/
theorem Accounted.after (requests : List Request) : ∀ {l : Lowering} {gone : List String},
    l.Accounted exact gone → (∀ request ∈ requests, exact → request.Regular) →
      (l.after requests).Accounted exact (l.dropped gone requests) := by
  induction requests with
  | nil => exact fun h _ => h
  | cons request requests ih =>
    intro l gone h hr
    exact ih (h.ask request (hr request (by simp))) fun r hm => hr r (List.mem_cons_of_mem _ hm)

theorem accounted_empty (moduleName : String) : (Lowering.empty moduleName).Accounted exact [] where
  coherent := coherent_empty moduleName
  regular _ := nofun
  calls hf := by simp [Lowering.empty, Builder.empty, Builder.func?, Module.get?] at hf

/-- The calls of a module whose functions are not there are of functions that were taken from it. -/
theorem Accounted.closedUpTo (h : l.Accounted exact gone) :
    l.builder.module.ClosedUpTo fun callee =>
      callee ∈ gone ∧ l.builder.find? callee = none ∨ OperatorName callee ∧ ¬ exact := by
  intro f hf
  obtain ⟨i, hi⟩ := Array.mem_iff_getElem?.1 hf
  refine (h.calls (i := ⟨i⟩) hi).mono fun callee n ⟨⟨proto, hp, fits⟩, held⟩ => ?_
  by_cases there : Builder.Holds l.builder callee
  · obtain ⟨j, g, hg, rfl⟩ := there
    obtain ⟨p, hp', ha⟩ := h.coherent.agreed.registered hg
    cases hp.symm.trans hp'
    rcases fits with rfl | loose
    · exact .inl ⟨g, Array.mem_of_getElem? hg, rfl, ha.symm⟩
    · exact .inr (.inr loose)
  · exact .inr (.inl ⟨held.resolve_left there, find?_eq_none_iff.2 there⟩)

/-- **Which modules are closed.** Whatever was asked, the module being built, which is the one that
would be handed over, holds each function that one of its functions calls, with as many parameters
as the call has arguments. What can be missing is a function that a refused definition has taken from
the module and that was not declared since; and the number can be another for an operator's function
if a form was asked for that cannot be read from a source. -/
theorem closedUpTo_after (moduleName : String) (requests : List Request) :
    ((Lowering.empty moduleName).after requests).take.1 =
        ((Lowering.empty moduleName).after requests).builder.module ∧
      ((Lowering.empty moduleName).after requests).builder.module.ClosedUpTo fun callee =>
        callee ∈ (Lowering.empty moduleName).dropped [] requests ∧
            ((Lowering.empty moduleName).after requests).builder.find? callee = none ∨
          OperatorName callee ∧ ∃ request ∈ requests, ¬ request.Regular := by
  have accounted : ((Lowering.empty moduleName).after requests).Accounted
      (∀ request ∈ requests, request.Regular) ((Lowering.empty moduleName).dropped [] requests) :=
    (accounted_empty moduleName).after requests fun request hm hx => hx request hm
  refine ⟨rfl, ?_⟩
  simpa only [not_forall, exists_prop] using accounted.closedUpTo

/-- The function that `declaredCallee` declares is called, and its definition is refused. -/
theorem declaredCallee_open : ¬ Module.ClosedUpTo (fun _ => False)
    ((Lowering.empty "m").after (declaredCallee ++ [.define unboundBody])).builder.module := by
  have calling : (((Lowering.empty "m").after
      (declaredCallee ++ [.define unboundBody])).builder.module.functions.any fun f =>
        f.insts.any fun
          | .call _ callee _ => callee = "g"
          | _ => false) = true := by decide +kernel
  have missing : (((Lowering.empty "m").after
      (declaredCallee ++ [.define unboundBody])).builder.module.functions.any (·.name = "g")) =
        false := by decide +kernel
  intro closed
  obtain ⟨f, hf, hcall⟩ := Array.any_eq_true'.1 calling
  obtain ⟨i, hi, hcall⟩ := List.any_eq_true.1 hcall
  have offered := closed f hf i hi
  cases i with
  | call dst callee args =>
    obtain ⟨g, hg, hn, -⟩ := offered.resolve_right id
    refine absurd (Array.any_eq_false'.1 missing g hg) ?_
    simpa [hn] using hcall
  | _ => cases hcall

end Runs

end Lowering

end Kaleidoscope
