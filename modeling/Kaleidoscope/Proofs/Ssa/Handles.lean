import Kaleidoscope.Proofs.Ssa.Operations
import Kaleidoscope.Ssa.Printer

/-!
# How long a handle lasts

A handle is the number of a function in the module. An operation that deletes a function moves those
behind it, so that a handle can come to stand for another function, or for none, though its own
function is still there. `Operation.carry` follows a function over an operation: it says which number
the function has afterwards, if it is still there.

A function that is neither deleted nor handed over keeps its name and its parameters, and its code as
long as nothing is built into it; its old handle stands for it exactly as long as no function before
it is deleted.

Main statement: `Builder.denotes_after`.
-/

namespace Kaleidoscope.Ssa

/-- The number that a function has after an operation, if it is still there. -/
def Operation.carry : Operation → FuncId → Option FuncId
  | .delete g, f => if f.index < g.index then some f else if f = g then none else some ⟨f.index - 1⟩
  | .take, _ => none
  | _, f => some f

/-- The number that a function has after operations, if it is still there. -/
def carryThrough : List Operation → FuncId → Option FuncId
  | [], f => some f
  | op :: ops, f => (op.carry f).bind (carryThrough ops)

/-- One of the operations deletes the function, by the number that it has by then, or hands over the
module. -/
def Removed (ops : List Operation) (f : FuncId) : Prop :=
  ∃ before op behind g, ops = before ++ op :: behind ∧ carryThrough before f = some g ∧
    (op = .delete g ∨ op = .take)

namespace Builder

/-- No operation builds into the function. -/
def Untouched (b : Builder) : List Operation → FuncId → Prop
  | [], _ => True
  | op :: ops, f => b.site op ≠ some f ∧ ∀ g ∈ op.carry f, (b.perform op).Untouched ops g

/-- The handle stands for the function: it is what the function's name is looked up as, and what the
builder tells of it, and does with it, is told of and done with the function. -/
structure Denotes (b : Builder) (f : FuncId) (func : Func) : Prop where
  get : b.func? f = some func
  find : b.find? func.name = some f
  arity : b.arity f = func.arity
  hasBody : b.hasBody f = !func.isDeclaration
  text : (b.func? f).map Func.text = some func.text
  block : ∀ label, (b.appendBlock f label).1 = ⟨f, ⟨func.blocks.size⟩⟩ ∧
    (b.appendBlock f label).2.func? f = some { func with blocks := func.blocks.push { label } }
  call : ∀ args name, b.call f args name = b.define name (.call · func.name args)

end Builder

section Carrying

variable {op : Operation} {ops : List Operation} {f g : FuncId}

theorem carry_delete_of_lt (h : f.index < g.index) : (Operation.delete g).carry f = some f :=
  if_pos h

theorem carry_delete_self (f : FuncId) : (Operation.delete f).carry f = none := by
  simp [Operation.carry]

/-- A function behind the one that is deleted moves down by one. -/
theorem carry_delete_of_gt (h : g.index < f.index) :
    (Operation.delete g).carry f = some ⟨f.index - 1⟩ := by
  have ne : f ≠ g := by
    rintro rfl
    omega
  rw [Operation.carry, if_neg (by omega), if_neg ne]

/-- A function is still there after an operation that neither deletes it nor hands over the
module. -/
theorem carry_eq_none_iff : op.carry f = none ↔ op = .delete f ∨ op = .take := by
  cases op with
  | delete g =>
    rcases Nat.lt_trichotomy f.index g.index with h | h | h
    · rw [carry_delete_of_lt h]
      simp only [reduceCtorEq, Operation.delete.injEq, or_false, false_iff]
      rintro rfl
      omega
    · obtain rfl := FuncId.index_inj.1 h
      simp [carry_delete_self]
    · rw [carry_delete_of_gt h]
      simp only [reduceCtorEq, Operation.delete.injEq, or_false, false_iff]
      rintro rfl
      omega
  | _ => simp [Operation.carry]

/-- Other operations leave the numbers of functions. -/
theorem carry_of_stays (h : op ≠ .take ∧ ∀ g, op ≠ .delete g) : op.carry f = some f := by
  cases op with
  | delete g => exact absurd rfl (h.2 g)
  | take => exact absurd rfl h.1
  | _ => rfl

/-- Building leaves the numbers of functions. -/
theorem carry_of_site {b : Builder} (h : b.site op = some g) : op.carry f = some f := by
  cases op with
  | delete | take => cases h
  | _ => rfl

/-- An operation makes the number of a function less, or leaves it: that is, if it deletes a function,
then a later one. -/
theorem carry_eq_some (h : op.carry f = some g) : g.index ≤ f.index ∧
    (g = f ↔ ∀ i, op = .delete i → f.index < i.index) := by
  cases op with
  | delete i =>
    rcases Nat.lt_trichotomy f.index i.index with hi | hi | hi
    · rw [carry_delete_of_lt hi] at h
      cases h
      simpa using hi
    · obtain rfl := FuncId.index_inj.1 hi
      rw [carry_delete_self] at h
      cases h
    · rw [carry_delete_of_gt hi] at h
      cases h
      rw [← FuncId.index_inj]
      simp only [Operation.delete.injEq, forall_eq']
      omega
  | take => cases h
  | _ =>
    cases h
    simp

/-- A function is still there after operations that do not remove it. -/
theorem carryThrough_eq_none_iff (ops : List Operation) : ∀ {f},
    carryThrough ops f = none ↔ Removed ops f := by
  induction ops with
  | nil => simp [carryThrough, Removed]
  | cons op ops ih =>
    intro f
    constructor
    · intro h
      cases hc : op.carry f with
      | none => exact ⟨[], op, ops, f, rfl, rfl, carry_eq_none_iff.1 hc⟩
      | some g =>
        rw [carryThrough, hc] at h
        obtain ⟨before, op', behind, g', rfl, hg, removes⟩ := ih.1 h
        exact ⟨op :: before, op', behind, g', rfl, by rw [carryThrough, hc]; exact hg, removes⟩
    · rintro ⟨before, op', behind, g, split, hg, removes⟩
      rw [carryThrough]
      cases before with
      | nil =>
        obtain ⟨rfl, -⟩ := List.cons.inj split
        cases hg
        rw [carry_eq_none_iff.2 removes]
        rfl
      | cons _ before =>
        obtain ⟨rfl, rfl⟩ := List.cons.inj split
        rw [carryThrough] at hg
        obtain ⟨f', hf, hg⟩ := Option.bind_eq_some_iff.1 hg
        rw [hf]
        exact ih.2 ⟨before, op', behind, g, rfl, hg, removes⟩

/-- Operations leave the number of a function exactly if each one that deletes a function deletes a
later one. -/
theorem carryThrough_eq_some (ops : List Operation) : ∀ {f g}, carryThrough ops f = some g →
    g.index ≤ f.index ∧ (g = f ↔ ∀ i, .delete i ∈ ops → f.index < i.index) := by
  induction ops with
  | nil =>
    intro f g h
    cases h
    simp
  | cons op ops ih =>
    intro f g h
    rw [carryThrough] at h
    obtain ⟨f', hc, h⟩ := Option.bind_eq_some_iff.1 h
    obtain ⟨le, same⟩ := carry_eq_some hc
    obtain ⟨le', same'⟩ := ih h
    refine ⟨Nat.le_trans le' le, ?_⟩
    simp only [List.mem_cons, or_imp, forall_and]
    constructor
    · rintro rfl
      have eq : f' = g := FuncId.index_inj.1 (Nat.le_antisymm le le')
      subst eq
      exact ⟨fun i hi => same.1 rfl i hi.symm, same'.1 rfl⟩
    · rintro ⟨first, rest⟩
      obtain rfl : f' = f := same.2 fun i hi => first i hi.symm
      exact same'.2 rest

end Carrying

section Following

variable {b b' : Builder} {op : Operation} {f g i : FuncId} {func : Func}

/-- Behind the deleted function each number stands for the next function. -/
theorem func?_delete_eq (hg : g.index < b.module.functions.size) (i : FuncId) :
    (b.delete g).func? i = if i.index < g.index then b.func? i else b.func? ⟨i.index + 1⟩ := by
  simp only [Builder.func?, Builder.delete, Module.get?, Array.eraseIdxIfInBounds_eq, dif_pos hg,
    Array.getElem?_eraseIdx]

theorem delete_of_le (hg : b.module.functions.size ≤ g.index) : b.delete g = b := by
  simp only [Builder.delete, Array.eraseIdxIfInBounds_eq, dif_neg (Nat.not_lt.2 hg)]

/-- A function is found behind a deletion under the number that it has then. -/
theorem func?_delete_of_carry (hf : b.func? f = some func)
    (hc : (Operation.delete g).carry f = some i) : (b.delete g).func? i = some func := by
  rcases Nat.lt_or_ge g.index b.module.functions.size with hg | hg
  · rw [func?_delete_eq hg]
    rcases Nat.lt_trichotomy f.index g.index with h | h | h
    · rw [carry_delete_of_lt h] at hc
      cases hc
      rw [if_pos h, hf]
    · obtain rfl := FuncId.index_inj.1 h
      rw [carry_delete_self] at hc
      cases hc
    · rw [carry_delete_of_gt h] at hc
      cases hc
      have behind : f.index - 1 + 1 = f.index := by omega
      rw [if_neg (by simp only; omega), behind, hf]
  · have before : f.index < g.index := Nat.lt_of_lt_of_le (func?_lt hf) hg
    rw [carry_delete_of_lt before] at hc
    cases hc
    rw [delete_of_le hg, hf]

/-- What is found behind a deletion was there before, and different functions were different. -/
theorem Builder.Distinct.delete (h : b.Distinct) (g : FuncId) : (b.delete g).Distinct := by
  rcases Nat.lt_or_ge g.index b.module.functions.size with hg | hg
  · intro i j f₁ f₂ hi hj he
    rw [func?_delete_eq hg] at hi hj
    have apart : ∀ {m n : Nat}, b.func? ⟨m⟩ = some f₁ → b.func? ⟨n⟩ = some f₂ → m = n :=
      fun hm hn => FuncId.index_inj.2 (h hm hn he)
    rw [← FuncId.index_inj]
    split at hi <;> split at hj
    all_goals
      have same := apart hi hj
      omega
  · rwa [delete_of_le hg]

/-- Which functions are found depends on the functions of the module only. -/
theorem func?_of_functions (functions : b'.module.functions = b.module.functions) (i : FuncId) :
    b'.func? i = b.func? i := by
  simp only [Builder.func?, Module.get?, functions]

theorem func?_push (functions : b'.module.functions = b.module.functions.push func)
    (i : FuncId) : b'.func? i =
      if i.index = b.module.functions.size then some func else b.func? i := by
  simp only [Builder.func?, Module.get?, functions, Array.getElem?_push]

/-- What is there after building was there before, under the same name. -/
theorem Touches.exists (h : Touches f b b') (hi : b'.func? i = some func) :
    ∃ func₀, b.func? i = some func₀ ∧ func₀.name = func.name := by
  obtain ⟨func₀, h₀⟩ := func?_of_lt (h.size ▸ func?_lt hi)
  by_cases he : i = f
  · subst he
    obtain ⟨func₁, h₁, hn, -⟩ := h.self h₀
    obtain rfl := Option.some.inj (hi.symm.trans h₁)
    exact ⟨func₀, h₀, hn.symm⟩
  · exact ⟨func, (h.other he).symm.trans hi, rfl⟩

theorem distinct_empty (moduleName : String) : (Builder.empty moduleName).Distinct := by
  intro i j f g hi
  cases hi

/-- Names stay distinct, whatever a builder is told to do. -/
theorem distinct_perform (h : b.Distinct) (op : Operation) : (b.perform op).Distinct := by
  have effect := effect_perform b op
  generalize b.perform op = b' at effect ⊢
  cases effect with
  -- a name is added only if it is not found, and so is different from all others
  | @declared name params fresh functions =>
    intro i j f₁ f₂ hi hj he
    rw [func?_push functions] at hi hj
    rw [← FuncId.index_inj]
    split at hi <;> split at hj
    · omega
    · cases hi
      exact absurd he.symm (find?_eq_none fresh hj)
    · cases hj
      exact absurd he (find?_eq_none fresh hi)
    · rw [h hi hj he]
  | @deleted g functions =>
    intro i j f₁ f₂ hi hj he
    have same : ∀ k, b'.func? k = (b.delete g).func? k := func?_of_functions functions
    exact h.delete g ((same i).symm.trans hi) ((same j).symm.trans hj) he
  | taken functions =>
    intro i j f₁ f₂ hi
    simp [Builder.func?, Module.get?, functions] at hi
  | built _ touches =>
    intro i j f₁ f₂ hi hj he
    obtain ⟨g₁, h₁, n₁⟩ := touches.exists hi
    obtain ⟨g₂, h₂, n₂⟩ := touches.exists hj
    exact h h₁ h₂ (n₁.trans (he.trans n₂.symm))
  | kept _ functions =>
    have same : ∀ k, b'.func? k = b.func? k := func?_of_functions functions
    intro i j f₁ f₂ hi hj he
    exact h ((same i).symm.trans hi) ((same j).symm.trans hj) he

/-- By induction on the operations, none of which adds a name that the module has. -/
theorem distinct_after (ops : List Operation) : ∀ {b : Builder}, b.Distinct →
    (b.after ops).Distinct := by
  induction ops with
  | nil => exact id
  | cons op ops ih => exact fun h => ih (distinct_perform h op)

/-- A function goes with its number, keeps its name and parameters, and is the same function if
nothing is built into it. -/
theorem func?_perform (hf : b.func? f = some func) (hc : op.carry f = some g) :
    ∃ func', (b.perform op).func? g = some func' ∧ func'.name = func.name ∧
      func'.params = func.params ∧ (b.site op ≠ some f → func' = func) := by
  have effect := effect_perform b op
  generalize b.perform op = b' at effect ⊢
  cases effect with
  | declared fresh functions =>
    cases hc
    refine ⟨func, ?_, rfl, rfl, fun _ => rfl⟩
    rw [func?_push functions, if_neg (Nat.ne_of_lt (func?_lt hf)), hf]
  | @deleted i functions =>
    refine ⟨func, ?_, rfl, rfl, fun _ => rfl⟩
    have same : b'.func? g = (b.delete i).func? g := func?_of_functions functions g
    rw [same, func?_delete_of_carry hf hc]
  | taken => cases hc
  | @built _ i site touches =>
    have stays : op.carry f = some f := carry_of_site site
    obtain rfl := Option.some.inj (hc.symm.trans stays)
    by_cases he : g = i
    · subst he
      obtain ⟨func', h', hn, hp⟩ := touches.self hf
      exact ⟨func', h', hn, hp, fun elsewhere => absurd site elsewhere⟩
    · exact ⟨func, (touches.other he).trans hf, rfl, rfl, fun _ => rfl⟩
  | kept stays functions =>
    have stays : op.carry f = some f := carry_of_stays stays
    obtain rfl := Option.some.inj (hc.symm.trans stays)
    exact ⟨func, (func?_of_functions functions _).trans hf, rfl, rfl, fun _ => rfl⟩

/-- By induction on the operations, with the number that the function has by then. -/
theorem func?_after (ops : List Operation) : ∀ {b : Builder} {f func}, b.func? f = some func →
    carryThrough ops f = some g →
      ∃ func', (b.after ops).func? g = some func' ∧ func'.name = func.name ∧
        func'.params = func.params ∧ (b.Untouched ops f → func' = func) := by
  induction ops with
  | nil =>
    intro b f func hf hc
    cases hc
    exact ⟨func, hf, rfl, rfl, fun _ => rfl⟩
  | cons op ops ih =>
    intro b f func hf hc
    obtain ⟨f₁, h₁, hc⟩ := Option.bind_eq_some_iff.1 hc
    obtain ⟨func₁, hf₁, n₁, p₁, same₁⟩ := func?_perform hf h₁
    obtain ⟨func', h', n', p', same'⟩ := ih hf₁ hc
    refine ⟨func', h', n'.trans n₁, p'.trans p₁, fun untouched => ?_⟩
    obtain ⟨first, rest⟩ := untouched
    exact (same' (rest f₁ h₁)).trans (same₁ first)

/-- Where names are distinct, a handle stands for the function of its number. -/
theorem Builder.Distinct.denotes (h : b.Distinct) (hf : b.func? f = some func) :
    b.Denotes f func where
  get := hf
  find := by
    cases hn : b.find? func.name with
    | none => exact absurd rfl (find?_eq_none hn hf)
    | some i =>
      obtain ⟨func', hi, he⟩ := find?_eq_some hn
      rw [h hi hf he]
  arity := by simp [Builder.arity, hf]
  hasBody := by simp [Builder.hasBody, hf]
  text := by rw [hf, Option.map_some]
  block label := by
    constructor
    · simp [Builder.appendBlock, hf]
    · show (b.modifyFunc f _).func? f = _
      rw [func?_modifyFunc, if_pos rfl, hf]
      rfl
  call args name := by simp only [Builder.call, hf]

end Following

section Handles

variable {f : FuncId} {func : Func}

/-- **How long a handle lasts.** Let a builder that was told to do anything have a function with the
handle, and be told to do more. Unless the function is deleted or its module handed over, some handle
stands for it: a function with the name and the parameters, and with the same code if nothing was
built into it. It is the old handle exactly if no function before it was deleted, and else the old
handle stands for no function of this name. -/
theorem Builder.denotes_after (moduleName : String) (earlier later : List Operation)
    (held : ((Builder.empty moduleName).after earlier).func? f = some func)
    (there : ¬ Removed later f) :
    let b := (Builder.empty moduleName).after earlier
    ∃ g func', carryThrough later f = some g ∧ (b.after later).Denotes g func' ∧
      func'.name = func.name ∧ func'.params = func.params ∧ (b.Untouched later f → func' = func) ∧
      (g = f ↔ ∀ i, .delete i ∈ later → f.index < i.index) ∧
      (g ≠ f → ∀ other, (b.after later).func? f = some other → other.name ≠ func.name) := by
  intro b
  obtain ⟨g, hg⟩ := Option.ne_none_iff_exists'.1 (mt (carryThrough_eq_none_iff later).1 there)
  obtain ⟨func', hf, name, params, same⟩ := func?_after later held hg
  have distinct : (b.after later).Distinct := distinct_after later
    (distinct_after earlier (distinct_empty moduleName))
  refine ⟨g, func', hg, distinct.denotes hf, name, params, same, (carryThrough_eq_some later hg).2,
    fun moved other ho he => moved ?_⟩
  exact distinct hf ho (name.trans he.symm)

/-- Three declarations, one behind the other. -/
def threeDeclared : List Operation :=
  [.declare "a" [], .declare "b" ["x"], .declare "c" ["x", "y"]]

/-- With the first of three functions deleted, its handle stands for the second. -/
theorem denotes_after_threeDeclared :
    ((Builder.empty "three").after threeDeclared).func? ⟨1⟩ = some (.declare "b" ["x"]) ∧
      ∃ func', (((Builder.empty "three").after threeDeclared).after [.delete ⟨0⟩]).Denotes ⟨0⟩ func' ∧
        func'.name = "b" ∧ func'.params = ["x"] := by
  have held : ((Builder.empty "three").after threeDeclared).func? ⟨1⟩ =
      some (.declare "b" ["x"]) := by with_unfolding_all rfl
  have there : ¬ Removed [.delete ⟨0⟩] ⟨1⟩ := by
    rw [← carryThrough_eq_none_iff]
    decide
  obtain ⟨g, func', hg, denotes, name, params, -⟩ :=
    Builder.denotes_after "three" threeDeclared [.delete ⟨0⟩] held there
  obtain rfl : ⟨0⟩ = g := Option.some.inj hg
  exact ⟨held, func', denotes, name, params⟩

/-- **A handle can be led astray.** The handle that was returned for one function stands for another
one, with more parameters, once a function before it is deleted. -/
theorem threeDeclared_astray :
    let b := (Builder.empty "three").after threeDeclared
    b.find? "b" = some ⟨1⟩ ∧ ¬ Removed [.delete ⟨0⟩] ⟨1⟩ ∧
      (b.after [.delete ⟨0⟩]).func? ⟨1⟩ = some (.declare "c" ["x", "y"]) ∧
      (b.after [.delete ⟨0⟩]).find? "b" = some ⟨0⟩ ∧
      b.arity ⟨1⟩ = 1 ∧ (b.after [.delete ⟨0⟩]).arity ⟨1⟩ = 2 := by
  have there : ¬ Removed [.delete ⟨0⟩] ⟨1⟩ := by
    rw [← carryThrough_eq_none_iff]
    decide
  exact ⟨by decide +kernel, there, by with_unfolding_all rfl, by decide +kernel, by decide +kernel,
    by decide +kernel⟩

end Handles

end Kaleidoscope.Ssa
