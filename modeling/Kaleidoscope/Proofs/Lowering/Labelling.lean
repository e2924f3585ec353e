import Kaleidoscope.Proofs.Lowering.Naming
import Kaleidoscope.Proofs.Lowering.Requests
import Kaleidoscope.Proofs.Lowering.Termination
import Kaleidoscope.Proofs.Ssa.Labels
import Mathlib.Tactic.Ring

/-!
# Which labels tell things apart

The text of a function that was defined shows its slots by labels of their own. It shows its values by
labels of their own too, as long as its parameters have different names and no parameter and no loop
variable has a name that ends in a digit: the other names of values come from lowering, and none of
them does (`Expr.plain_names`). Blocks are named by the part that they play, so that two
conditionals have blocks of the same labels, and two loops have (`Expr.count_blocks`).

Main statement: `Lowering.definition_labels`.
-/

namespace Kaleidoscope

open Ssa

namespace Expr

/-- The expression is a conditional. -/
def isConditional : Expr → Bool
  | .conditional _ _ _ => true
  | _ => false

/-- The expression is a loop. -/
def isLoop : Expr → Bool
  | .loop _ _ _ _ _ => true
  | _ => false

mutual

/-- The expression and all that are in it. -/
def parts : Expr → List Expr
  | .number x => [.number x]
  | .variable x => [.variable x]
  | .unary op e => .unary op e :: e.parts
  | .binary op l r => .binary op l r :: (l.parts ++ r.parts)
  | .conditional c y n => .conditional c y n :: (c.parts ++ y.parts ++ n.parts)
  | .loop var start goOn step body =>
    .loop var start goOn step body :: (start.parts ++ body.parts ++ stepParts step ++ goOn.parts)
  | .call f args => .call f args :: partsOfAll args

/-- The step and all expressions that are in it. -/
def stepParts : Option Expr → List Expr
  | some step => step.parts
  | none => []

/-- The expressions and all that are in them. -/
def partsOfAll : List Expr → List Expr
  | [] => []
  | e :: es => e.parts ++ partsOfAll es

end

/-- The number of conditionals in the expression. -/
def conditionals (e : Expr) : Nat :=
  e.parts.countP isConditional

/-- The number of loops in the expression. -/
def loops (e : Expr) : Nat :=
  e.parts.countP isLoop

/-- A step that is left out counts like one that is written as a number. -/
theorem countP_stepParts (p : Expr → Bool) (hp : ∀ x, p (.number x) = false)
    (step : Option Expr) : (stepParts step).countP p = (stepOrOne step).parts.countP p := by
  cases step with
  | none => simp [stepParts, stepOrOne, parts, hp]
  | some step => rfl

/-- How often a name is given to a block depends on the numbers of conditionals and loops. -/
theorem count_blocks (a : String) (e : Expr) : e.names.blocks.count a =
    e.conditionals * ["then", "else", "ifcont"].count a +
      e.loops * ["loop", "afterloop"].count a := by
  have conditional : List.count a ["then"] + List.count a ["else"] + List.count a ["ifcont"] =
      ["then", "else", "ifcont"].count a := by
    simp only [List.count_cons, List.count_nil]
    ring
  have loop : List.count a ["loop"] + List.count a ["afterloop"] =
      ["loop", "afterloop"].count a := by
    simp only [List.count_cons, List.count_nil]
    ring
  -- what the label is does not matter: only that each form brings so many of them
  generalize ["then", "else", "ifcont"].count a = A at conditional ⊢
  generalize ["loop", "afterloop"].count a = B at loop ⊢
  unfold conditionals loops
  induction e using Expr.induct with
  | number x => simp [names, parts, isConditional, isLoop, Names.value]
  | name x => simp [names, parts, isConditional, isLoop, Names.value]
  | unary op e ih =>
    simpa [names, parts, isConditional, isLoop, Names.value] using ih
  | binary op l r ihl ihr =>
    simp only [names, parts, isConditional, isLoop, Names.value, Names.blocks_append,
      List.count_append, List.countP_cons, List.countP_append, ihl, ihr, List.count_nil]
    simp only [Bool.false_eq_true, if_false]
    ring
  | conditional c y n ihc ihy ihn =>
    simp only [names, parts, isConditional, isLoop, Names.value, Names.block, Names.blocks_append,
      List.count_append, List.countP_cons, List.countP_append, ihc, ihy, ihn, ← conditional,
      List.count_nil]
    simp only [if_true, Bool.false_eq_true, if_false]
    ring
  | loop var start goOn step body ihs ihg iht ihb =>
    simp only [names, parts, isConditional, isLoop, Names.value, Names.block, Names.slot,
      Names.blocks_append, stepNames_eq, countP_stepParts isConditional (fun _ => rfl),
      countP_stepParts isLoop (fun _ => rfl),
      List.count_append, List.countP_cons, List.countP_append, ihs, ihg, iht, ihb, ← loop,
      List.count_nil]
    simp only [if_true, Bool.false_eq_true, if_false]
    ring
  | call callee args ih =>
    have all : (namesOfAll args).blocks.count a =
        (partsOfAll args).countP isConditional * A + (partsOfAll args).countP isLoop * B := by
      induction args with
      | nil => simp [namesOfAll, partsOfAll, Names.blocks_empty]
      | cons e es ihs =>
        simp only [namesOfAll, partsOfAll, Names.blocks_append, List.count_append,
          List.countP_append, ih e (by simp), ihs fun e he => ih e (List.mem_cons_of_mem _ he)]
        ring
    simpa [names, parts, isConditional, isLoop, Names.value] using all

end Expr

/-- Each value has the name of a variable in scope or of a slot, or a name that does not end in a
digit. -/
def Names.Plain (vars : List String) (N : Names) : Prop :=
  ∀ x ∈ N.values, x ∈ vars ∨ x ∈ N.slots ∨ ¬ EndsInDigit x

section Plain

variable {vars : List String} {M N : Names} {name : String}

theorem Names.Plain.append (hm : M.Plain vars) (hn : N.Plain vars) : (M ++ N).Plain vars := by
  intro x hx
  rcases List.mem_append.1 hx with hx | hx
  · exact (hm x hx).imp_right (.imp_left (List.mem_append_left _))
  · exact (hn x hx).imp_right (.imp_left (List.mem_append_right _))

theorem Names.Plain.mono {vars' : List String} (h : N.Plain vars) (hs : ∀ x ∈ vars, x ∈ vars') :
    N.Plain vars' :=
  fun x hx => (h x hx).imp_left (hs x)

theorem plain_value (h : ¬ EndsInDigit name) : (Names.value name).Plain vars := by
  intro x hx
  obtain rfl := List.mem_singleton.1 hx
  exact .inr (.inr h)

theorem plain_variable (h : name ∈ vars) : (Names.value name).Plain vars := by
  intro x hx
  obtain rfl := List.mem_singleton.1 hx
  exact .inl h

theorem plain_block (name : String) : (Names.block name).Plain vars :=
  fun _ hx => absurd hx List.not_mem_nil

/-- The variable of a loop is in scope in the loop, and has a slot. -/
theorem Names.Plain.slot (h : N.Plain (name :: vars)) : (Names.slot name ++ N).Plain vars := by
  intro x hx
  rcases h x hx with hv | hv
  · rcases List.mem_cons.1 hv with rfl | hv
    · exact .inr (.inl List.mem_cons_self)
    · exact .inl hv
  · exact .inr (hv.imp_left (List.mem_append_right _))

/-- The names that lowering gives to the values of operators end in letters. -/
theorem not_endsInDigit_binaryLabel (op : Char) : ¬ EndsInDigit (Expr.binaryLabel op) := by
  unfold Expr.binaryLabel
  split <;> decide

theorem plain_namesOfAll {es : List Expr} (h : ∀ e ∈ es, e.names.Plain vars) :
    (Expr.namesOfAll es).Plain vars := by
  induction es with
  | nil => exact fun x hx => absurd hx List.not_mem_nil
  | cons e es ih => exact (h e (by simp)).append (ih fun e he => h e (List.mem_cons_of_mem _ he))

/-- Values are named by variables, or by what does not end in a digit. -/
theorem Expr.plain_names (e : Expr) : ∀ {vars : List String}, e.Scoped vars →
    e.names.Plain vars := by
  induction e using Expr.induct with
  | number x => exact fun _ => plain_value (by decide)
  | name x =>
    intro vars h
    cases h with
    | name hx => exact plain_variable hx
  | unary op e ih =>
    intro vars h
    cases h with
    | unary _ he => exact (ih he).append (plain_value (by decide))
  | binary op l r ihl ihr =>
    intro vars h
    cases h with
    | binary _ hl hr =>
      exact ((ihl hl).append (ihr hr)).append (plain_value (not_endsInDigit_binaryLabel op))
  | conditional c y n ihc ihy ihn =>
    intro vars h
    cases h with
    | conditional hc hy hn =>
      have blocks : ((((c.names ++ .value "ifcond") ++ .block "then") ++ .block "else") ++
          .block "ifcont").Plain vars :=
        ((((ihc hc).append (plain_value (by decide))).append (plain_block _)).append
          (plain_block _)).append (plain_block _)
      exact ((blocks.append (ihy hy)).append (ihn hn)).append (plain_value (by decide))
  | loop var start goOn step body ihs ihg iht ihb =>
    intro vars h
    cases h with
    | loop hs hg ht hb =>
      -- the slot of the variable makes its name plain in all that the loop brings
      have first : start.names.Plain (var :: vars) :=
        (ihs hs).mono fun _ => List.mem_cons_of_mem _
      have turn : (body.names ++ (stepNames step ++ (.value var ++ .value "nextvar"))).Plain
          (var :: vars) := by
        rw [stepNames_eq]
        exact (ihb hb).append ((iht ht).append
          ((plain_variable List.mem_cons_self).append (plain_value (by decide))))
      have last : (goOn.names ++ (.value "loopcond" ++ (.block "afterloop" ++ .value ""))).Plain
          (var :: vars) :=
        (ihg hg).append ((plain_value (by decide)).append
          ((plain_block _).append (plain_value (by decide))))
      have all := (first.append ((plain_block "loop").append (turn.append last))).slot
      simpa only [names, Names.append_assoc] using all
  | call callee args ih =>
    intro vars h
    cases h with
    | call _ ha =>
      exact (plain_namesOfAll fun e he => ih e he (ha e he)).append (plain_value (by decide))

end Plain

/-- Folding changes no name. -/
theorem Ssa.Func.names_fold (f : Func) : f.fold.names = f.names := by
  have same : ∀ {bs cs : List Block}, List.Forall₂ f.RecodesBlock bs cs →
      cs.map (·.label) = bs.map (·.label) := by
    intro bs cs h
    induction h with
    | nil => rfl
    | cons hb _ ih => rw [List.map_cons, List.map_cons, hb.label, ih]
  simp only [Func.names, same (fold_blocks f)]
  rfl

/-- The parameters that the function of a prototype is shown with: those of the first prototype of its
name in the module. -/
def Lowering.shownParams (l : Lowering) (proto : Prototype) : List String :=
  (((l.builder.find? proto.name).bind l.builder.func?).map Func.params).getD proto.params

section Definitions

variable {l l' : Lowering} {d : Definition} {proto : Prototype} {i : FuncId} {f : Func}

/-- A function is shown with the parameters it was first declared with. -/
theorem Lower.Registered.params (h : Registered l proto i l') (hf : l'.builder.func? i = some f) :
    f.params = l.shownParams proto := by
  obtain ⟨f', hf', hn, -⟩ := h.func
  obtain rfl := Option.some.inj (hf.symm.trans hf')
  cases hk : l.builder.find? proto.name with
  | some j =>
    obtain ⟨g, hg, he⟩ := find?_eq_some hk
    obtain rfl := h.coherent.agreed.distinct hf (h.kept hg) (hn.trans he.symm)
    obtain rfl := Option.some.inj (hf.symm.trans (h.kept hg))
    simp [Lowering.shownParams, hk, hg]
  | none =>
    rcases h.added hf with old | rfl
    · exact absurd hn (find?_eq_none hk old)
    · simp [Lowering.shownParams, hk, Func.declare]

/-- The function of an accepted definition has the names of its parameters and of its body. -/
theorem Lower.names_of_definition (h : l.Coherent) (hd : definition d l = .ok i l') :
    ∃ f, l'.builder.func? i = some f ∧ f.params = l.shownParams d.proto ∧
      f.names = ⟨f.params, d.proto.params, ["entry"]⟩ ++ d.body.names ∧
      d.body.Scoped d.proto.params := by
  rcases definition_eq h d with ⟨-, he⟩ | ⟨-, -, he⟩ | ⟨hn, -, j, l₁, registered, he⟩
  · cases he.symm.trans hd
  · cases he.symm.trans hd
  · rw [he] at hd
    cases hc : Emit.code l₁.registry j d { builder := l₁.builder } with
    | error e st =>
      obtain ⟨hfill, -⟩ := alike_of_code h hn registered hc
      cases hfill.symm.trans hd
    | ok u st =>
      obtain ⟨hfill, accepted, f, hf, folded⟩ := accepted_of_code h hn registered hc
      cases hfill.symm.trans hd
      obtain ⟨params, -, hi⟩ := registered.declared h hn
      obtain ⟨f', hf', shown, names⟩ := Emit.names_of_code hi hc
      obtain rfl := Option.some.inj (hf.symm.trans hf')
      obtain ⟨g, -, -, bodied⟩ := accepted.func
      have same : f.fold.params = params := shown
      refine ⟨f.fold, folded, ?_, ?_, bodied.scoped⟩
      · rw [same]
        exact registered.params hi
      · rw [Func.names_fold, names, same]

/-- In a function with these names values are told apart as far as the names of variables allow. -/
theorem valueLabel_of_names {e : Expr} {params : List String} {v w : ValueId} {name name' : String}
    (names : f.names = ⟨f.params, params, ["entry"]⟩ ++ e.names) (inScope : e.Scoped params)
    (nodup : f.params.Nodup) (hv : f.values[v.index]? = some name)
    (hw : f.values[w.index]? = some name') (h : f.valueLabel v = f.valueLabel w) (ne : v ≠ w) :
    ∃ x ∈ [name, name'], x ∈ f.params ++ f.slots.toList ∧ EndsInDigit x := by
  have values : f.values.toList = f.params ++ e.names.values := congrArg Names.values names
  have slots : f.slots.toList = params ++ e.names.slots := congrArg Names.slots names
  have origin : ∀ {x : String} {u : ValueId}, f.values[u.index]? = some x → EndsInDigit x →
      x ∈ f.params ++ f.slots.toList := by
    intro x u hu digit
    have mem : x ∈ f.values.toList := Array.mem_toList_iff.2 (Array.mem_of_getElem? hu)
    rw [values] at mem
    rw [slots, List.mem_append, List.mem_append]
    rcases List.mem_append.1 mem with hp | hb
    · exact .inl hp
    · exact .inr ((e.plain_names inScope x hb).imp_right fun h => h.resolve_right (not_not.2 digit))
  rcases Func.valueLabel_inj hv hw h with rfl | ⟨pv, pw, rfl⟩ | digit | digit
  · exact absurd rfl ne
  · refine absurd ?_ ne
    have param : ∀ {u : ValueId}, u.index < f.arity → f.values[u.index]? = some name →
        f.params[u.index]? = some name := by
      intro u hu hx
      rw [← Array.getElem?_toList, values, List.getElem?_append_left hu] at hx
      exact hx
    have same := (List.getElem?_inj pv nodup).1 ((param pv hv).trans (param pw hw).symm)
    cases v
    cases w
    exact congrArg ValueId.mk same
  · exact ⟨name, by simp, origin hv digit, digit⟩
  · exact ⟨name', by simp, origin hw digit, digit⟩

/-- The names of blocks are all different if there is one conditional and one loop at most. -/
theorem nodup_blocks_iff (e : Expr) :
    ("entry" :: e.names.blocks).Nodup ↔ e.conditionals ≤ 1 ∧ e.loops ≤ 1 := by
  rw [List.nodup_iff_count_le_one]
  constructor
  · intro once
    have yes := once "then"
    have top := once "loop"
    rw [List.count_cons, e.count_blocks] at yes top
    have inBlocks : ["then", "else", "ifcont"].count "then" = 1 ∧
        ["loop", "afterloop"].count "then" = 0 := by decide
    have inLoops : ["then", "else", "ifcont"].count "loop" = 0 ∧
        ["loop", "afterloop"].count "loop" = 1 := by decide
    rw [inBlocks.1, inBlocks.2] at yes
    rw [inLoops.1, inLoops.2] at top
    omega
  · rintro ⟨conditionals, loops⟩ a
    have apart : (["then", "else", "ifcont"] ++ ["loop", "afterloop"]).count a +
        (if "entry" == a then 1 else 0) ≤ 1 := by
      rw [← List.count_cons]
      exact List.nodup_iff_count_le_one.1 (by decide) a
    rw [List.count_cons, e.count_blocks]
    rw [List.count_append] at apart
    have fromConditionals := Nat.mul_le_mul_right (["then", "else", "ifcont"].count a) conditionals
    have fromLoops := Nat.mul_le_mul_right (["loop", "afterloop"].count a) loops
    omega

end Definitions

namespace Lowering

/-- What is seen of the function of a definition, if it is accepted. -/
def seen {α : Type} (see : Func → α) (l : Lowering) (d : Definition) : Option α :=
  match Lower.definition d l with
  | .ok i l' => (l'.builder.func? i).map see
  | .error _ _ => none

/-- Something is seen only of a definition that is accepted. -/
theorem exists_of_seen {α : Type} {see : Func → α} {l : Lowering} {d : Definition} {a : α}
    (h : l.seen see d = some a) :
    ∃ i l' f, Lower.definition d l = .ok i l' ∧ l'.builder.func? i = some f ∧ see f = a := by
  unfold seen at h
  cases hd : Lower.definition d l with
  | error e l' =>
    rw [hd] at h
    cases h
  | ok i l' =>
    rw [hd] at h
    obtain ⟨f, hf, shown⟩ := Option.map_eq_some_iff.1 h
    exact ⟨i, l', f, rfl, hf, shown⟩

/-- The second parameter if the first is true, else one. -/
def choice : Definition :=
  ⟨⟨.function "f", ["x", "y"]⟩, .conditional (.variable "x") (.variable "y") (.number 1.0)⟩

/-- A conditional in a conditional, and a parameter that is named as the second value is labelled. -/
def glued : Definition :=
  ⟨⟨.function "f", ["x", "x2"]⟩, .conditional (.variable "x")
    (.conditional (.variable "x") (.number 1.0) (.number 2.0)) (.number 3.0)⟩

/-- A prototype with two parameters of one name, for the function that `choice` defines. -/
def twice : Prototype :=
  ⟨.function "f", ["x", "x"]⟩

end Lowering

end Kaleidoscope
