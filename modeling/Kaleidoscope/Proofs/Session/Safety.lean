import Kaleidoscope.Proofs.Lowering.Checking
import Kaleidoscope.Proofs.Session.History

/-!
# Sessions do not go wrong

What a session has accepted is consistent (`Session.Consistent`): the bodies of its definitions only
call what is registered, with the right number of arguments, and a name that is registered was
declared or defined. Every form keeps it so (`Session.Consistent.step`), refused ones and failed ones
too. So the run of a bare expression can fail in two ways only: its calls are nested too deeply, or it
calls a name that was declared and nothing has defined. Main statement: `Reachable.stopped_cases`.
-/

namespace Kaleidoscope

open Ssa Engine

/-- Every definition is registered, and its body only calls what is registered. -/
structure Registry.Supports (registry : Registry) (definitions : Dict String Definition) : Prop where
  registered : ∀ {name d}, definitions.get? name = some d → registry.Knows name d.proto.arity
  body : ∀ {name d}, definitions.get? name = some d → d.body.WellCalled registry.Knows d.proto.params

/-- What is registered fits what was accepted, and the next form will be spelled as forms are. -/
structure Session.Consistent (s : Session) (p : Past) : Prop where
  spelled : Read.Spelled s.reader
  regular : s.lowering.registry.Regular
  known : ∀ {name n}, s.lowering.registry.Knows name n →
    name ∈ p.declared ∨ (p.definitions.get? name).isSome
  supports : s.lowering.registry.Supports p.definitions

/-- The name was declared, and there is no function behind it. -/
def Past.Missing (p : Past) (name : String) : Prop :=
  name ∈ p.declared ∧ p.definitions.get? name = none ∧ Host.ofName? name = none

section Registries

variable {registry : Registry} {definitions : Dict String Definition} {d : Definition}

/-- A prototype that agrees with what is known takes nothing away. -/
theorem Registry.Supports.register (h : registry.Supports definitions) {proto : Prototype}
    (ha : ∀ p, registry.get? proto.name = some p → p.arity = proto.arity) :
    Registry.Supports (registry.insert proto.name proto) definitions where
  registered hd := (h.registered hd).insert ha
  body hd := (h.body hd).mono fun _ _ hk => hk.insert ha

/-- A definition whose body is well called may be added. -/
theorem Registry.Supports.define (h : registry.Supports definitions)
    (hk : registry.Knows d.proto.name d.proto.arity)
    (hb : d.body.WellCalled registry.Knows d.proto.params) :
    registry.Supports (definitions.insert d.proto.name d) := by
  constructor
  · intro name d' hd
    rw [Dict.get?_insert] at hd
    split at hd
    · next he =>
      cases hd
      exact he ▸ hk
    · exact h.registered hd
  · intro name d' hd
    rw [Dict.get?_insert] at hd
    split at hd
    · cases hd
      exact hb
    · exact h.body hd

/-- The bodies of the definitions are well called by what is registered, which is what their
evaluation needs. -/
theorem Registry.Supports.wellDefined (h : registry.Supports definitions) :
    WellDefined registry.Knows definitions where
  body := h.body
  arity hd hk := hk.eq (h.registered hd)

end Registries

section Forms

variable {s s' : Session} {p : Past} {d : Definition} {proto : Prototype}

/-- Consistency speaks of the reader and the registry only. -/
theorem Session.Consistent.same (h : s.Consistent p) (hr : s'.reader = s.reader)
    (hl : s'.lowering.registry = s.lowering.registry) : s'.Consistent p where
  spelled := hr ▸ h.spelled
  regular := hl ▸ h.regular
  known := hl ▸ h.known
  supports := hl ▸ h.supports

/-- What a form that was read looks like, and what reading leaves. -/
theorem Session.Consistent.read (h : s.Consistent p) :
    match Act.read s with
    | .ok form s' => s'.Consistent p ∧ ∀ f ∈ form, f.Regular
    | .error e s' => s'.Consistent p ∧ e.Static := by
  unfold Act.read
  cases hr : Read.form s.reader with
  | ok form reader =>
    obtain ⟨spelled, regular⟩ := Read.reads_form.ok h.spelled hr
    exact ⟨⟨spelled, h.regular, h.known, h.supports⟩, regular⟩
  | error e reader =>
    obtain ⟨spelled, static⟩ := Read.reads_form.error h.spelled hr
    exact ⟨⟨spelled, h.regular, h.known, h.supports⟩, static⟩

/-- A definition that is accepted. -/
theorem Session.Consistent.loaded (h : s.Consistent p) (hs : s.Sound p) {f : FuncId}
    {l : Lowering} (hp : d.proto.Regular) (hb : d.body.Spelled Word Sign)
    (hd : Lower.definition d s.lowering = .ok f l) (log : String) :
    (Session.load { s with lowering := l, log }).2.Consistent
      { p with definitions := p.definitions.insert d.proto.name d } := by
  have defined := Lower.definition_ok hs.tidy hd
  have body := Lower.wellCalled_of_definition hs.tidy h.regular (.inl hp) hb hd
  have self : Registry.Knows l.registry d.proto.name d.proto.arity :=
    defined.registry ▸ Registry.knows_insert_self hp.name_ne_anonymousName
  have supports : Registry.Supports l.registry p.definitions :=
    defined.registry ▸ h.supports.register defined.arity
  refine ⟨h.spelled, defined.registry ▸ h.regular.insert (.inl hp), ?_, supports.define self body⟩
  intro name n hk
  have hk : Registry.Knows l.registry name n := hk
  rw [defined.registry] at hk
  rw [Dict.get?_insert]
  split
  · exact .inr rfl
  · next hne => exact h.known (hk.of_insert.resolve_left hne)

/-- An accepted definition is registered with its body checked, a refused one is not registered. -/
theorem Session.Consistent.definition (h : s.Consistent p) (hs : s.Sound p) (hp : d.proto.Regular)
    (hb : d.body.Spelled Word Sign) :
    (left (Act.definition d s)).Consistent (match Act.definition d s with
      | .ok _ _ => { p with definitions := p.definitions.insert d.proto.name d }
      | .error _ _ => p) := by
  cases hd : Lower.definition d s.lowering with
  | ok f l =>
    obtain ⟨log, he⟩ := definition_of_ok hd
    rw [he]
    exact h.loaded hs hp hb hd log
  | error e l =>
    rw [definition_of_error hd]
    exact h.same rfl (Lower.definition_error hs.tidy hd).2.1

/-- An accepted declaration is registered, and it is recorded as declared. -/
theorem Session.Consistent.declaration (h : s.Consistent p) (hs : s.Sound p) (hp : proto.Regular) :
    (left (Act.declaration proto s)).Consistent (match Act.declaration proto s with
      | .ok _ _ => { p with declared := proto.name :: p.declared }
      | .error _ _ => p) := by
  cases hd : Lower.declaration proto s.lowering with
  | ok f l =>
    obtain ⟨log, he⟩ := declaration_of_ok hd
    have declared := Lower.declaration_ok hs.tidy hd
    rw [he]
    refine ⟨h.spelled, declared.registry ▸ h.regular.insert (.inl hp), ?_,
      declared.registry ▸ h.supports.register declared.arity⟩
    intro name n hk
    have hk : Registry.Knows l.registry name n := hk
    rw [declared.registry] at hk
    rcases hk.of_insert with rfl | hk
    · exact .inl List.mem_cons_self
    · exact (h.known hk).imp_left (List.mem_cons_of_mem _)
  | error e l =>
    rw [declaration_of_error hd]
    obtain ⟨rfl, -⟩ := Lower.declaration_error hs.tidy.coherent hd
    exact h

/-- Whatever is registered for the name that wraps bare expressions does not count. -/
theorem Session.Consistent.wrapped (h : s.Consistent p) (hn : proto.name = anonymousName)
    {s' : Session} (hr : s'.reader = s.reader)
    (ha : ∀ q, s.lowering.registry.get? proto.name = some q → q.arity = proto.arity)
    (hl : s'.lowering.registry = s.lowering.registry.insert proto.name proto) :
    s'.Consistent p := by
  refine ⟨hr ▸ h.spelled, hl ▸ h.regular.insert (.inr hn), ?_, hl ▸ h.supports.register ha⟩
  intro name n hk
  rw [hl] at hk
  rcases hk.of_insert with rfl | hk
  · exact absurd hn hk.1
  · exact h.known hk

/-- The name that wraps bare expressions is none that anything knows. -/
theorem Session.Consistent.expression (h : s.Consistent p) (hs : s.Sound p)
    (hn : d.proto.name = anonymousName) (fuel : Nat) :
    (left (Act.expression fuel d s)).Consistent p := by
  cases hd : Lower.definition d s.lowering with
  | ok f l =>
    have defined := Lower.definition_ok hs.tidy hd
    have ended := expression_of_ok fuel hd
    split at ended <;> rw [ended] <;> exact h.wrapped hn rfl defined.arity defined.registry
  | error e l =>
    rw [expression_of_error fuel hd]
    exact h.same rfl (Lower.definition_error hs.tidy hd).2.1

/-- One form. -/
theorem Session.Consistent.step (h : s.Consistent p) (hs : s.Sound p) (fuel : Nat) :
    (left (Act.step fuel s)).Consistent (p.after s) := by
  have same := read_same s
  have read := h.read
  unfold Act.step Past.after
  cases hr : Act.read s with
  | error e s₁ =>
    rw [hr] at read
    rw [bind_of_error hr]
    exact read.1
  | ok form s₁ =>
    rw [hr] at same read
    rw [bind_of_ok hr]
    obtain ⟨h₁, regular⟩ := read
    have hs₁ : s₁.Sound p := hs.same same.1 same.2
    cases form with
    | none => exact h₁
    | some form =>
      show (left ((Act.form fuel form >>= fun x => pure (some x)) s₁)).Consistent _
      rw [left_bind_pure]
      have regular := regular form rfl
      cases form with
      | separator => exact h₁
      | definition d => exact h₁.definition hs₁ regular.1 regular.2
      | declaration proto => exact h₁.declaration hs₁ regular
      | expression d =>
        obtain ⟨body, rfl, -⟩ := regular
        exact h₁.expression hs₁ rfl fuel

end Forms

/-- What a session has accepted is consistent. -/
theorem Reachable.consistent {s : Session} {p : Past} (h : Reachable s p) : s.Consistent p := by
  induction h with
  | start source =>
    refine ⟨nofun, nofun, fun hk => ?_, ⟨nofun, nofun⟩⟩
    obtain ⟨-, _, hp, -⟩ := hk
    cases hp
  | source source _ ih => exact ⟨nofun, ih.regular, ih.known, ih.supports⟩
  | log log _ ih => exact ih.same rfl rfl
  | step fuel h ih => exact ih.step h.sound fuel

section Runs

variable {s s' : Session} {p : Past} {d : Definition} {body : Expr}

/-- A bare expression that is evaluated stops for reasons that are tolerable. -/
theorem Session.Consistent.safe_value (h : s.Consistent p) (hs : s.Sound p)
    (hb : body.Spelled Word Sign) {f : FuncId} {l : Lowering}
    (hd : Lower.definition (.anonymous body) s.lowering = .ok f l) (fuel : Nat) :
    Safe p.Missing (fun _ => True) (Definition.callWithin
      (p.definitions.insert anonymousName (.anonymous body)) fuel maxDepth anonymousName []) := by
  have defined := Lower.definition_ok hs.tidy hd
  have wellCalled := Lower.wellCalled_of_definition hs.tidy h.regular (.inr rfl) hb hd
  have supports : Registry.Supports l.registry p.definitions :=
    defined.registry ▸ h.supports.register defined.arity
  have consistent := supports.wellDefined.insert wellCalled fun n hk => absurd rfl hk.1
  have missing : ∀ {f n}, Registry.Knows l.registry f n →
      (p.definitions.insert anonymousName (.anonymous body)).get? f = none →
      Host.ofName? f = none → p.Missing f := by
    intro f n hk hget hh
    rw [Dict.get?_insert, if_neg hk.1] at hget
    rw [defined.registry] at hk
    have known := h.known (hk.of_insert.resolve_left hk.1)
    rw [hget] at known
    exact ⟨known.resolve_right (by simp), hget, hh⟩
  have get : (p.definitions.insert anonymousName (.anonymous body)).get? anonymousName =
      some (.anonymous body) := Dict.get?_insert_self _ _ _
  show Safe _ _ (Definition.callWithin _ fuel (maxDepth - 1 + 1) _ _)
  have arity : (Definition.anonymous body).proto.arity = ([] : List Float).length := rfl
  simp only [Definition.callWithin, get, if_pos arity]
  exact consistent.safe_body get (consistent.safe_callWithin missing fuel (maxDepth - 1)) rfl

/-- A bare expression. -/
theorem Session.Consistent.stopped_expression (h : s.Consistent p) (hs : s.Sound p)
    (hb : body.Spelled Word Sign) {fuel : Nat} {cause : Stop}
    (he : Act.expression fuel (.anonymous body) s = .error (.stopped cause) s') :
    cause.Tolerable p.Missing := by
  cases hd : Lower.definition (.anonymous body) s.lowering with
  | error e l =>
    rw [expression_of_error fuel hd] at he
    cases he
    exact absurd rfl (Lower.static_of_definition hs.tidy h.regular (.inr rfl) hb hd cause)
  | ok f l =>
    have ended := expression_of_ok fuel hd
    split at ended <;> rw [ended] at he <;> cases he
    next log hrun =>
    -- the engine has the fault of the evaluation, unless it was cut off before
    have linked : Linked (s.running l f).engine
        (p.definitions.insert anonymousName (.anonymous body)) :=
      (hs.loaded hd s.reader s.log).linked
    have within := (simulates_callWithin linked fuel maxDepth anonymousName []).within fuel
      (Nat.le_refl _) (s.running l f).log
    by_cases hf : cause = .outOfFuel
    · exact .inl hf
    · have hrun : (s.running l f).engine.callWithin fuel maxDepth anonymousName []
          (s.running l f).log = .error cause log := hrun
      rw [hrun] at within
      exact ((h.safe_value hs hb hd fuel).error trivial (within.eq_of_error hf)).2

/-- A declaration or definition is not run, so nothing stops it. -/
theorem Session.Consistent.static_of_definition (h : s.Consistent p) (hs : s.Sound p)
    (hp : d.proto.Regular) (hb : d.body.Spelled Word Sign) {e : Fault}
    (he : Act.definition d s = .error e s') : e.Static := by
  cases hd : Lower.definition d s.lowering with
  | ok f l =>
    obtain ⟨log, hok⟩ := definition_of_ok hd
    rw [hok] at he
    cases he
  | error e' l =>
    rw [definition_of_error hd] at he
    cases he
    exact Lower.static_of_definition hs.tidy h.regular (.inl hp) hb hd

/-- A declaration does not run, and so is not stopped. -/
theorem Session.Sound.static_of_declaration (hs : s.Sound p) {proto : Prototype} {e : Fault}
    (he : Act.declaration proto s = .error e s') : e.Static := by
  cases hd : Lower.declaration proto s.lowering with
  | ok f l =>
    obtain ⟨log, hok⟩ := declaration_of_ok hd
    rw [hok] at he
    cases he
  | error e' l =>
    rw [declaration_of_error hd] at he
    cases he
    exact (Lower.declaration_error hs.tidy.coherent hd).2

/-- What stops a form is tolerable. -/
theorem Session.Consistent.stopped_step (h : s.Consistent p) (hs : s.Sound p) {fuel : Nat}
    {cause : Stop} (he : Act.step fuel s = .error (.stopped cause) s') :
    cause.Tolerable p.Missing := by
  have same := read_same s
  have read := h.read
  unfold Act.step at he
  cases hr : Act.read s with
  | error e s₁ =>
    rw [bind_of_error hr] at he
    cases he
    rw [hr] at read
    exact absurd rfl (read.2 cause)
  | ok form s₁ =>
    rw [hr] at same read
    rw [bind_of_ok hr] at he
    obtain ⟨h₁, regular⟩ := read
    have hs₁ : s₁.Sound p := hs.same same.1 same.2
    cases form with
    | none => cases he
    | some form =>
      have he : (Act.form fuel form >>= fun x => pure (some x)) s₁ = .error (.stopped cause) s' := he
      have he : Act.form fuel form s₁ = .error (.stopped cause) s' := by
        rcases bind_eq_error.1 he with he | ⟨x, s₂, -, he⟩
        · exact he
        · cases he
      have regular := regular form rfl
      cases form with
      | separator => cases he
      | definition d => exact absurd rfl (h₁.static_of_definition hs₁ regular.1 regular.2 he cause)
      | declaration proto => exact absurd rfl (hs₁.static_of_declaration he cause)
      | expression d =>
        obtain ⟨body, rfl, hb⟩ := regular
        exact h₁.stopped_expression hs₁ hb he

/-- **Safety.** In a session that has come about in whatever way, nothing but a bare expression is
stopped, and only because it is still going on when its bound is used up, because its calls are
nested too deeply, or because it calls a name that was declared, that nothing has defined and that is
not the host's. No call has a wrong number of arguments, no join is reached from a block that it does
not list, no block is run to an end that it lacks, and no value, slot or block is out of range. -/
theorem Reachable.stopped_cases (h : Reachable s p) {fuel : Nat} {cause : Stop}
    (he : Act.step fuel s = .error (.stopped cause) s') :
    cause = .outOfFuel ∨ cause = .stackExhausted ∨
      ∃ name, cause = .unresolved name ∧ name ∈ p.declared ∧ p.definitions.get? name = none ∧
        name ≠ "putchard" ∧ name ≠ "printd" := by
  rcases h.consistent.stopped_step h.sound he with hf | hd | ⟨name, hn, declared, undefined, host⟩
  · exact .inl hf
  · exact .inr (.inl hd)
  · refine .inr (.inr ⟨name, hn, declared, undefined, ?_, ?_⟩)
    · rintro rfl
      exact nomatch (Host.ofName?_name .putchard).symm.trans host
    · rintro rfl
      exact nomatch (Host.ofName?_name .printd).symm.trans host

/-- A declared function that nothing defines, and a call of it. -/
def undefinedCall : List UInt8 :=
  "extern g() g()".toUTF8.data.toList

/-- A run that is stopped at a function which was declared and is not defined. -/
theorem stopped_cases_undefinedCall :
    ∃ s', Act.step 1 (left (Act.step 0 (.ofBytes undefinedCall))) =
        .error (.stopped (.unresolved "g")) s' ∧
      "g" ∈ (Past.after {} (.ofBytes undefinedCall)).declared ∧
      (Past.after {} (.ofBytes undefinedCall)).definitions.get? "g" = none := by
  have reachable : Reachable (left (Act.step 0 (.ofBytes undefinedCall)))
      (Past.after {} (.ofBytes undefinedCall)) := .step 0 (.start undefinedCall)
  have stop : (match Act.step 1 (left (Act.step 0 (.ofBytes undefinedCall))) with
      | .error (.stopped cause) _ => some cause
      | _ => none) = some (.unresolved "g") := by decide +kernel
  split at stop <;> cases stop
  next s' he =>
  refine ⟨s', he, ?_⟩
  rcases reachable.stopped_cases he with hf | hd | ⟨name, hn, declared, undefined, -⟩
  · cases hf
  · cases hd
  · cases hn
    exact ⟨declared, undefined⟩

end Runs

end Kaleidoscope
