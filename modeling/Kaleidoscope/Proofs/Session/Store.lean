import Kaleidoscope.Proofs.Session.Safety

/-!
# The first definition wins

A session knows its functions in four places: the registry and the names that have bodies, the module
under construction, and the engine. Beside it runs the history of what it has returned as defined,
each name with the function that its definition was lowered to. After every form, whatever became of
it, the places agree with the history (`Session.Stores`): what is defined stays bound to the function
of its first definition, later ones are refused, and of a bare expression nothing is left. Main
statement: `Ran.stores`.
-/

namespace Kaleidoscope

open Ssa Engine

/-- The function that a definition is lowered to. -/
def Lowering.function? (l : Lowering) (d : Definition) : Option Func :=
  match Lower.definition d l with
  | .ok i l => l.builder.func? i
  | .error _ _ => none

/-- The function that the next form is lowered to, if it is a definition. -/
def Session.lowered? (s : Session) : Option Func :=
  match Act.read s with
  | .ok (some (.definition d)) s => s.lowering.function? d
  | _ => none

/-- The names that were returned as defined, the latest first, each with the function that its
definition was lowered to. -/
abbrev History := List (String × Option Func)

/-- The history after the next form was handled. -/
def History.after (history : History) (fuel : Nat) (s : Session) : History :=
  match Act.step fuel s with
  | .ok (some (.definition name)) _ => (name, s.lowered?) :: history
  | _ => history

/-- The session can come about, with this history. -/
inductive Ran : Session → History → Prop
  | start (source : List UInt8) : Ran (.ofBytes source) []
  | source {s : Session} {history : History} (source : List UInt8) :
    Ran s history → Ran (s.setSource source) history
  | log {s : Session} {history : History} (log : String) : Ran s history → Ran { s with log } history
  | step {s : Session} {history : History} (fuel : Nat) :
    Ran s history → Ran (left (Act.step fuel s)) (history.after fuel s)

/-- What is defined is what was returned as defined, each name once, and the engine holds the function
of each. -/
structure Session.Records (s : Session) (history : History) : Prop where
  defined : ∀ name, name ∈ s.lowering.defined ↔ name ∈ history.map Prod.fst
  once : (history.map Prod.fst).Nodup
  bound : ∀ entry ∈ history, ∃ f, entry.2 = some f ∧ s.engine.lookup entry.1 = some f

/-- The places where a session knows its functions agree with its history. -/
structure Session.Stores (s : Session) (history : History) : Prop extends s.Records history where
  /-- The engine has loaded the functions that are defined, and no other ones. -/
  resolved : ∀ name, (s.engine.lookup name).isSome ↔ name ∈ s.lowering.defined
  /-- What is defined is not defined again. -/
  refused : ∀ {fuel d s'}, Act.read s = .ok (some (.definition d)) s' →
    d.proto.name ∈ s.lowering.defined → Act.step fuel s = .error (.redefinition d.proto.name) s'
  /-- No function of the module under construction has a body. -/
  bodiless : ∀ {i f}, s.lowering.builder.func? i = some f → f.isDeclaration
  /-- Of bare expressions nothing is left. -/
  anonymous : anonymousName ∉ s.lowering.defined ∧ s.engine.lookup anonymousName = none

section Forms

variable {s s' : Session} {p : Past} {history : History} {d : Definition} {proto : Prototype}

/-- The record speaks of the names that are defined and of the engine's table only. -/
theorem Session.Records.same (h : s.Records history) (hl : s'.lowering.defined = s.lowering.defined)
    (he : s'.engine.lookup = s.engine.lookup) : s'.Records history where
  defined := hl ▸ h.defined
  once := h.once
  bound := he ▸ h.bound

/-- A definition that is accepted is of a new name, and the engine holds its function from then on. -/
theorem Session.Records.loaded (h : s.Records history) (hs : s.Sound p) {i : FuncId} {l : Lowering}
    (hd : Lower.definition d s.lowering = .ok i l) (log : String) :
    (Session.load { s with lowering := l, log }).2.Records
      ((d.proto.name, s.lowering.function? d) :: history) := by
  have defined := Lower.definition_ok hs.tidy hd
  obtain ⟨f, hf, -, -, symbols, -⟩ := symbols_add (e := s.engine) defined
  have function : s.lowering.function? d = some f.fold := by
    simp only [Lowering.function?, hd, hf]
  have fresh : d.proto.name ∉ history.map Prod.fst := mt (h.defined _).2 defined.fresh
  refine ⟨fun name => ?_, List.nodup_cons.2 ⟨fresh, h.once⟩, fun entry he => ?_⟩
  · show name ∈ l.defined ↔ _
    rw [defined.defined, List.map_cons, List.mem_cons, List.mem_cons, h.defined]
  · show ∃ f, entry.2 = some f ∧ (s.engine.add l.builder.module).2.symbols.get? entry.1 = some f
    rw [symbols, Dict.get?_insert]
    rcases List.mem_cons.1 he with rfl | he
    · exact ⟨f.fold, function, if_pos rfl⟩
    · have hne : entry.1 ≠ d.proto.name := fun e => fresh (e ▸ List.mem_map_of_mem he)
      rw [if_neg hne]
      exact h.bound entry he

/-- A definition that is accepted is recorded with its function, under a name that had none. -/
theorem Session.Records.definition (h : s.Records history) (hs : s.Sound p) :
    (left (Act.definition d s)).Records (match Act.definition d s with
      | .ok _ _ => (d.proto.name, s.lowering.function? d) :: history
      | .error _ _ => history) := by
  cases hd : Lower.definition d s.lowering with
  | ok f l =>
    obtain ⟨log, he⟩ := definition_of_ok hd
    rw [he]
    exact h.loaded hs hd log
  | error e l =>
    rw [definition_of_error hd]
    exact h.same (Lower.definition_error hs.tidy hd).2.2 rfl

/-- A declaration binds no name. -/
theorem Session.Records.declaration (h : s.Records history) (hs : s.Sound p) :
    (left (Act.declaration proto s)).Records history := by
  cases hd : Lower.declaration proto s.lowering with
  | ok f l =>
    obtain ⟨log, he⟩ := declaration_of_ok hd
    rw [he]
    exact h.same (Lower.declaration_ok hs.tidy hd).defined rfl
  | error e l =>
    rw [declaration_of_error hd]
    obtain ⟨rfl, -⟩ := Lower.declaration_error hs.tidy.coherent hd
    exact h

/-- A bare expression that has run was a new name, and is forgotten. -/
theorem Session.Records.ended (h : s.Records history) (hs : s.Sound p) {i : FuncId} {l : Lowering}
    (hd : Lower.definition d s.lowering = .ok i l) (log : String) :
    (s.ended l d.proto.name log).Records history := by
  have defined := Lower.definition_ok hs.tidy hd
  refine h.same ?_ (hs.lookup_ended hd log)
  show l.defined.filter (· ≠ d.proto.name) = _
  rw [defined.defined, List.filter_cons_of_neg (by simp), List.filter_eq_self]
  intro name hm
  simpa using fun e : name = d.proto.name => defined.fresh (e ▸ hm)

/-- The name of the wrapping function is bound while it runs, and not when it has run. -/
theorem Session.Records.expression (h : s.Records history) (hs : s.Sound p) (fuel : Nat) :
    (left (Act.expression fuel d s)).Records history := by
  cases hd : Lower.definition d s.lowering with
  | ok f l =>
    have ended := expression_of_ok fuel hd
    split at ended <;> rw [ended] <;> exact h.ended hs hd _
  | error e l =>
    rw [expression_of_error fuel hd]
    exact h.same (Lower.definition_error hs.tidy hd).2.2 rfl

/-- What is returned of a form tells which form it was. -/
inductive Form.ComesTo : Form → Outcome → Prop
  | separator : ComesTo .separator .skipped
  | definition (d : Definition) : ComesTo (.definition d) (.definition d.proto.name)
  | declaration (proto : Prototype) : ComesTo (.declaration proto) (.declaration proto.name)
  | expression (d : Definition) (x : Float) : ComesTo (.expression d) (.value x)

/-- Each kind of form comes to its own kind of outcome. -/
theorem comesTo_of_form {fuel : Nat} {form : Form} {outcome : Outcome}
    (h : Act.form fuel form s = .ok outcome s') : form.ComesTo outcome := by
  cases form with
  | separator =>
    cases h
    exact .separator
  | definition d =>
    cases hd : Lower.definition d s.lowering with
    | ok f l =>
      obtain ⟨log, he⟩ := definition_of_ok hd
      cases he.symm.trans h
      exact .definition d
    | error e l => cases (definition_of_error hd).symm.trans h
  | declaration proto =>
    cases hd : Lower.declaration proto s.lowering with
    | ok f l =>
      obtain ⟨log, he⟩ := declaration_of_ok hd
      cases he.symm.trans h
      exact .declaration proto
    | error e l => cases (declaration_of_error hd).symm.trans h
  | expression d =>
    cases hd : Lower.definition d s.lowering with
    | ok f l =>
      have ended := expression_of_ok fuel hd
      split at ended <;> cases ended.symm.trans h
      exact .expression d _
    | error e l => cases (expression_of_error fuel hd).symm.trans h

/-- A definition that is accepted is recorded, and any other form leaves the records as they are. -/
theorem Session.Records.form (h : s.Records history) (hs : s.Sound p) (fuel : Nat) (form : Form) :
    (left (Act.form fuel form s)).Records (match form, Act.form fuel form s with
      | .definition d, .ok _ _ => (d.proto.name, s.lowering.function? d) :: history
      | _, _ => history) := by
  cases form with
  | separator => exact h
  | definition d =>
    have after := h.definition (d := d) hs
    simp only [Act.form]
    cases hf : Act.definition d s with
    | ok outcome t =>
      rw [hf] at after
      exact after
    | error e t =>
      rw [hf] at after
      exact after
  | declaration proto => exact h.declaration hs
  | expression d => exact h.expression hs fuel

/-- One form. -/
theorem Session.Records.step (h : s.Records history) (hs : s.Sound p) (fuel : Nat) :
    (left (Act.step fuel s)).Records (history.after fuel s) := by
  have same := read_same s
  unfold History.after Session.lowered?
  cases hr : Act.read s with
  | error e s₁ =>
    rw [hr] at same
    rw [show Act.step fuel s = .error e s₁ from bind_of_error hr _]
    exact h.same (congrArg _ same.1) (congrArg _ same.2)
  | ok form s₁ =>
    rw [hr] at same
    have h₁ : s₁.Records history := h.same (congrArg _ same.1) (congrArg _ same.2)
    have hs₁ : s₁.Sound p := hs.same same.1 same.2
    cases form with
    | none =>
      rw [show Act.step fuel s = .ok none s₁ from bind_of_ok hr _]
      exact h₁
    | some form =>
      have after := h₁.form hs₁ fuel form
      rw [step_of_read hr]
      cases hf : Act.form fuel form s₁ with
      | error e t =>
        rw [hf] at after
        cases form <;> exact after
      | ok outcome t =>
        rw [hf] at after
        cases comesTo_of_form hf <;> exact after

end Forms

section Runs

variable {s s' : Session} {p : Past} {history : History} {d : Definition}

/-- The sessions of a run can come about. -/
theorem Ran.reachable (h : Ran s history) : ∃ p, Reachable s p := by
  induction h with
  | start source => exact ⟨_, .start source⟩
  | source source _ ih => exact ih.imp fun _ => .source source
  | log log _ ih => exact ih.imp fun _ => .log log
  | step fuel _ ih =>
    obtain ⟨p, h⟩ := ih
    exact ⟨_, h.step fuel⟩

/-- Every session that can come about has a history. -/
theorem Reachable.ran (h : Reachable s p) : ∃ history, Ran s history := by
  induction h with
  | start source => exact ⟨_, .start source⟩
  | source source _ ih => exact ih.imp fun _ => .source source
  | log log _ ih => exact ih.imp fun _ => .log log
  | step fuel _ ih =>
    obtain ⟨history, h⟩ := ih
    exact ⟨_, h.step fuel⟩

/-- Whatever forms were handled, the records agree with the history. -/
theorem Ran.records (h : Ran s history) : s.Records history := by
  induction h with
  | start source => exact ⟨fun name => by simp [Session.ofBytes, Lowering.empty], .nil, nofun⟩
  | source source _ ih => exact ih.same rfl rfl
  | log log _ ih => exact ih.same rfl rfl
  | step fuel h ih =>
    obtain ⟨p, reachable⟩ := h.reachable
    exact ih.step reachable.sound fuel

/-- A definition of a name that is defined is refused, and changes nothing. -/
theorem Session.Sound.step_redefinition (h : s.Sound p) {fuel : Nat}
    (hr : Act.read s = .ok (some (.definition d)) s') (hd : d.proto.name ∈ s.lowering.defined) :
    Act.step fuel s = .error (.redefinition d.proto.name) s' := by
  have h' : s'.Sound p := h.read hr
  have hd' : s'.lowering.isDefined d.proto.name = true := by
    rw [h'.tidy.isDefined, (read_ok hr).1]
    exact decide_eq_true hd
  have refused : Lower.definition d s'.lowering =
      .error (.redefinition d.proto.name) s'.lowering := by
    rcases Lower.definition_eq h'.tidy.coherent d with ⟨-, he⟩ | ⟨no, -⟩ | ⟨no, -⟩
    · exact he
    · cases hd'.symm.trans no
    · cases hd'.symm.trans no
  rw [step_of_read hr]
  simp only [Act.form, definition_of_error refused]

/-- **The first definition wins, and nothing else is left.** In a session that has come about in
whatever way, the names that the engine resolves, those that are defined and those that were returned
as defined are the same. Each of them was returned once and is bound to the function that its
definition was lowered to, and a later definition of it is refused. The module under construction has
no function with a body, and the name that wraps bare expressions is neither defined nor resolved. -/
theorem Ran.stores (h : Ran s history) : s.Stores history := by
  obtain ⟨p, reachable⟩ := h.reachable
  have sound := reachable.sound
  have resolved : ∀ name, (s.engine.lookup name).isSome ↔ name ∈ s.lowering.defined := by
    intro name
    have linked := sound.linked name
    rw [sound.defined, Engine.lookup]
    cases hf : s.engine.symbols.get? name <;> cases hd : p.definitions.get? name <;>
      rw [hf, hd] at linked
    · simp
    · cases linked
    · cases linked
    · simp
  have anonymous : anonymousName ∉ s.lowering.defined := by
    intro hm
    obtain ⟨d, hd⟩ := Option.isSome_iff_exists.1 ((sound.defined _).1 hm)
    exact (reachable.consistent.supports.registered hd).1 rfl
  refine ⟨h.records, resolved, sound.step_redefinition, fun hf => ?_, anonymous, ?_⟩
  · obtain ⟨params, he⟩ := sound.tidy.declared hf
    rw [he]
    rfl
  · have := mt (resolved anonymousName).1 anonymous
    simpa using this

/-- A definition, a bare expression, and another definition of the same name. -/
def definedTwice : List UInt8 :=
  "def f(x) x f(1) def f(x) 2".toUTF8.data.toList

/-- The session in which the second definition comes next. -/
def Session.midway : Session :=
  left (Act.step 1 (left (Act.step 0 (.ofBytes definedTwice))))

theorem stores_definedTwice : ∃ history, Ran .midway history ∧ history.map Prod.fst = ["f"] ∧
    Session.Stores .midway history ∧
    ∃ s', Act.step 0 .midway = .error (.redefinition "f") s' := by
  have ran : Ran .midway _ := .step 1 (.step 0 (.start definedTwice))
  have names : (History.after (History.after [] 0 (.ofBytes definedTwice)) 1
      (left (Act.step 0 (.ofBytes definedTwice)))).map Prod.fst = ["f"] := by decide +kernel
  have read : (match Act.read .midway with
      | .ok (some (.definition d)) _ => some d.proto.name
      | _ => none) = some "f" := by decide +kernel
  obtain ⟨d, s', hr, hn⟩ : ∃ d s', Act.read .midway = .ok (some (.definition d)) s' ∧
      d.proto.name = "f" := by
    split at read
    · next d s' hr => exact ⟨d, s', hr, Option.some.inj read⟩
    · cases read
  have stores := ran.stores
  have known : d.proto.name ∈ Session.midway.lowering.defined := by
    rw [stores.defined, names, hn]
    exact List.mem_cons_self
  exact ⟨_, ran, names, stores, s', hn ▸ stores.refused hr known⟩

end Runs

end Kaleidoscope
