import Kaleidoscope.Proofs.Reading.Naming
import Kaleidoscope.Proofs.Session.Handling
import Kaleidoscope.Proofs.Session.Safety

/-!
# Made-up names are nobody's own

A session knows functions by name only, and some of the names are made up: those of the functions of
operators, and the one under which a bare expression is loaded, run and unloaded. What it has read and
defined stems from a source (`Reachable.stems`), where made-up names cannot be spelled. So whatever is
registered or loaded under a name is what the name says (`Registry.Regular.resolves`,
`Holds.resolves`), and a bare expression leaves all that is known under other names as it was
(`Session.Sound.sameApart_step`).

Main statement: `names_apart`.
-/

namespace Kaleidoscope

open Ssa Engine

/-- Where code is emitted, the function that is found or declared under the name is for that role.
The module agrees with the registry whenever a name is resolved (`Builder.Agreed.widens`). -/
def Registry.Resolves (registry : Registry) (role : Role) (name : String) : Prop :=
  ∀ st i t, Builder.Agreed registry st.builder → Emit.callee? registry name st = .ok (some i) t →
    ∃ f proto, t.builder.func? i = some f ∧ f.name = name ∧
      registry.get? name = some proto ∧ proto.role = role

/-- What the session has under the name is for that role, where code is emitted and where it runs. -/
structure Session.Resolves (s : Session) (definitions : Dict String Definition) (role : Role)
    (name : String) : Prop where
  emitted : s.lowering.registry.Resolves role name
  loaded : ∀ f, s.engine.lookup name = some f →
    ∃ d, definitions.get? name = some d ∧ Implements f d ∧ d.proto.role = role

/-- The sessions have the same under every name but the one that wraps bare expressions. -/
structure Session.SameApart (s t : Session) : Prop where
  loaded : ∀ name, name ≠ anonymousName → t.engine.lookup name = s.engine.lookup name
  defined : ∀ name, name ≠ anonymousName → (name ∈ t.lowering.defined ↔ name ∈ s.lowering.defined)
  registered : ∀ name, name ≠ anonymousName →
    t.lowering.registry.get? name = s.lowering.registry.get? name

/-- What the session will read and what it has defined is from the source. -/
structure Session.Stems (s : Session) (p : Past) (source : List UInt8) : Prop where
  reader : ∃ qs, s.reader = Read.after qs (.ofBytes source)
  definitions : ∀ name d, p.definitions.get? name = some d →
    d.proto.name = name ∧ (Form.definition d).From source

/-- It does not count what the first session is about to read. -/
theorem Session.SameApart.same_left {s s' t : Session} (h : s'.SameApart t)
    (hl : s'.lowering = s.lowering) (he : s'.engine = s.engine) : s.SameApart t where
  loaded := he ▸ h.loaded
  defined := hl ▸ h.defined
  registered := hl ▸ h.registered

section Stemming

variable {s s' : Session} {p : Past} {source : List UInt8}

theorem form_of_read {x : Option Form} (h : Act.read s = .ok x s') :
    ∃ r, Read.form s.reader = .ok x r := by
  unfold Act.read at h
  split at h
  · next form r hf =>
    cases h
    exact ⟨r, hf⟩
  · cases h

/-- A form that the session reads is from the source. -/
theorem Session.Stems.from_of_read (h : s.Stems p source) {form : Form}
    (hr : Act.read s = .ok (some form) s') : form.From source := by
  obtain ⟨qs, hq⟩ := h.reader
  obtain ⟨r, hf⟩ := form_of_read hr
  rw [hq] at hf
  exact Read.from_of_form hf

/-- A step adds the definition that it has read, or none. -/
theorem Past.definitions_after (p : Past) (s : Session) :
    (p.after s).definitions = p.definitions ∨
      ∃ d s', Act.read s = .ok (some (.definition d)) s' ∧
        (p.after s).definitions = p.definitions.insert d.proto.name d := by
  unfold Past.after
  split
  · next d s' hr =>
    split
    · exact .inr ⟨d, s', hr, rfl⟩
    · exact .inl rfl
  · split <;> exact .inl rfl
  · exact .inl rfl

/-- What a step reads and defines is from the source, so a session stems from it for good. -/
theorem Session.Stems.step (h : s.Stems p source) (fuel : Nat) :
    (left (Act.step fuel s)).Stems (p.after s) source := by
  constructor
  · obtain ⟨qs, hq⟩ := h.reader
    obtain ⟨qs', hq'⟩ := Read.asked_form s.reader
    refine ⟨qs ++ qs', ?_⟩
    rw [reader_step, hq', Read.after_append, hq]
  · intro name d hd
    rcases p.definitions_after s with he | ⟨d', s', hr, he⟩
    · rw [he] at hd
      exact h.definitions name d hd
    · rw [he, Dict.get?_insert] at hd
      split at hd
      · next hn =>
        cases hd
        exact ⟨hn.symm, h.from_of_read hr⟩
      · exact h.definitions name d hd

/-- A session stems from the source that it was started with, and from those that it was moved to
since. -/
theorem Reachable.stems (h : Reachable s p) : ∃ source, s.Stems p source := by
  induction h with
  | start source => exact ⟨source, ⟨[], rfl⟩, nofun⟩
  | source bytes _ ih =>
    obtain ⟨source, ⟨qs, hq⟩, definitions⟩ := ih
    refine ⟨source, ⟨qs ++ [.source bytes], ?_⟩, definitions⟩
    rw [Read.after_append, ← hq]
    rfl
  | log log _ ih => exact ih.imp fun source h => ⟨h.reader, h.definitions⟩
  | step fuel _ ih => exact ih.imp fun source h => h.step fuel

end Stemming

section Resolving

variable {s : Session} {definitions : Dict String Definition} {name : String}

/-- What is registered and defined was read from a source, or wraps a bare expression. -/
structure Session.Named (s : Session) (definitions : Dict String Definition) : Prop where
  registry : s.lowering.registry.Regular
  definitions : ∀ name d, definitions.get? name = some d →
    d.proto.name = name ∧ (d.proto.Regular ∨ name = anonymousName)

/-- All names that a session holds functions by are read from a source, but for the one that wraps a
bare expression. -/
theorem Holds.named (h : Holds s definitions) : s.Named definitions := by
  have resting : ∀ {s p}, Reachable s p → s.Named p.definitions := by
    intro s p h
    refine ⟨h.consistent.regular, fun name d hd => ?_⟩
    obtain ⟨source, stems⟩ := h.stems
    obtain ⟨hn, accepted, -⟩ := stems.definitions name d hd
    exact ⟨hn, .inl (Read.readable_of_accepts accepted).1⟩
  cases h with
  | resting h => exact resting h
  | @running s s₁ s₂ p d f h hr hl =>
    obtain ⟨source, stems⟩ := h.stems
    obtain ⟨body, rfl, -⟩ := stems.from_of_read hr
    obtain ⟨l, hd, rfl⟩ := of_lower_ok hl
    have defined := Lower.definition_ok (h.sound.read hr).tidy hd
    constructor
    · show Registry.Regular l.registry
      rw [defined.registry, (read_ok hr).1]
      exact h.consistent.regular.insert (.inr rfl)
    · intro name d hget
      rw [Dict.get?_insert] at hget
      split at hget
      · next hn =>
        cases hget
        exact ⟨hn.symm, .inr hn⟩
      · exact (resting h).definitions name d hget

/-- In a registry of what was read, a name is resolved to what it says. -/
theorem Registry.Regular.resolves {registry : Registry} (h : registry.Regular)
    (hn : registry.Named) (hne : name ≠ anonymousName) :
    registry.Resolves (.ofName name) name := by
  intro st i t agreed hc
  obtain ⟨f, hf, hname⟩ := Emit.name_of_callee? hn hc
  have registered : ∃ proto, registry.get? name = some proto := by
    rcases Emit.callee?_ok hc with ⟨-, rfl⟩ | ⟨proto, hp, -⟩
    · obtain ⟨proto, hp, -⟩ := agreed.registered hf
      exact ⟨proto, hname ▸ hp⟩
    · exact ⟨proto, hp⟩
  obtain ⟨proto, hp⟩ := registered
  have regular : proto.Regular := (h name proto hp).resolve_right hne
  refine ⟨f, proto, hf, hname, hp, ?_⟩
  rw [regular.role_eq, hn name proto hp]

/-- Whatever is known under a name is what the name says, unless it is the one that wraps bare
expressions. -/
theorem Holds.resolves (h : Holds s definitions) (hne : name ≠ anonymousName) :
    s.Resolves definitions (.ofName name) name := by
  obtain ⟨p, rfl, sound⟩ := h.sound
  have named := h.named
  refine ⟨named.registry.resolves sound.tidy.named hne, fun f hf => ?_⟩
  have linked := sound.linked name
  rw [show s.engine.symbols.get? name = some f from hf] at linked
  cases hd : p.definitions.get? name with
  | none =>
    rw [hd] at linked
    cases linked
  | some d =>
    rw [hd] at linked
    obtain ⟨hn, regular⟩ := named.definitions name d hd
    have implements : Implements f d := by
      cases linked
      assumption
    refine ⟨d, rfl, implements, ?_⟩
    rw [(regular.resolve_right hne).role_eq, hn]

/-- So is it while the body of a definition is emitted, which is registered before. -/
theorem Reachable.resolves_declaration {s' : Session} {p : Past} {proto : Prototype} {i : FuncId}
    {l : Lowering} (h : Reachable s p) (hl : s'.lowering = s.lowering)
    (hp : proto.Regular ∨ proto.name = anonymousName)
    (hd : Lower.declaration proto s'.lowering = .ok i l) (hne : name ≠ anonymousName) :
    l.registry.Resolves (.ofName name) name := by
  rw [hl] at hd
  have declared := Lower.declaration_ok h.sound.tidy hd
  have regular : l.registry.Regular := by
    rw [declared.registry]
    exact h.consistent.regular.insert hp
  exact regular.resolves declared.tidy.named hne

end Resolving

section Wrapping

variable {s s' t : Session} {p : Past} {d : Definition} {i : FuncId} {l : Lowering}

/-- Defining one name leaves the prototypes of others as they were. -/
theorem Lower.Defined.get?_of_ne {l' : Lowering} {name : String} (h : Lower.Defined l d i l')
    (hne : name ≠ d.proto.name) : l'.registry.get? name = l.registry.get? name := by
  rw [h.registry, Dict.get?_insert, if_neg hne]

/-- While a bare expression runs, nothing but it is new. -/
theorem Session.Sound.sameApart_running (h : s.Sound p) (hn : d.proto.name = anonymousName)
    (hd : Lower.definition d s.lowering = .ok i l) : s.SameApart (s.running l i) := by
  have defined := Lower.definition_ok h.tidy hd
  obtain ⟨f, -, -, -, symbols, -⟩ := symbols_add (e := s.engine) defined
  refine ⟨fun name hne => ?_, fun name hne => ?_, fun name hne => ?_⟩
  · show (s.engine.add l.builder.module).2.symbols.get? name = _
    rw [symbols, Dict.get?_insert, hn, if_neg hne]
    rfl
  · show name ∈ l.defined ↔ _
    rw [defined.defined, hn, List.mem_cons]
    simp [hne]
  · exact defined.get?_of_ne (hn ▸ hne)

/-- Once it has run, its module is unloaded and its name forgotten, and nothing else. -/
theorem Session.Sound.sameApart_ended (h : s.Sound p) (hn : d.proto.name = anonymousName)
    (hd : Lower.definition d s.lowering = .ok i l) (log : String) :
    s.SameApart (s.ended l d.proto.name log) := by
  have defined := Lower.definition_ok h.tidy hd
  refine ⟨fun name _ => ?_, fun name hne => ?_, fun name hne => ?_⟩
  · rw [h.lookup_ended hd log]
  · show name ∈ l.defined.filter (· ≠ d.proto.name) ↔ _
    rw [defined.defined, hn]
    simp [hne]
  · exact defined.get?_of_ne (hn ▸ hne)

/-- A bare expression that is handled, whatever becomes of it. -/
theorem Session.Sound.sameApart_expression (h : s.Sound p) (hn : d.proto.name = anonymousName)
    (fuel : Nat) : s.SameApart (left (Act.expression fuel d s)) := by
  cases hd : Lower.definition d s.lowering with
  | ok i l =>
    have ended := expression_of_ok fuel hd
    split at ended <;> rw [ended] <;> exact h.sameApart_ended hn hd _
  | error e l =>
    rw [expression_of_error fuel hd]
    obtain ⟨-, registry, defined⟩ := Lower.definition_error h.tidy hd
    refine ⟨fun name _ => rfl, fun name _ => ?_, fun name _ => ?_⟩
    · show name ∈ l.defined ↔ _
      rw [defined]
    · show l.registry.get? name = _
      rw [registry]

/-- A step that comes to a bare expression. -/
theorem Session.Sound.sameApart_step (h : s.Sound p)
    (hr : Act.read s = .ok (some (.expression d)) s') (hn : d.proto.name = anonymousName)
    (fuel : Nat) : s.SameApart (left (Act.step fuel s)) := by
  obtain ⟨hl, he⟩ := read_ok hr
  rw [left_step_of_read hr]
  exact ((h.read hr).sameApart_expression hn fuel).same_left hl he

end Wrapping

/-- **Made-up names are nobody's own.** Take any source, with those that a reader is moved to later.
Of the prototypes read from it, wherever they stand, those of one name are for the same operator, or
all for none; and neither a prototype nor a parameter has the name that wraps bare expressions. In an
expression read from it no call and no variable has that name. What a call names is no operator's
function, and what an operator stands for is a function of that operator: among the prototypes read
from the source, and in every session, where code is emitted and where it runs.

So in a session that has come about in whatever way, which reads and has defined only what is from a
source, no definition has the name that wraps bare expressions. While such an expression runs, and
once it was unloaded and its name forgotten, all that is known under other names is what it was. -/
theorem names_apart (source : List UInt8) :
    (∀ proto proto', Read.Accepts source proto → Read.Accepts source proto' →
      proto.name = proto'.name → proto.role = proto'.role) ∧
    (∀ proto, Read.Accepts source proto →
      proto.name ≠ anonymousName ∧ anonymousName ∉ proto.params) ∧
    (∀ e, Read.Yields source e →
      e.Spelled (· ≠ anonymousName) Sign ∧ e.Apart (Read.Denotes source) ∧
        ∀ s definitions, Holds s definitions → e.Apart (s.Resolves definitions)) ∧
    ∀ s p, Reachable s p →
      (∃ source', s.Stems p source' ∧
        ∀ form s', Act.read s = .ok (some form) s' → form.From source') ∧
      (∀ name d, p.definitions.get? name = some d → name ≠ anonymousName) ∧
      (∀ d s', Act.read s = .ok (some (.definition d)) s' ∨
          Act.read s = .ok (some (.expression d)) s' →
        ∀ i l, Lower.declaration d.proto s'.lowering = .ok i l →
          d.body.Apart l.registry.Resolves) ∧
      ∀ d s', Act.read s = .ok (some (.expression d)) s' →
        (∀ i l, Lower.definition d s'.lowering = .ok i l → s.SameApart (s'.running l i)) ∧
          ∀ fuel, s.SameApart (left (Act.step fuel s)) := by
  refine ⟨fun proto proto' h h' hn => ?_, fun proto h => ?_, fun e h => ?_, fun s p h => ?_⟩
  · have first := Read.denotes_ofName source proto'.name proto h hn
    have second := Read.denotes_ofName source proto'.name proto' h' rfl
    rw [first, second]
  · obtain ⟨regular, words⟩ := Read.readable_of_accepts h
    exact ⟨regular.name_ne_anonymousName, fun hm => not_word_anonymousName (words _ hm)⟩
  · have spelled := Read.spelled_of_yields h
    exact ⟨spelled.mono (fun _ => Word.ne_anonymousName) (fun _ hs => hs),
      spelled.apart fun name _ => Read.denotes_ofName source name,
      fun s definitions holds => spelled.apart fun name => holds.resolves⟩
  · obtain ⟨source, stems⟩ := h.stems
    refine ⟨⟨source, stems, fun form s' => stems.from_of_read⟩, fun name d hd => ?_,
      fun d s' hr i l hd => ?_, fun d s' hr => ?_⟩
    · obtain ⟨hn, accepted, -⟩ := stems.definitions name d hd
      rw [← hn]
      exact (Read.readable_of_accepts accepted).1.name_ne_anonymousName
    · obtain ⟨regular, spelled⟩ :=
        Form.From.spelled (hr.imp stems.from_of_read stems.from_of_read)
      have same : s'.lowering = s.lowering := by
        rcases hr with hr | hr <;> exact (read_ok hr).1
      exact spelled.apart fun name => h.resolves_declaration same regular hd
    -- a bare expression is loaded under the anonymous name, which nothing else has
    · obtain ⟨body, rfl, -⟩ := stems.from_of_read hr
      obtain ⟨hl, he⟩ := read_ok hr
      exact ⟨fun i l hd => ((h.sound.read hr).sameApart_running rfl hd).same_left hl he,
        h.sound.sameApart_step hr rfl⟩

/-- Two operators of one sign, a function that applies the one, and a bare expression that applies the
other to what the function gives. -/
def exclamations : List UInt8 :=
  "def unary!(a) a def binary!(a b) a def f(x) !x f(1)!2".toUTF8.data.toList

/-- The session in which the bare expression comes next. -/
def Session.exclaiming : Session :=
  left (Act.step 0 (left (Act.step 0 (left (Act.step 0 (.ofBytes exclamations))))))

/-- The definition that wraps the bare expression, if the form is one. -/
def Form.wrapped? : Form → Option Definition
  | .separator => none
  | .definition _ => none
  | .declaration _ => none
  | .expression d => some d

theorem read_exclaiming : ∃ d s', Act.read .exclaiming = .ok (some (.expression d)) s' := by
  have bare : ((given? (Act.read .exclaiming)).join.bind Form.wrapped?).isSome = true := by
    decide +kernel
  obtain ⟨d, hd⟩ := Option.isSome_iff_exists.1 bare
  obtain ⟨form, read, hw⟩ := Option.bind_eq_some_iff.1 hd
  obtain ⟨s', hr⟩ := ok_of_given? (Option.join_eq_some_iff.1 read)
  cases form with
  | expression d' => exact ⟨d', s', hr⟩
  | separator => cases hw
  | definition d' => cases hw
  | declaration proto => cases hw

theorem names_apart_exclamations :
    Read.Accepts exclamations ⟨.unary '!', ["a"]⟩ ∧
    Read.Accepts exclamations ⟨.binary '!' 30, ["a", "b"]⟩ ∧
    unaryName '!' ≠ binaryName '!' ∧
    (∃ d : Definition, d.proto = ⟨.function "f", ["x"]⟩ ∧ Read.Yields exclamations d.body ∧
      d.body.Apart (Read.Denotes exclamations)) ∧
    Session.exclaiming.lowering.defined = ["f", "binary!", "unary!"] ∧
    ∃ d s', Act.read .exclaiming = .ok (some (.expression d)) s' ∧
      ∀ fuel, Session.exclaiming.SameApart (left (Act.step fuel .exclaiming)) := by
  obtain ⟨roles, -, yields, sessions⟩ := names_apart exclamations
  have defined : ∀ qs proto,
      (given? (Read.definition (Read.after qs (.ofBytes exclamations)))).map (·.proto) = some proto →
      Read.Accepts exclamations proto ∧
        ∃ d : Definition, d.proto = proto ∧ Read.Yields exclamations d.body := by
    intro qs proto read
    obtain ⟨d, hd, rfl⟩ := Option.map_eq_some_iff.1 read
    obtain ⟨r, hd⟩ := ok_of_given? hd
    exact ⟨.definition hd, d, rfl, .definition hd⟩
  obtain ⟨unary, -⟩ := defined [] ⟨.unary '!', ["a"]⟩ (by decide +kernel)
  obtain ⟨binary, -⟩ := defined [.definition] ⟨.binary '!' 30, ["a", "b"]⟩ (by decide +kernel)
  obtain ⟨-, d, hd, body⟩ :=
    defined [.definition, .definition] ⟨.function "f", ["x"]⟩ (by decide +kernel)
  have apart : unaryName '!' ≠ binaryName '!' := by
    intro h
    cases roles _ _ unary binary h
  have reachable : Reachable .exclaiming _ := .step 0 (.step 0 (.step 0 (.start exclamations)))
  obtain ⟨-, -, -, wrapped⟩ := sessions _ _ reachable
  obtain ⟨d', s', read⟩ := read_exclaiming
  exact ⟨unary, binary, apart, ⟨d, hd, body, (yields _ body).2.1⟩, by decide +kernel,
    d', s', read, (wrapped d' s' read).2⟩

end Kaleidoscope
