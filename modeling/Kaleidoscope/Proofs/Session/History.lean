import Kaleidoscope.Proofs.Lowering.Defining
import Kaleidoscope.Proofs.Lowering.Linking
import Kaleidoscope.CommandLine.Run
import Kaleidoscope.Directory

/-!
# Sessions and what they have defined

A session goes from form to form, and now and then to another source. What it has accepted so far is
recorded beside it (`Past`): the definitions by name, and the names that were declared. Whatever the
forms, the engine is linked to the recorded definitions (`Reachable.sound`), and between two forms
the module under construction holds declarations only. A run of the program, with the files that it
includes, goes through such sessions only (`Reachable.runWithin`, `reachable_includes`). In a
directory it goes through the contents of the files that it is told to include
(`runSession_directory`).
-/

namespace Kaleidoscope

open Ssa Engine

/-- What a session has accepted so far. -/
structure Past where
  definitions : Dict String Definition := ∅
  declared : List String := []

/-- What is accepted after the next form was handled: its definition or declaration, unless it
failed. -/
def Past.after (p : Past) (s : Session) : Past :=
  match Act.read s with
  | .ok (some (.definition d)) s =>
    match Act.definition d s with
    | .ok _ _ => { p with definitions := p.definitions.insert d.proto.name d }
    | .error _ _ => p
  | .ok (some (.declaration proto)) s =>
    match Act.declaration proto s with
    | .ok _ _ => { p with declared := proto.name :: p.declared }
    | .error _ _ => p
  | _ => p

/-- The session can come about, and has accepted this. -/
inductive Reachable : Session → Past → Prop
  | start (source : List UInt8) : Reachable (.ofBytes source) {}
  | source {s : Session} {p : Past} (source : List UInt8) :
    Reachable s p → Reachable (s.setSource source) p
  | log {s : Session} {p : Past} (log : String) : Reachable s p → Reachable { s with log } p
  | step {s : Session} {p : Past} (fuel : Nat) :
    Reachable s p → Reachable (left (Act.step fuel s)) (p.after s)

/-- The session holds functions by these definitions: those accepted so far, and while a bare
expression runs the function that wraps it. -/
inductive Holds : Session → Dict String Definition → Prop
  | resting {s : Session} {p : Past} : Reachable s p → Holds s p.definitions
  | running {s s₁ s₂ : Session} {p : Past} {d : Definition} {f : FuncId} :
    Reachable s p → Act.read s = .ok (some (.expression d)) s₁ →
    Act.lower (Lower.definition d) s₁ = .ok f s₂ →
    Holds s₂.load.2 (p.definitions.insert d.proto.name d)

/-- What holds between two forms. -/
structure Session.Sound (s : Session) (p : Past) : Prop where
  tidy : s.lowering.Tidy
  linked : Linked s.engine p.definitions
  defined : ∀ name, name ∈ s.lowering.defined ↔ (p.definitions.get? name).isSome

section Loading

variable {e : Engine} {definitions : Dict String Definition} {m : Module} {d : Definition}

theorem isDeclaration_of_check {f : Func} (h : f.check = .ok ()) : f.isDeclaration = false := by
  have hd := Func.defect_of_check h
  unfold Func.defect at hd
  split at hd
  · cases hd
  · next hn => simpa using hn

/-- Where one element alone passes a test, it is all that is kept. -/
theorem filter_eq_singleton {α : Type} {keep : α → Bool} {x : α} {l : List α} :
    ∀ {n : Nat}, l[n]? = some x → keep x → (∀ k y, k ≠ n → l[k]? = some y → keep y = false) →
      l.filter keep = [x] := by
  induction l with
  | nil =>
    intro n hx
    simp at hx
  | cons a l ih =>
    intro n hx hk others
    cases n with
    | zero =>
      cases hx
      have : l.filter keep = [] := by
        apply List.filter_eq_nil_iff.2
        intro y hy
        obtain ⟨k, hlt, rfl⟩ := List.mem_iff_getElem.1 hy
        simpa using others (k + 1) _ (by omega) (by simp [hlt])
      rw [List.filter_cons_of_pos hk, this]
    | succ n =>
      have ha := others 0 a (by omega) rfl
      rw [List.filter_cons_of_neg (by simp [ha])]
      exact ih hx hk fun k y hne hy => others (k + 1) y (by omega) (by simpa using hy)

/-- Loading a module with one body makes its function known, and unloading it forgets it again. -/
theorem symbols_add {l l' : Lowering} {i : FuncId} (hd : Lower.Defined l d i l') :
    ∃ f : Func, l'.builder.func? i = some f.fold ∧ f.check = .ok () ∧ Bodied f d ∧
      (e.add l'.builder.module).2.symbols = e.symbols.insert d.proto.name f.fold ∧
      ((e.add l'.builder.module).2.remove (e.add l'.builder.module).1).symbols =
        (e.symbols.insert d.proto.name f.fold).erase d.proto.name := by
  obtain ⟨f, hf, hc, hb, hn⟩ := hd.func
  have loaded : l'.builder.module.functions.toList.filter (!·.isDeclaration) = [f.fold] := by
    refine filter_eq_singleton (n := i.index) ?_ ?_ fun k g hk hg => ?_
    · rw [Array.getElem?_toList]
      exact hf
    · rw [isDeclaration_fold, isDeclaration_of_check hc]
      rfl
    · rw [Array.getElem?_toList] at hg
      have := hd.others (j := ⟨k⟩) (fun he => hk (congrArg FuncId.index he)) hg
      simp [this]
  have name : f.fold.name = d.proto.name := hn
  refine ⟨f, hf, hc, hb, ?_, ?_⟩
  · simp only [Engine.add, loaded, List.foldl_cons, List.foldl_nil, name]
  · simp only [Engine.remove, Engine.add, loaded, Dict.get?_insert_self, List.foldl_cons,
      List.foldl_nil, List.map_cons, List.map_nil, name]

/-- So the engine stays linked to the definitions. -/
theorem linked_add {l l' : Lowering} {i : FuncId} (h : Linked e definitions)
    (hd : Lower.Defined l d i l') :
    Linked (e.add l'.builder.module).2 (definitions.insert d.proto.name d) ∧
      (definitions.get? d.proto.name = none →
        Linked ((e.add l'.builder.module).2.remove (e.add l'.builder.module).1) definitions) := by
  obtain ⟨f, -, hc, hb, symbols, removed⟩ := symbols_add (e := e) hd
  constructor
  · intro n
    rw [symbols, Dict.get?_insert, Dict.get?_insert]
    split
    · exact .some ⟨f, rfl, hc, hb⟩
    · exact h n
  · intro hnone n
    rw [removed, Dict.get?_erase, Dict.get?_insert]
    split
    · next he =>
      rw [he, hnone]
      exact .none
    · exact h n

end Loading

section Forms

variable {s : Session} {p : Past} {d : Definition} {proto : Prototype}

/-- Once the module is handed over, the next one is empty. -/
theorem tidy_take {l l' : Lowering} {i : FuncId} (h : l.Tidy) (hd : Lower.Defined l d i l') :
    l'.take.2.Tidy where
  named := by
    show Registry.Named l'.registry
    rw [hd.registry]
    exact h.named.insert d.proto
  agreed := agreed_empty l'.builder.module.name
  declared h := by
    simp [Lowering.take, Builder.take, func?_empty] at h

theorem lower_ok {α : Type} {action : Lower α} {a : α} {l : Lowering}
    (h : action s.lowering = .ok a l) : Act.lower action s = .ok a { s with lowering := l } := by
  simp only [Act.lower, h]

theorem lower_error {α : Type} {action : Lower α} {e : Fault} {l : Lowering}
    (h : action s.lowering = .error e l) :
    Act.lower action s = .error e { s with lowering := l } := by
  simp only [Act.lower, h]

/-- Lowering changes nothing else in the session. -/
theorem of_lower_ok {α : Type} {action : Lower α} {a : α} {s' : Session}
    (h : Act.lower action s = .ok a s') :
    ∃ l, action s.lowering = .ok a l ∧ s' = { s with lowering := l } := by
  cases hl : action s.lowering with
  | ok b l =>
    rw [lower_ok hl] at h
    cases h
    exact ⟨l, rfl, rfl⟩
  | error e l =>
    rw [lower_error hl] at h
    cases h

/-- A definition that is accepted is shown, and its module is loaded. -/
theorem definition_of_ok {f : FuncId} {l : Lowering} (h : Lower.definition d s.lowering = .ok f l) :
    ∃ log, Act.definition d s = .ok (.definition d.proto.name)
      ({ s with lowering := l, log } : Session).load.2 := by
  unfold Act.definition
  rw [bind_of_ok (lower_ok h)]
  exact ⟨_, rfl⟩

/-- A definition that is refused loads nothing. -/
theorem definition_of_error {e : Fault} {l : Lowering}
    (h : Lower.definition d s.lowering = .error e l) :
    Act.definition d s = .error e { s with lowering := l } := by
  unfold Act.definition
  rw [bind_of_error (lower_error h)]

theorem declaration_of_ok {f : FuncId} {l : Lowering}
    (h : Lower.declaration proto s.lowering = .ok f l) :
    ∃ log, Act.declaration proto s = .ok (.declaration proto.name) { s with lowering := l, log } := by
  unfold Act.declaration
  rw [bind_of_ok (lower_ok h)]
  exact ⟨_, rfl⟩

theorem declaration_of_error {e : Fault} {l : Lowering}
    (h : Lower.declaration proto s.lowering = .error e l) :
    Act.declaration proto s = .error e { s with lowering := l } := by
  unfold Act.declaration
  rw [bind_of_error (lower_error h)]

/-- The session in which a bare expression runs. -/
def Session.running (s : Session) (l : Lowering) (f : FuncId) : Session :=
  (left (Act.dump "Read top-level expression:" f { s with lowering := l })).load.2

/-- The session after a bare expression has run: its module is unloaded and its name forgotten. -/
def Session.ended (s : Session) (l : Lowering) (name log : String) : Session :=
  { s with
    lowering := l.take.2.forget name
    engine := (s.engine.add l.builder.module).2.remove (s.engine.add l.builder.module).1
    log }

/-- A bare expression that is refused does not run. -/
theorem expression_of_error {e : Fault} {l : Lowering} (fuel : Nat)
    (h : Lower.definition d s.lowering = .error e l) :
    Act.expression fuel d s = .error e { s with lowering := l } := by
  unfold Act.expression
  rw [bind_of_error (lower_error h)]

/-- A bare expression that could be lowered has the value or the fault of its run. -/
theorem expression_of_ok {f : FuncId} {l : Lowering} (fuel : Nat)
    (h : Lower.definition d s.lowering = .ok f l) :
    match (s.running l f).engine.run fuel d.proto.name [] (s.running l f).log with
    | .ok x log => Act.expression fuel d s = .ok (.value x)
        (s.ended l d.proto.name (log ++ s!"Evaluated to {Decimal.fixed 6 x}\n"))
    | .error stop log => Act.expression fuel d s = .error (.stopped stop)
        (s.ended l d.proto.name log) := by
  let unload : Act Unit := modify fun s' => { s' with
    engine := s'.engine.remove (s.engine.add l.builder.module).1
    lowering := s'.lowering.forget d.proto.name }
  -- the run is in the middle: what it does is caught, so that it is unloaded either way
  have shape : Act.expression fuel d s =
      (tryCatch (Act.run fuel d.proto.name []) (fun fault => do unload; throw fault) >>= fun x => do
        unload
        modify (·.write s!"Evaluated to {Decimal.fixed 6 x}\n")
        return .value x) (s.running l f) := by
    unfold Act.expression
    rw [bind_of_ok (lower_ok h)]
    rfl
  rw [shape]
  cases hr : (s.running l f).engine.run fuel d.proto.name [] (s.running l f).log with
  | ok x log =>
    have run : Act.run fuel d.proto.name [] (s.running l f) = .ok x { s.running l f with log } := by
      simp only [Act.run, hr]
    rw [bind_of_ok (tryCatch_of_ok run _)]
    rfl
  | error stop log =>
    have run : Act.run fuel d.proto.name [] (s.running l f) =
        .error (.stopped stop) { s.running l f with log } := by
      simp only [Act.run, hr]
    rw [bind_of_error (e := .stopped stop) (t := s.ended l d.proto.name log)]
    rw [tryCatch_of_error run]
    rfl

end Forms

section Steps

variable {s s' : Session} {p : Past} {d : Definition} {proto : Prototype}

/-- Reading changes neither the module under construction nor the engine. -/
theorem read_same (s : Session) : (left (Act.read s)).lowering = s.lowering ∧
    (left (Act.read s)).engine = s.engine := by
  unfold Act.read
  split <;> exact ⟨rfl, rfl⟩

/-- Reading a form touches neither the module nor the engine. -/
theorem read_ok {form : Option Form} (h : Act.read s = .ok form s') :
    s'.lowering = s.lowering ∧ s'.engine = s.engine := by
  have same := read_same s
  rwa [h] at same

/-- Soundness speaks of the module and the engine only. -/
theorem Session.Sound.same (h : s.Sound p) (hl : s'.lowering = s.lowering)
    (he : s'.engine = s.engine) : s'.Sound p where
  tidy := hl ▸ h.tidy
  linked := he ▸ h.linked
  defined := hl ▸ h.defined

theorem Session.Sound.read (h : s.Sound p) {form : Option Form} (hr : Act.read s = .ok form s') :
    s'.Sound p :=
  h.same (read_ok hr).1 (read_ok hr).2

/-- A name that is not defined in the module has no definition on record. -/
theorem Session.Sound.get?_of_fresh (h : s.Sound p) (hd : d.proto.name ∉ s.lowering.defined) :
    p.definitions.get? d.proto.name = none := by
  cases hn : p.definitions.get? d.proto.name with
  | none => rfl
  | some d' => exact absurd ((h.defined _).2 (by rw [hn]; rfl)) hd

/-- The engine does not know a name that is not defined. -/
theorem Session.Sound.lookup_of_fresh (h : s.Sound p) (hd : d.proto.name ∉ s.lowering.defined) :
    s.engine.lookup d.proto.name = none := by
  have linked := h.linked d.proto.name
  rw [h.get?_of_fresh hd] at linked
  show s.engine.symbols.get? d.proto.name = none
  cases hn : s.engine.symbols.get? d.proto.name with
  | none => rfl
  | some f => rw [hn] at linked; cases linked

/-- A definition that is accepted. -/
theorem Session.Sound.loaded (h : s.Sound p) {f : FuncId} {l : Lowering}
    (hd : Lower.definition d s.lowering = .ok f l) (reader : Reader) (log : String) :
    (Session.load { reader, lowering := l, engine := s.engine, log }).2.Sound
      { p with definitions := p.definitions.insert d.proto.name d } := by
  have defined := Lower.definition_ok h.tidy hd
  refine ⟨tidy_take h.tidy defined, (linked_add h.linked defined).1, fun name => ?_⟩
  show name ∈ l.defined ↔ _
  rw [defined.defined, Dict.get?_insert, List.mem_cons, h.defined]
  split
  · next he => simp [he]
  · next he => simp [he]

/-- A definition that is refused. -/
theorem Session.Sound.refused (h : s.Sound p) {e : Fault} {l : Lowering}
    (hd : Lower.definition d s.lowering = .error e l) :
    ({ s with lowering := l } : Session).Sound p := by
  obtain ⟨tidy, -, defined⟩ := Lower.definition_error h.tidy hd
  exact ⟨tidy, h.linked, fun name => by rw [defined]; exact h.defined name⟩

/-- A bare expression that has run is gone. -/
theorem Session.Sound.ended (h : s.Sound p) {f : FuncId} {l : Lowering}
    (hd : Lower.definition d s.lowering = .ok f l) (log : String) :
    (s.ended l d.proto.name log).Sound p := by
  have defined := Lower.definition_ok h.tidy hd
  have taken := tidy_take h.tidy defined
  refine ⟨⟨taken.named, taken.agreed, taken.declared⟩,
    (linked_add h.linked defined).2 (h.get?_of_fresh defined.fresh), fun name => ?_⟩
  show name ∈ l.defined.filter (· ≠ d.proto.name) ↔ _
  rw [← h.defined, defined.defined]
  by_cases he : name = d.proto.name
  · subst he
    simp [defined.fresh]
  · simp [he]

/-- The engine then resolves every name as before. -/
theorem Session.Sound.lookup_ended (h : s.Sound p) {f : FuncId} {l : Lowering}
    (hd : Lower.definition d s.lowering = .ok f l) (log : String) :
    (s.ended l d.proto.name log).engine.lookup = s.engine.lookup := by
  have defined := Lower.definition_ok h.tidy hd
  obtain ⟨g, -, -, -, -, removed⟩ := symbols_add (e := s.engine) defined
  funext name
  show Dict.get? (Engine.remove _ _).symbols name = s.engine.lookup name
  rw [removed, Dict.get?_erase, Dict.get?_insert]
  split
  · next he => rw [he, h.lookup_of_fresh defined.fresh]
  · rfl

/-- A definition is recorded if and only if its function is loaded. -/
theorem Session.Sound.definition (h : s.Sound p) :
    (left (Act.definition d s)).Sound (match Act.definition d s with
      | .ok _ _ => { p with definitions := p.definitions.insert d.proto.name d }
      | .error _ _ => p) := by
  cases hd : Lower.definition d s.lowering with
  | ok f l =>
    obtain ⟨log, he⟩ := definition_of_ok hd
    rw [he]
    exact h.loaded hd s.reader log
  | error e l =>
    rw [definition_of_error hd]
    exact h.refused hd

/-- A declaration loads nothing. -/
theorem Session.Sound.declaration (h : s.Sound p) :
    (left (Act.declaration proto s)).Sound (match Act.declaration proto s with
      | .ok _ _ => { p with declared := proto.name :: p.declared }
      | .error _ _ => p) := by
  cases hd : Lower.declaration proto s.lowering with
  | ok f l =>
    obtain ⟨log, he⟩ := declaration_of_ok hd
    have declared := Lower.declaration_ok h.tidy hd
    rw [he]
    exact ⟨declared.tidy, h.linked, fun name => by
      show name ∈ l.defined ↔ _
      rw [declared.defined]
      exact h.defined name⟩
  | error e l =>
    rw [declaration_of_error hd]
    obtain ⟨rfl, -⟩ := Lower.declaration_error h.tidy.coherent hd
    exact h

/-- The function that wraps a bare expression is unloaded and forgotten when it has run, so that
nothing of it stays. -/
theorem Session.Sound.expression (h : s.Sound p) (fuel : Nat) :
    (left (Act.expression fuel d s)).Sound p := by
  cases hd : Lower.definition d s.lowering with
  | ok f l =>
    have ended := expression_of_ok fuel hd
    split at ended <;> rw [ended] <;> exact h.ended hd _
  | error e l =>
    rw [expression_of_error fuel hd]
    exact h.refused hd

/-- A step that has read a form handles it. -/
theorem step_of_read {fuel : Nat} {form : Form} (h : Act.read s = .ok (some form) s') :
    Act.step fuel s = match Act.form fuel form s' with
      | .ok outcome t => .ok (some outcome) t
      | .error e t => .error e t := by
  unfold Act.step
  rw [bind_of_ok h]
  show (Act.form fuel form >>= fun x => pure (some x)) s' = _
  cases hf : Act.form fuel form s' with
  | ok outcome t =>
    rw [bind_of_ok hf]
    rfl
  | error e t => rw [bind_of_error hf]

theorem left_step_of_read {fuel : Nat} {form : Form} (h : Act.read s = .ok (some form) s') :
    left (Act.step fuel s) = left (Act.form fuel form s') := by
  rw [step_of_read h]
  cases Act.form fuel form s' <;> rfl

/-- One form. -/
theorem Session.Sound.step (h : s.Sound p) (fuel : Nat) :
    (left (Act.step fuel s)).Sound (p.after s) := by
  have same := read_same s
  unfold Act.step Past.after
  cases hr : Act.read s with
  | error e s₁ =>
    rw [hr] at same
    rw [bind_of_error hr]
    exact h.same same.1 same.2
  | ok form s₁ =>
    rw [hr] at same
    rw [bind_of_ok hr]
    have h₁ : s₁.Sound p := h.same same.1 same.2
    cases form with
    | none => exact h₁
    | some form =>
      show (left ((Act.form fuel form >>= fun x => pure (some x)) s₁)).Sound _
      rw [left_bind_pure]
      cases form with
      | separator => exact h₁
      | definition d => exact h₁.definition
      | declaration proto => exact h₁.declaration
      | expression d => exact h₁.expression fuel

end Steps

/-- In every session that can come about, the engine is linked to what was accepted. -/
theorem Reachable.sound {s : Session} {p : Past} (h : Reachable s p) : s.Sound p := by
  induction h with
  | start source =>
    refine ⟨tidy_empty _, fun name => .none, fun name => ?_⟩
    simp [Session.ofBytes, Lowering.empty]
  | source source _ ih => exact ih.same rfl rfl
  | log log _ ih => exact ih.same rfl rfl
  | step fuel _ ih => exact ih.step fuel

/-- What holds between two forms holds while a bare expression runs, whose definition then counts
with the others. -/
theorem Holds.sound {s : Session} {definitions : Dict String Definition} (h : Holds s definitions) :
    ∃ p : Past, p.definitions = definitions ∧ s.Sound p := by
  cases h with
  | resting h => exact ⟨_, rfl, h.sound⟩
  | @running s s₁ s₂ p d f h hr hl =>
    obtain ⟨l, hd, rfl⟩ := of_lower_ok hl
    exact ⟨_, rfl, (h.sound.read hr).loaded hd s₁.reader s₁.log⟩

section Programs

variable {s : Session} {p : Past}

theorem Reachable.write (h : Reachable s p) (text : String) : Reachable (s.write text) p :=
  .log _ h

/-- Form after form, to the end of the source or of the bound. -/
theorem Reachable.runWithin (fuel : Nat) (prompt : Bool) (n : Nat) :
    ∀ {s p}, Reachable s p → ∃ p', Reachable (s.runWithin fuel prompt n) p' := by
  induction n with
  | zero => exact fun h => ⟨_, h⟩
  | succ n ih =>
    intro s p h
    have prompted : Reachable (if prompt then s.write "ready> " else s) p := by
      split
      · exact h.write _
      · exact h
    have next := prompted.step fuel
    unfold Session.runWithin
    dsimp only
    split <;> rename_i hs <;> rw [hs] at next
    · exact ⟨_, next⟩
    · exact ih next
    · exact ih (next.write _)

/-- Including a file leads from one session that can come about to another. -/
theorem Reachable.file (h : Reachable s p) (fuel : Nat) (path : String)
    (content : Except Unreadable (List UInt8)) (after : List UInt8) :
    ∃ p', Reachable (left (Act.file fuel path content after s)) p' := by
  cases content with
  | ok source =>
    obtain ⟨p', h'⟩ := (h.source source).runWithin fuel false _
    exact ⟨p', h'.source after⟩
  | error cause => exact ⟨p, h⟩

/-- The session in which a run of the program comes to its standard input can come about, whatever
files it has included. -/
theorem reachable_includes (fuel : Nat) (read : String → Except Unreadable (List UInt8))
    (stdin : List UInt8) (includes : List String) :
    ∃ p, Reachable (includes.foldl (CommandLine.includeFile fuel read stdin) (.ofBytes stdin)) p := by
  have start : ∃ p, Reachable (.ofBytes stdin) p := ⟨_, .start stdin⟩
  generalize Session.ofBytes stdin = s at start
  induction includes generalizing s with
  | nil => exact start
  | cons path includes ih =>
    apply ih _
    obtain ⟨p, h⟩ := start
    have file := h.file fuel path (read path) stdin
    unfold CommandLine.includeFile
    split <;> rename_i hf <;> rw [hf] at file
    · exact file
    · obtain ⟨p', h'⟩ := file
      exact ⟨p', h'.write _⟩

/-- **A run in a directory.** Including files of the directory by their names shows what handling
their contents shows, one behind the other, and then the standard input. -/
theorem runSession_directory {d : Directory} {files : List (String × List UInt8)}
    (listed : ∀ file ∈ files, d.Lists file.1 file.2) (fuel : Nat) (stdin : List UInt8) :
    CommandLine.runSession fuel d.read stdin (files.map Prod.fst) =
      ((files.foldl (fun s file => ((Session.setSource file.2 s).runAll fuel false).setSource stdin)
        (Session.ofBytes stdin)).runAll fuel true).log := by
  unfold CommandLine.runSession
  dsimp only
  congr 2
  generalize Session.ofBytes stdin = s
  induction files generalizing s with
  | nil => rfl
  | cons file files ih =>
    have included : CommandLine.includeFile fuel d.read stdin s file.1 =
        ((s.setSource file.2).runAll fuel false).setSource stdin := by
      unfold CommandLine.includeFile
      rw [Directory.read_name (listed file List.mem_cons_self)]
      rfl
    simp only [List.map_cons, List.foldl_cons, included]
    exact ih (fun other hm => listed other (List.mem_cons_of_mem _ hm)) _

end Programs

end Kaleidoscope
