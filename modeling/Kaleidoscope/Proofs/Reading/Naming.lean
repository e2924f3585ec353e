import Kaleidoscope.Proofs.Reading.Continuing
import Kaleidoscope.Proofs.Reading.Operators

/-!
# What names stand for

The functions of operators are named by a word and the operator behind it, and the operator is no
part of a word. So what a function is for can be read off its name (`Prototype.Regular.role_eq`), as
long as its prototype was read from a source.

`Read.Accepts` and `Read.Yields` say which prototypes and expressions are read from a source, whatever
was asked of the reader before. `Read.readable_of_accepts` and `Read.spelled_of_yields` say how these
are spelled, `Read.denotes_ofName` that a name stands for what it says, and `Read.from_of_form` that a
form which is read from a source is made of them.
-/

namespace Kaleidoscope

/-- What a function is for. -/
inductive Role
  | plain
  | unary (op : Char)
  | binary (op : Char)
  deriving DecidableEq, Repr

/-- What a function is for, read off its name: at the end of an operator's stands the operator. -/
def Role.ofName (name : String) : Role :=
  match name.toList.getLast? with
  | none => .plain
  | some c =>
    if c.isAlphanum then .plain
    else if name.toList.head? = some 'u' then .unary c
    else .binary c

/-- What the function of the prototype is for. -/
def Prototype.role (proto : Prototype) : Role :=
  match proto.head with
  | .function _ => .plain
  | .unary op => .unary op
  | .binary op _ => .binary op

/-- Every name in the expression stands for no operator's function, and every operator for its own. -/
def Expr.Apart (Stands : Role → String → Prop) (e : Expr) : Prop :=
  e.Spelled (Stands .plain) fun op =>
    Stands (.unary op) (unaryName op) ∧ Stands (.binary op) (binaryName op)

section Roles

variable {name : String} {op : Char} {proto : Prototype}

/-- A word ends in a letter or a digit, and so names no operator's function. -/
theorem Role.ofName_of_word (h : Word name) : ofName name = .plain := by
  unfold ofName
  split
  · rfl
  · next c hc =>
    have inside : c.isAlphanum = true := h c (List.mem_of_getLast? hc)
    rw [if_pos inside]

/-- The name of a unary operator's function ends in the operator, which is no letter or digit. -/
theorem Role.ofName_unaryName (h : Sign op) : ofName (unaryName op) = .unary op := by
  have last : (unaryName op).toList.getLast? = some op := by simp [unaryName]
  have first : (unaryName op).toList.head? = some 'u' := by simp [unaryName]
  have outside : ¬ op.isAlphanum = true := Bool.eq_false_iff.1 h
  simp only [ofName, last, first, if_neg outside, if_true]

/-- Binary operators are told from unary ones by the first letter of the name. -/
theorem Role.ofName_binaryName (h : Sign op) : ofName (binaryName op) = .binary op := by
  have last : (binaryName op).toList.getLast? = some op := by simp [binaryName]
  have first : ¬ (binaryName op).toList.head? = some 'u' := by simp [binaryName]
  have outside : ¬ op.isAlphanum = true := Bool.eq_false_iff.1 h
  simp only [ofName, last, if_neg first, if_neg outside]

/-- What the function of a prototype is for can be read off its name. -/
theorem Prototype.Regular.role_eq (h : proto.Regular) : proto.role = .ofName proto.name := by
  obtain ⟨head, params⟩ := proto
  cases head with
  | function name => exact (Role.ofName_of_word h).symm
  | unary op => exact (Role.ofName_unaryName h.1).symm
  | binary op p => exact (Role.ofName_binaryName h.1).symm

/-- The anonymous name has underscores, which no word has. -/
theorem Word.ne_anonymousName (h : Word name) : name ≠ anonymousName := by
  rintro rfl
  exact not_word_anonymousName h

/-- Where a name stands for what it says, an expression that is spelled as a source can spell it
takes no function for another. -/
theorem Expr.Spelled.apart {e : Expr} (h : e.Spelled Word Sign) {Stands : Role → String → Prop}
    (hs : ∀ name, name ≠ anonymousName → Stands (.ofName name) name) : e.Apart Stands := by
  refine h.mono (fun name hw => ?_) fun op ho => ⟨?_, ?_⟩
  · have stands := hs name hw.ne_anonymousName
    rwa [Role.ofName_of_word hw] at stands
  · have stands := hs (unaryName op) (unaryName_ne_anonymousName op)
    rwa [Role.ofName_unaryName ho] at stands
  · have stands := hs (binaryName op) (binaryName_ne_anonymousName op)
    rwa [Role.ofName_binaryName ho] at stands

end Roles

namespace Read

/-- The prototype is read from the source, whatever was asked for before: where a prototype is asked
for, or at the head of a definition or of a declaration. -/
inductive Accepts (source : List UInt8) : Prototype → Prop
  | prototype {qs : List Request} {proto : Prototype} {s : Reader} :
    prototype (after qs (.ofBytes source)) = .ok proto s → Accepts source proto
  | definition {qs : List Request} {d : Definition} {s : Reader} :
    definition (after qs (.ofBytes source)) = .ok d s → Accepts source d.proto
  | declaration {qs : List Request} {proto : Prototype} {s : Reader} :
    declaration (after qs (.ofBytes source)) = .ok proto s → Accepts source proto

/-- The expression is read from the source, whatever was asked for before: where an expression is
asked for, or as the body of a definition. -/
inductive Yields (source : List UInt8) : Expr → Prop
  | expression {qs : List Request} {e : Expr} {s : Reader} :
    expression (after qs (.ofBytes source)) = .ok e s → Yields source e
  | definition {qs : List Request} {d : Definition} {s : Reader} :
    definition (after qs (.ofBytes source)) = .ok d s → Yields source d.body

end Read

/-- What the form is made of was read from the source. -/
def Form.From (source : List UInt8) : Form → Prop
  | .separator => True
  | .definition d => Read.Accepts source d.proto ∧ Read.Yields source d.body
  | .declaration proto => Read.Accepts source proto
  | .expression d => ∃ body, d = .anonymous body ∧ Read.Yields source body

namespace Read

variable {α β : Type} {source : List UInt8}

section Spelling

/-- Whatever is asked of the reader, the token in view stays one of the text. -/
theorem Spelled.left_answer {r : Reader} (h : Spelled r) (q : Request) :
    Spelled (left (q.answer r)) := by
  have shown : ∀ {α : Type} {P : α → Prop} {a : Read α} {f : α → Option Prototype},
      Reads Spelled P a → Spelled (left ((a >>= fun x => pure (f x)) r)) := fun ha => by
    rw [left_bind_pure]
    exact ha.left h
  cases q with
  | definition => exact shown reads_definition
  | declaration => exact shown reads_declaration
  | bareExpression =>
    exact shown ((reads_expression lasting_spelled).bind fun body _ =>
      keeps_pure (P := fun _ => True) trivial)
  | expression => exact shown (reads_expression lasting_spelled)
  | peek => exact shown lasting_spelled.peek
  | advance => exact shown lasting_spelled.advance
  | source bytes => exact nofun

/-- Whatever was asked for, the token that was looked at is spelled as tokens are. -/
theorem spelled_after (source : List UInt8) (qs : List Request) :
    Spelled (after qs (.ofBytes source)) := by
  have from_spelled : ∀ {r : Reader}, Spelled r → Spelled (after qs r) := by
    induction qs with
    | nil => exact fun h => h
    | cons q qs ih => exact fun h => ih (h.left_answer q)
  exact from_spelled nofun

/-- Prototypes that are read are regular and have words as parameters. -/
theorem readable_of_accepts {proto : Prototype} (h : Accepts source proto) : proto.Readable := by
  cases h with
  | prototype h => exact ((reads_prototype lasting_spelled).ok (spelled_after _ _) h).2
  | definition h => exact (reads_definition.ok (spelled_after _ _) h).2.1
  | declaration h => exact (reads_declaration.ok (spelled_after _ _) h).2

/-- Expressions that are read are spelled in words and signs. -/
theorem spelled_of_yields {e : Expr} (h : Yields source e) : e.Spelled Word Sign := by
  cases h with
  | expression h => exact ((reads_expression lasting_spelled).ok (spelled_after _ _) h).2
  | definition h => exact (reads_definition.ok (spelled_after _ _) h).2.2

/-- The prototypes of the name that are read from the source are for that role. -/
def Denotes (source : List UInt8) (role : Role) (name : String) : Prop :=
  ∀ proto, Accepts source proto → proto.name = name → proto.role = role

/-- What a name stands for in a source is what the name says. -/
theorem denotes_ofName (source : List UInt8) (name : String) : Denotes source (.ofName name) name := by
  intro proto h hn
  rw [← hn]
  exact (readable_of_accepts h).1.role_eq

end Spelling

section Forms

theorem after_append (qs qs' : List Request) (r : Reader) :
    after (qs ++ qs') r = after qs' (after qs r) := by
  induction qs generalizing r with
  | nil => rfl
  | cons q qs ih => exact ih _

/-- What the action does to a reader can be asked for. -/
def Asked (a : Read α) : Prop :=
  ∀ r, ∃ qs, left (a r) = after qs r

variable {a : Read α} {f : α → Read β}

theorem asked_pure (x : α) : Asked (pure x) := fun _ => ⟨[], rfl⟩

theorem asked_throw (e : Fault) : Asked (throw e : Read α) := fun _ => ⟨[], rfl⟩

/-- What a sequence does to the reader is asked for by the requests of the first action and then
those of the second. -/
theorem Asked.bind (ha : Asked a) (hf : ∀ x, Asked (f x)) : Asked (a >>= f) := by
  intro r
  obtain ⟨qs, first⟩ := ha r
  cases hx : a r with
  | error e t =>
    rw [hx] at first
    rw [bind_of_error hx]
    exact ⟨qs, first⟩
  | ok x t =>
    rw [hx] at first
    obtain ⟨qs', second⟩ := hf x t
    refine ⟨qs ++ qs', ?_⟩
    rw [bind_of_ok hx, after_append, ← first]
    exact second

theorem Asked.catch {handler : Fault → Read α} (ha : Asked a) (hh : ∀ e, Asked (handler e)) :
    Asked (tryCatch a handler) := by
  intro r
  obtain ⟨qs, first⟩ := ha r
  cases hx : a r with
  | ok x t =>
    rw [hx] at first
    rw [tryCatch_of_ok hx]
    exact ⟨qs, first⟩
  | error e t =>
    rw [hx] at first
    obtain ⟨qs', second⟩ := hh e t
    refine ⟨qs ++ qs', ?_⟩
    rw [tryCatch_of_error hx, after_append, ← first]
    exact second

/-- The answer to a request shows less than what was read, and leaves the reader where that does. -/
theorem asked_of_answer {q : Request} {show? : α → Option Prototype}
    (h : q.answer = a >>= fun x => pure (show? x)) : Asked a := by
  intro r
  refine ⟨[q], ?_⟩
  show left (a r) = left (q.answer r)
  rw [h, left_bind_pure]

theorem asked_peek : Asked peek := asked_of_answer (q := .peek) rfl

theorem asked_advance : Asked advance := asked_of_answer (q := .advance) rfl

/-- Every form is one request, and a separator is using up its token. -/
theorem asked_formAt (t : Token) : Asked (formAt t) := by
  unfold formAt
  split
  · exact asked_pure _
  · exact asked_advance.bind fun _ => asked_pure _
  · exact (asked_of_answer (q := .definition) rfl).bind fun d => asked_pure _
  · exact (asked_of_answer (q := .declaration) rfl).bind fun proto => asked_pure _
  · exact (asked_of_answer (q := .bareExpression) rfl).bind fun d => asked_pure _

/-- Reading a form asks for nothing but the parts of it. -/
theorem asked_form : Asked form :=
  (asked_peek.bind asked_formAt).catch fun e => asked_advance.bind fun _ => asked_throw e

/-- What a form is made of is read where the token in view has told which form it is. -/
theorem from_of_formAt {qs : List Request} {t : Token} {x : Form} {s : Reader}
    (h : formAt t (after qs (.ofBytes source)) = .ok (some x) s) : x.From source := by
  unfold formAt at h
  split at h
  · cases h
  · cases h
    trivial
  · obtain ⟨d, u, hd, h⟩ := bind_eq_ok.1 h
    cases h
    exact ⟨.definition hd, .definition hd⟩
  · obtain ⟨proto, u, hp, h⟩ := bind_eq_ok.1 h
    cases h
    exact .declaration hp
  · obtain ⟨d, u, hd, h⟩ := bind_eq_ok.1 h
    cases h
    obtain ⟨body, v, hb, hd⟩ := bind_eq_ok.1 hd
    cases hd
    exact ⟨body, rfl, .expression hb⟩

/-- A form that is read is made of what the source holds. -/
theorem from_of_form {qs : List Request} {x : Form} {s : Reader}
    (h : form (after qs (.ofBytes source)) = .ok (some x) s) : x.From source := by
  obtain ⟨t, u, hp, hf⟩ := of_form_ok h
  obtain ⟨qs', looked⟩ := asked_peek (after qs (.ofBytes source))
  rw [hp, ← after_append] at looked
  obtain rfl : u = _ := looked
  exact from_of_formAt hf

end Forms

end Read

/-- The body of a form from a source is spelled as a source can spell it, and so is its prototype
unless it wraps a bare expression. -/
theorem Form.From.spelled {source : List UInt8} {d : Definition}
    (h : (Form.definition d).From source ∨ (Form.expression d).From source) :
    (d.proto.Regular ∨ d.proto.name = anonymousName) ∧ d.body.Spelled Word Sign := by
  rcases h with ⟨accepted, yields⟩ | ⟨body, rfl, yields⟩
  · exact ⟨.inl (Read.readable_of_accepts accepted).1, Read.spelled_of_yields yields⟩
  · exact ⟨.inr rfl, Read.spelled_of_yields yields⟩

end Kaleidoscope
