import Kaleidoscope.Proofs.Reading.Spelling

/-!
# The operators that a source has declared

A reader is asked for definitions, declarations, expressions and tokens, in any order and whether or
not it could answer before. Its table of precedences is at every moment the built-in one with the
operators entered, in order, that were declared by what was read in full (`precedences_after`).

The body of a definition is read with its operator entered, so that a fault in it has to take the
operator back. `precedences_of_ok` and `precedences_of_error` say what one request does; both rest
on the fact that nothing but a declared operator touches the table (`lasting_precedences`).
-/

namespace Kaleidoscope

/-- The binary operator that the prototype declares, with its precedence. -/
def Prototype.operator? (proto : Prototype) : Option (Char × Int) :=
  match proto.head with
  | .binary op precedence => some (op, precedence)
  | _ => none

namespace Precedences

/-- The table with the operator entered, whatever it was before. -/
def enterOne (table : Precedences) (d : Char × Int) : Precedences :=
  ⟨table.entries.insert d.1 d.2⟩

/-- The table with the operators entered in order. -/
def enter (table : Precedences) (declared : List (Char × Int)) : Precedences :=
  declared.foldl enterOne table

/-- Every operator has the same entry in both tables. -/
def Same (table table' : Precedences) : Prop :=
  ∀ op, table.entries.get? op = table'.entries.get? op

/-- Every entry can be declared. -/
def InRange (table : Precedences) : Prop :=
  ∀ op p, table.entries.get? op = some p → weakest ≤ p ∧ p ≤ strongest

variable {table table' : Precedences} {declared : List (Char × Int)} {op : Char}

/-- Entering an operator changes its own entry only. -/
theorem get?_enterOne (table : Precedences) (d : Char × Int) (op : Char) :
    (table.enterOne d).entries.get? op = if op = d.1 then some d.2 else table.entries.get? op :=
  Dict.get?_insert ..

theorem enter_append (declared' : List (Char × Int)) :
    table.enter (declared ++ declared') = (table.enter declared).enter declared' :=
  List.foldl_append

theorem Same.of_eq (h : table = table') : table.Same table' := fun op => by rw [h]

theorem Same.symm (h : table.Same table') : table'.Same table := fun op => (h op).symm

theorem Same.trans {table'' : Precedences} (h : table.Same table') (h' : table'.Same table'') :
    table.Same table'' := fun op => (h op).trans (h' op)

/-- Tables with the same entries have the same ones after the same operators are entered. -/
theorem Same.enter (h : table.Same table') (declared : List (Char × Int)) :
    (table.enter declared).Same (table'.enter declared) := by
  induction declared generalizing table table' with
  | nil => exact h
  | cons d declared ih =>
    refine ih fun op => ?_
    rw [get?_enterOne, get?_enterOne, h op]

theorem Same.inRange (h : table.Same table') (hr : table.InRange) : table'.InRange :=
  fun op p hp => hr op p ((h op).trans hp)

/-- Entering operators that are in range keeps the entries in range. -/
theorem InRange.enter (h : table.InRange)
    (hd : ∀ d ∈ declared, weakest ≤ d.2 ∧ d.2 ≤ strongest) : (table.enter declared).InRange := by
  induction declared generalizing table with
  | nil => exact h
  | cons d declared ih =>
    have entered : (table.enterOne d).InRange := by
      intro op p hp
      rw [get?_enterOne] at hp
      split at hp
      · cases hp
        exact hd d (by simp)
      · exact h op p hp
    exact ih entered fun d' hm => hd d' (List.mem_cons_of_mem d hm)

/-- Operators are entered and never taken out. -/
theorem isSome_enter (h : (table.entries.get? op).isSome) (declared : List (Char × Int)) :
    ((table.enter declared).entries.get? op).isSome := by
  induction declared generalizing table with
  | nil => exact h
  | cons d declared ih =>
    have entered : ((table.enterOne d).entries.get? op).isSome := by
      rw [get?_enterOne]
      split
      · rfl
      · exact h
    exact ih entered

/-- An ASCII operator with an entry that can be declared has a precedence. -/
theorem get?_isSome (hr : table.InRange) (h : (table.entries.get? op).isSome)
    (ho : op.toNat < 128) : (table.get? op).isSome := by
  obtain ⟨p, hp⟩ := Option.isSome_iff_exists.1 h
  have positive : 0 < p := by
    have := (hr op p hp).1
    unfold weakest at this
    omega
  simp [get?, ho, hp, positive]

end Precedences

namespace Read

/-- What can be asked of a reader. -/
inductive Request
  | definition
  | declaration
  | bareExpression
  | expression
  | peek
  | advance
  | source (bytes : List UInt8)

/-- Does what is asked; a definition or a declaration shows its prototype. -/
def Request.answer : Request → Read (Option Prototype)
  | .definition => return some (← Read.definition).proto
  | .declaration => return some (← Read.declaration)
  | .bareExpression => do
    let _ ← Read.bareExpression
    return none
  | .expression => do
    let _ ← Read.expression
    return none
  | .peek => do
    let _ ← Read.peek
    return none
  | .advance => do
    Read.advance
    return none
  | .source bytes => do
    modify (·.setSource bytes)
    return none

/-- The operators that an answer has declared: one at most, and none if the request failed. -/
def declaredBy : EStateM.Result Fault Reader (Option Prototype) → List (Char × Int)
  | .ok (some proto) _ => proto.operator?.toList
  | _ => []

/-- The reader after requests, each asked whether or not the one before it failed. -/
def after : List Request → Reader → Reader
  | [], r => r
  | q :: qs, r => after qs (left (q.answer r))

/-- The operators that requests have declared, in order. -/
def declared : List Request → Reader → List (Char × Int)
  | [], _ => []
  | q :: qs, r => declaredBy (q.answer r) ++ declared qs (left (q.answer r))

variable {α : Type} {table : Precedences} {r s : Reader} {proto : Prototype} {q : Request}
  {e : Fault}

section Prototypes

/-- The reading leaves the precedences as they are, whether it succeeds or not. -/
abbrev KeepsTable (a : Read α) : Prop :=
  ∀ table, Reads (fun r => r.precedences = table) (fun _ => True) a

/-- A reading that keeps every table keeps the one that it finds. -/
theorem keepsTable_of_reads {a : Read α} {P : α → Prop}
    (h : ∀ table, Reads (fun r => r.precedences = table) P a) : KeepsTable a := fun table =>
  (h table).mono fun _ _ => trivial

/-- Expressions declare no operators. -/
theorem keepsTable_expression : KeepsTable expression :=
  keepsTable_of_reads fun table => reads_expression (lasting_precedences table)

/-- A prototype by itself declares no operator: that is done by who reads it. -/
theorem keepsTable_prototype : KeepsTable prototype :=
  keepsTable_of_reads fun table => reads_prototype (lasting_precedences table)

theorem keepsTable_keyword (k : Keyword) (wanted : Expectation) : KeepsTable (keyword k wanted) :=
  fun table => reads_keyword (lasting_precedences table) k wanted

/-- What a prototype does to the table when it is read in full. -/
structure Declares (r : Reader) (proto : Prototype) (s : Reader) : Prop where
  precedences : s.precedences = r.precedences.enter proto.operator?.toList
  range : ∀ d ∈ proto.operator?, Precedences.weakest ≤ d.2 ∧ d.2 ≤ Precedences.strongest

/-- What it comes to to declare the operator of a prototype. -/
inductive Declaring (r : Reader) :
    Head → EStateM.Result Fault Reader (Precedences → Precedences) → Prop
  | function (name : String) : Declaring r (.function name) (.ok id r)
  | unary (op : Char) : Declaring r (.unary op) (.ok id r)
  | entered {op : Char} {p : Int} {previous : Option Int} {table : Precedences} :
    r.precedences.declare op p = .ok (previous, table) →
    Declaring r (.binary op p) (.ok (·.putBack op previous) { r with precedences := table })
  | refused {op : Char} {p : Int} :
    r.precedences.declare op p = .error .invalidPrecedence →
    Declaring r (.binary op p) (.error .invalidPrecedence r)

/-- Only a binary operator is declared, and only its precedence can be refused. -/
theorem declaring (proto : Prototype) (r : Reader) :
    Declaring r proto.head (declareOperator proto r) := by
  obtain ⟨head, params⟩ := proto
  cases head with
  | function name => exact .function name
  | unary op => exact .unary op
  | binary op p =>
    unfold declareOperator
    dsimp only
    rw [bind_of_ok (rfl : (get : Read Reader) r = .ok r r)]
    cases hd : r.precedences.declare op p with
    | error fault =>
      have refused : fault = .invalidPrecedence := by
        unfold Precedences.declare at hd
        split at hd <;> cases hd
        rfl
      subst refused
      exact .refused hd
    | ok entered => exact .entered hd

/-- Entering an operator can be undone by what the declaration gives back. -/
theorem of_declareOperator_ok {takeBack : Precedences → Precedences}
    (h : declareOperator proto r = .ok takeBack s) :
    Declares r proto s ∧ (takeBack s.precedences).Same r.precedences := by
  have declared := declaring proto r
  obtain ⟨head, params⟩ := proto
  rw [h] at declared
  cases declared with
  | function name => exact ⟨⟨rfl, nofun⟩, fun _ => rfl⟩
  | unary op => exact ⟨⟨rfl, nofun⟩, fun _ => rfl⟩
  | @entered op p _ _ hd =>
    have range := Precedences.range_of_declare hd
    unfold Precedences.declare at hd
    split at hd <;> cases hd
    refine ⟨⟨rfl, ?_⟩, fun c => ?_⟩
    · rintro d ⟨⟩
      exact range
    -- the entry that was there before is put back, or there was none
    · show ((r.precedences.entries.insert op p).put op _).get? c = _
      rw [Dict.get?_put, Dict.get?_insert]
      split
      · next hc => rw [hc]
      · rfl

/-- An operator that is refused is not entered. -/
theorem of_declareOperator_error (h : declareOperator proto r = .error e s) : s = r := by
  have declared := declaring proto r
  generalize proto.head = head at declared
  rw [h] at declared
  cases declared
  rfl

section Headings

variable {k : Keyword} {wanted : Expectation} {x : α}
  {rest : Prototype → (Precedences → Precedences) → Read α}

/-- A form that begins with a keyword and a prototype has entered the operator of the prototype before
the rest of it is read. -/
theorem of_heading_ok (h : (do
      keyword k wanted
      let proto ← prototype
      let takeBack ← declareOperator proto
      rest proto takeBack) r = .ok x s) :
    ∃ proto takeBack t, Declares r proto t ∧ (takeBack t.precedences).Same r.precedences ∧
      rest proto takeBack t = .ok x s := by
  obtain ⟨_, r₁, hk, h⟩ := bind_eq_ok.1 h
  obtain ⟨proto, r₂, hp, h⟩ := bind_eq_ok.1 h
  obtain ⟨takeBack, t, hd, h⟩ := bind_eq_ok.1 h
  have kept₁ := ((keepsTable_keyword _ _ _).ok rfl hk).1
  have kept₂ := ((keepsTable_prototype _).ok kept₁ hp).1
  obtain ⟨⟨entered, range⟩, undone⟩ := of_declareOperator_ok hd
  rw [kept₂] at entered undone
  exact ⟨proto, takeBack, t, ⟨entered, range⟩, undone, h⟩

/-- If it fails, then either with the table as it was, or in the rest. -/
theorem of_heading_error (h : (do
      keyword k wanted
      let proto ← prototype
      let takeBack ← declareOperator proto
      rest proto takeBack) r = .error e s) :
    s.precedences = r.precedences ∨
      ∃ proto takeBack t, (takeBack t.precedences).Same r.precedences ∧
        rest proto takeBack t = .error e s := by
  rcases bind_eq_error.1 h with hk | ⟨_, r₁, hk, h⟩
  · exact .inl ((keepsTable_keyword _ _ _).error rfl hk).1
  have kept₁ := ((keepsTable_keyword _ _ _).ok rfl hk).1
  rcases bind_eq_error.1 h with hp | ⟨proto, r₂, hp, h⟩
  · exact .inl ((keepsTable_prototype _).error kept₁ hp).1
  have kept₂ := ((keepsTable_prototype _).ok kept₁ hp).1
  rcases bind_eq_error.1 h with hd | ⟨takeBack, t, hd, h⟩
  · exact .inl (by rw [of_declareOperator_error hd, kept₂])
  obtain ⟨-, undone⟩ := of_declareOperator_ok hd
  exact .inr ⟨proto, takeBack, t, kept₂ ▸ undone, h⟩

end Headings

/-- A definition that is read in full has entered its operator. -/
theorem of_definition_ok {d : Definition} (h : definition r = .ok d s) : Declares r d.proto s := by
  rw [definition_eq] at h
  obtain ⟨proto, takeBack, t, entered, -, h⟩ := of_heading_ok h
  cases hb : expression t with
  | ok body u =>
    have read : (do return ⟨proto, ← expression⟩ : Read Definition) t = .ok ⟨proto, body⟩ u :=
      bind_of_ok hb _
    rw [tryCatch_of_ok read] at h
    cases h
    have kept := ((keepsTable_expression _).ok rfl hb).1
    exact ⟨by rw [kept, entered.precedences], entered.range⟩
  | error fault u =>
    rw [tryCatch_of_error (bind_of_error hb _)] at h
    cases h

/-- A definition that fails leaves no trace in the table, whether its prototype or its body is at
fault. -/
theorem of_definition_error (h : definition r = .error e s) :
    s.precedences.Same r.precedences := by
  rw [definition_eq] at h
  rcases of_heading_error h with h | ⟨proto, takeBack, t, undone, h⟩
  · exact .of_eq h
  cases hb : expression t with
  | ok body u =>
    have read : (do return ⟨proto, ← expression⟩ : Read Definition) t = .ok ⟨proto, body⟩ u :=
      bind_of_ok hb _
    rw [tryCatch_of_ok read] at h
    cases h
  | error fault u =>
    rw [tryCatch_of_error (bind_of_error hb _)] at h
    cases h
    have kept := ((keepsTable_expression _).error rfl hb).1
    show (takeBack u.precedences).Same r.precedences
    rwa [kept]

/-- A declaration that is read enters its operator. -/
theorem of_declaration_ok (h : declaration r = .ok proto s) : Declares r proto s := by
  obtain ⟨proto', takeBack, t, entered, -, h⟩ := of_heading_ok h
  cases h
  exact entered

/-- A declaration that is not read enters none, as nothing is read behind its prototype. -/
theorem of_declaration_error (h : declaration r = .error e s) : s.precedences = r.precedences := by
  rcases of_heading_error h with h | ⟨proto, takeBack, t, -, h⟩
  · exact h
  · cases h

end Prototypes

section Requests

variable {x : Option Prototype} {qs : List Request}

theorem keepsTable_advance : KeepsTable advance := fun table => (lasting_precedences table).advance

theorem keepsTable_peek : KeepsTable peek :=
  keepsTable_of_reads fun table => (lasting_precedences table).peek

theorem keepsTable_source (bytes : List UInt8) :
    KeepsTable (modify fun r : Reader => r.setSource bytes) := fun table => {
  ok := by
    intro r x s hi h
    cases h
    exact ⟨hi, trivial⟩
  error := fun _ h => nomatch h }

/-- A request that shows no prototype leaves the table as it is. -/
theorem KeepsTable.silent {a : Read α} (ha : KeepsTable a) :
    KeepsTable (a >>= fun _ => pure (none : Option Prototype)) := fun table =>
  (ha table).bind fun _ _ => keeps_pure trivial

/-- Only definitions and declarations show prototypes, and only these touch the table. -/
theorem Request.cases (q : Request) :
    q = .definition ∨ q = .declaration ∨
      ∃ (β : Type) (a : Read β), KeepsTable a ∧ q.answer = a >>= fun _ => pure none := by
  cases q with
  | definition => exact .inl rfl
  | declaration => exact .inr (.inl rfl)
  | bareExpression =>
    have keeps : KeepsTable Read.bareExpression := fun table =>
      (keepsTable_expression table).bind fun _ _ => keeps_pure trivial
    exact .inr (.inr ⟨_, _, keeps, rfl⟩)
  | expression => exact .inr (.inr ⟨_, _, keepsTable_expression, rfl⟩)
  | peek => exact .inr (.inr ⟨_, _, keepsTable_peek, rfl⟩)
  | advance => exact .inr (.inr ⟨_, _, keepsTable_advance, rfl⟩)
  | source bytes => exact .inr (.inr ⟨_, _, keepsTable_source bytes, rfl⟩)

/-- What an answer declares is in the table afterwards, and nothing else is new there. -/
theorem precedences_of_ok (h : q.answer r = .ok x s) :
    s.precedences = r.precedences.enter (declaredBy (q.answer r)) ∧
      ∀ d ∈ declaredBy (q.answer r), Precedences.weakest ≤ d.2 ∧ d.2 ≤ Precedences.strongest := by
  have declares : ∀ {proto}, x = some proto → Declares r proto s →
      s.precedences = r.precedences.enter (declaredBy (q.answer r)) ∧
        ∀ d ∈ declaredBy (q.answer r),
          Precedences.weakest ≤ d.2 ∧ d.2 ≤ Precedences.strongest := by
    rintro proto rfl hd
    rw [h]
    exact ⟨hd.precedences, fun d hm => hd.range d (by simpa [declaredBy] using hm)⟩
  rcases q.cases with rfl | rfl | ⟨β, a, keeps, ha⟩
  · obtain ⟨d, t, hd, hx⟩ := bind_eq_ok.1 h
    cases hx
    exact declares rfl (of_definition_ok hd)
  · obtain ⟨proto, t, hp, hx⟩ := bind_eq_ok.1 h
    cases hx
    exact declares rfl (of_declaration_ok hp)
  · rw [ha] at h ⊢
    obtain ⟨_, t, -, hx⟩ := bind_eq_ok.1 h
    have kept := ((keeps.silent _).ok rfl h).1
    cases hx
    rw [h]
    exact ⟨kept, nofun⟩

/-- **A request that fails declares nothing**: every operator has the entry that it had before. -/
theorem precedences_of_error (h : q.answer r = .error e s) :
    s.precedences.Same r.precedences := by
  rcases q.cases with rfl | rfl | ⟨β, a, keeps, ha⟩
  · rcases bind_eq_error.1 h with h | ⟨_, _, -, h⟩
    · exact of_definition_error h
    · cases h
  · rcases bind_eq_error.1 h with h | ⟨_, _, -, h⟩
    · exact .of_eq (of_declaration_error h)
    · cases h
  · rw [ha] at h
    exact .of_eq ((keeps.silent _).error rfl h).1

/-- The table after one request, answered or not. -/
theorem same_left (q : Request) (r : Reader) :
    (left (q.answer r)).precedences.Same (r.precedences.enter (declaredBy (q.answer r))) ∧
      ∀ d ∈ declaredBy (q.answer r), Precedences.weakest ≤ d.2 ∧ d.2 ≤ Precedences.strongest := by
  cases ha : q.answer r with
  | error e s => exact ⟨precedences_of_error ha, nofun⟩
  | ok x s =>
    obtain ⟨entered, range⟩ := precedences_of_ok ha
    rw [ha] at entered range
    exact ⟨.of_eq entered, range⟩

/-- The table after any requests. -/
theorem same_after (qs : List Request) (r : Reader) :
    (after qs r).precedences.Same (r.precedences.enter (declared qs r)) ∧
      ∀ d ∈ declared qs r, Precedences.weakest ≤ d.2 ∧ d.2 ≤ Precedences.strongest := by
  induction qs generalizing r with
  | nil => exact ⟨.of_eq rfl, nofun⟩
  | cons q qs ih =>
    obtain ⟨first, firstRange⟩ := same_left q r
    obtain ⟨others, range⟩ := ih (left (q.answer r))
    refine ⟨?_, fun d hd => ?_⟩
    · rw [declared, Precedences.enter_append]
      exact others.trans (first.enter _)
    · rcases List.mem_append.1 hd with hd | hd
      · exact firstRange d hd
      · exact range d hd

theorem inRange_builtIn : Precedences.InRange {} := by
  intro op p hp
  have entry : (op, p) ∈ [('<', 10), ('+', 20), ('-', 20), ('*', 40)] := by
    obtain ⟨d, hd, rfl⟩ := Option.map_eq_some_iff.1 hp
    have key := List.find?_some hd
    simp only [decide_eq_true_eq] at key
    subst key
    exact List.mem_of_find?_eq_some hd
  simp only [List.mem_cons, Prod.mk.injEq, List.not_mem_nil, or_false] at entry
  unfold Precedences.weakest Precedences.strongest
  omega

/-- **The table tells what was read.** Whatever is asked of a reader, and whether or not it could
answer, its table gives every operator the entry that it has in the built-in table with the
declared operators entered in order. A request that fails leaves every entry as it was, every
entry can be declared, and the built-in operators never lose theirs. -/
theorem precedences_after (source : List UInt8) (qs : List Request) :
    (after qs (.ofBytes source)).precedences.Same
        (Precedences.enter {} (declared qs (.ofBytes source))) ∧
      (∀ q e s, Request.answer q (after qs (.ofBytes source)) = .error e s →
        s.precedences.Same (after qs (.ofBytes source)).precedences) ∧
      (after qs (.ofBytes source)).precedences.InRange ∧
      ∀ op ∈ ['<', '+', '-', '*'], ((after qs (.ofBytes source)).precedences.get? op).isSome := by
  obtain ⟨same, range⟩ := same_after qs (.ofBytes source)
  have inRange := same.symm.inRange (inRange_builtIn.enter range)
  refine ⟨same, fun q e s => precedences_of_error, inRange, fun op hop => ?_⟩
  have builtIn : (({} : Precedences).entries.get? op).isSome ∧ op.toNat < 128 := by
    simp only [List.mem_cons, List.not_mem_nil, or_false] at hop
    rcases hop with rfl | rfl | rfl | rfl <;> exact ⟨rfl, by decide⟩
  refine Precedences.get?_isSome inRange ?_ builtIn.2
  rw [same op]
  exact Precedences.isSome_enter builtIn.1 _

end Requests

end Read

end Kaleidoscope
