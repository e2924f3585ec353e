import Kaleidoscope.Proofs.Reading.Operators
import Kaleidoscope.Proofs.Reading.Rendering

/-!
# Delimiters and operators

The grammar sets groups and argument lists in parentheses and commas, and ends a form with a
semicolon. A prototype may declare any of the four as a binary operator, and then they are read as
one (`declaredDelimiter_operator`). This is the only way for a delimiter to come into the table, and
as long as it is not taken groups, argument lists and the ends of forms are read as such
(`delimiters_after`).
-/

namespace Kaleidoscope

/-- The symbols that the grammar sets around expressions, between them, or behind them. -/
def delimiters : List Char :=
  ['(', ')', ',', ';']

namespace Precedences

variable {table : Precedences} {declared : List (Char × Int)} {op : Char}

/-- An operator has an entry if it had one before or is among those entered. -/
theorem isSome_enter_iff : ((table.enter declared).entries.get? op).isSome ↔
    (table.entries.get? op).isSome ∨ ∃ p, (op, p) ∈ declared := by
  induction declared generalizing table with
  | nil => simp [enter]
  | cons d declared ih =>
    refine Iff.trans ih ?_
    rw [get?_enterOne]
    by_cases ho : op = d.1
    · subst ho
      simp only [if_true, Option.isSome_some, true_or, true_iff]
      exact .inr ⟨d.2, by simp⟩
    · have other : ∀ p, (op, p) ≠ d := fun p h => ho (congrArg Prod.fst h)
      simp [ho, other]

/-- In a table of what can be declared, the operators of ASCII are the keys. -/
theorem isSome_get?_iff (hr : table.InRange) (ho : op.toNat < 128) :
    (table.get? op).isSome ↔ (table.entries.get? op).isSome := by
  refine ⟨fun h => ?_, fun h => get?_isSome hr h ho⟩
  cases he : table.entries.get? op with
  | none => simp [get?, he] at h
  | some p => rfl

end Precedences

namespace Read

variable {table : Precedences} {rest : List Item} {wrap : Expr → Bool} {r : Reader}

/-- No delimiter is an operator. -/
def Delimited (table : Precedences) : Prop :=
  ∀ c ∈ delimiters, table.get? c = none

theorem Delimited.closes (h : Delimited table) : Closes table (.ok (.symbol ';') :: rest) :=
  closes_symbol (by decide) (h ';' (by decide))

theorem Delimited.rendered (h : Delimited table) (hw : ∀ e, e.isCompound = true → wrap e = true)
    {e : Expr} (he : e.Writable table) : Rendered table wrap e :=
  rendered_of_writable hw (h '(' (by decide)) (h ')' (by decide)) (h ',' (by decide)) e he

/-- A group is read up to its closing parenthesis. -/
theorem Delimited.takes_group (h : Delimited table)
    (hw : ∀ e, e.isCompound = true → wrap e = true) {e : Expr} (he : e.Writable table) :
    Takes table (.ok (.symbol ';') :: rest) (.symbol '(' :: e.tokens wrap ++ [.symbol ')']) e
      expression :=
  takes_expression (Read.takes_group (h ')' (by decide)) (h.rendered hw he).whole) h.closes

/-- A call is read with the arguments between its commas. -/
theorem Delimited.takes_call (h : Delimited table)
    (hw : ∀ e, e.isCompound = true → wrap e = true) (f : String) {args : List Expr}
    (ha : ∀ e ∈ args, e.Writable table) :
    Takes table (.ok (.symbol ';') :: rest)
      (.name f :: .symbol '(' :: (Expr.argumentTokens wrap args ++ [.symbol ')'])) (.call f args)
      expression := by
  have whole := (h.rendered hw (.call (f := f) ha)).whole
  rw [Expr.tokens] at whole
  exact whole.takes h.closes

/-- The delimiters of a table that was read. -/
theorem delimiter_iff (source : List UInt8) (qs : List Request) {c : Char} (hc : c ∈ delimiters) :
    ((after qs (.ofBytes source)).precedences.get? c).isSome ↔
      ∃ p, (c, p) ∈ declared qs (.ofBytes source) := by
  obtain ⟨same, range⟩ := same_after qs (.ofBytes source)
  have inRange := same.symm.inRange (inRange_builtIn.enter range)
  have plain : c.toNat < 128 ∧ ({} : Precedences).entries.get? c = none := by
    simp only [delimiters, List.mem_cons, List.not_mem_nil, or_false] at hc
    rcases hc with rfl | rfl | rfl | rfl <;> exact ⟨by decide, rfl⟩
  rw [Precedences.isSome_get?_iff inRange plain.1, same c]
  refine Precedences.isSome_enter_iff.trans ?_
  have new : ((Reader.ofBytes source).precedences.entries.get? c).isSome = false := by
    show (({} : Precedences).entries.get? c).isSome = false
    rw [plain.2]
    rfl
  simp [new]

/-- **A delimiter is an operator only if it was declared as one.** Whatever is asked of a reader,
the delimiters in its table are those that a prototype has declared. As long as there are none, an
expression is read up to the semicolon behind it, a group up to its closing parenthesis, and a call
with the arguments between its parentheses and commas. -/
theorem delimiters_after (source : List UInt8) (qs : List Request) :
    let table := (after qs (.ofBytes source)).precedences
    (∀ c ∈ delimiters, (table.get? c).isSome ↔ ∃ p, (c, p) ∈ declared qs (.ofBytes source)) ∧
    ((∀ c ∈ delimiters, ∀ p, (c, p) ∉ declared qs (.ofBytes source)) →
      ∀ (wrap : Expr → Bool) (rest : List Item), (∀ e, e.isCompound = true → wrap e = true) →
        (∀ e : Expr, e.Writable table →
          Takes table (.ok (.symbol ';') :: rest) (e.tokens wrap) e expression ∧
          Takes table (.ok (.symbol ';') :: rest) (.symbol '(' :: e.tokens wrap ++ [.symbol ')']) e
            expression) ∧
        ∀ (f : String) (args : List Expr), (∀ e ∈ args, e.Writable table) →
          Takes table (.ok (.symbol ';') :: rest)
            (.name f :: .symbol '(' :: (Expr.argumentTokens wrap args ++ [.symbol ')']))
            (.call f args) expression) := by
  intro table
  refine ⟨fun c hc => delimiter_iff source qs hc, fun hnone wrap rest hw => ?_⟩
  have delimited : Delimited table := fun c hc => by
    have missing : ¬ (table.get? c).isSome := fun h => by
      obtain ⟨p, hp⟩ := (delimiter_iff source qs hc).1 h
      exact hnone c hc p hp
    simpa using missing
  refine ⟨fun e he => ⟨?_, delimited.takes_group hw he⟩, fun f args ha => ?_⟩
  · exact (delimited.rendered hw he).whole.takes delimited.closes
  · exact delimited.takes_call hw f ha

/-- With another operator declared, the arguments of a call may use it. -/
theorem delimiters_after_bar :
    let source := "def binary|(a b) a".toUTF8.data.toList
    let table := (after [.definition] (.ofBytes source)).precedences
    (∀ c ∈ delimiters, ∀ p, (c, p) ∉ declared [.definition] (.ofBytes source)) ∧
      Takes table [.ok (.symbol ';')]
        [.name "f", .symbol '(', .symbol '(', .name "a", .symbol '|', .name "b", .symbol ')',
          .symbol ',', .name "a", .symbol ')']
        (.call "f" [.binary '|' (.variable "a") (.variable "b"), .variable "a"]) expression := by
  intro source table
  have entered : declared [.definition] (.ofBytes source) = [('|', 30)] := by decide +kernel
  have free : ∀ c ∈ delimiters, ∀ p, (c, p) ∉ declared [.definition] (.ofBytes source) := by
    intro c hc p hp
    simp only [entered, List.mem_singleton, Prod.mk.injEq] at hp
    obtain ⟨rfl, -⟩ := hp
    exact absurd hc (by decide)
  have bar : (table.get? '|').isSome := by decide +kernel
  have writable : ∀ e ∈ [.binary '|' (.variable "a") (.variable "b"), .variable "a"],
      Expr.Writable table e := by
    intro e he
    simp only [List.mem_cons, List.not_mem_nil, or_false] at he
    rcases he with rfl | rfl
    · exact .binary bar (.variable "a") (.variable "b")
    · exact .variable "a"
  have read := (delimiters_after source [.definition]).2 free Expr.isCompound [] fun _ h => h
  exact ⟨free, by simpa [Expr.argumentTokens, Expr.moreTokens, Expr.tokens, enclose,
    Expr.isCompound] using read.2 "f" _ writable⟩

/-- A definition of the delimiter as a binary operator. -/
def delimiterDefinition (c : Char) : List UInt8 :=
  ("def binary" ++ c.toString ++ "(a b) a").toUTF8.data.toList

/-- The reader behind that definition, at the start of another source. -/
def afterDelimiter (c : Char) (text : String) : Reader :=
  after [.definition, .source text.toUTF8.data.toList] (.ofBytes (delimiterDefinition c))

/-- Every delimiter can be declared as an operator. Then a comma joins two arguments to one, a
parenthesis does not close a group, and a semicolon does not end a form. -/
theorem declaredDelimiter_operator :
    (∀ c ∈ delimiters, ((afterDelimiter c "").precedences.get? c).isSome) ∧
    (match expression (afterDelimiter ',' "f(a, b)") with
      | .ok (.call "f" [.binary ',' (.variable "a") (.variable "b")]) _ => true
      | _ => false) = true ∧
    (match expression (afterDelimiter ')' "(a)") with
      | .ok _ _ => false
      | .error _ _ => true) = true ∧
    (match expression (afterDelimiter ';' "a;") with
      | .ok _ _ => false
      | .error _ _ => true) = true := by
  refine ⟨fun c hc => ?_, by decide +kernel, by decide +kernel, by decide +kernel⟩
  simp only [delimiters, List.mem_cons, List.not_mem_nil, or_false] at hc
  rcases hc with rfl | rfl | rfl | rfl <;> decide +kernel

end Read

end Kaleidoscope
