import Kaleidoscope.Proofs.Reading.Invariant
import Kaleidoscope.Form.Reading

/-!
# How forms are spelled

Names are words of letters and digits, and operators are signs that are neither. So the name of an
operator's function is never a name that a source can spell, and neither is the name of the function
that wraps a bare expression. `reads_form` says it of every form that is read, together with the
number of parameters that the head of a prototype asks for.
-/

namespace Kaleidoscope

/-- The text is made of letters and digits. -/
def Word (text : String) : Prop :=
  ∀ c ∈ text.toList, c.isAlphanum = true

/-- The character is neither a letter nor a digit. -/
def Sign (c : Char) : Prop :=
  c.isAlphanum = false

/-- The name or the operator of the prototype is that of a token, and it has as many parameters as
its head asks for. -/
def Prototype.Spelled (N : String → Prop) (S : Char → Prop) (proto : Prototype) : Prop :=
  match proto.head with
  | .function name => N name
  | .unary op => S op ∧ proto.arity = 1
  | .binary op _ => S op ∧ proto.arity = 2

/-- The prototype is named by a word or a sign, and has as many parameters as its head asks for. -/
def Prototype.Regular (proto : Prototype) : Prop :=
  match proto.head with
  | .function name => Word name
  | .unary op => Sign op ∧ proto.arity = 1
  | .binary op _ => Sign op ∧ proto.arity = 2

/-- The prototype is regular, and its parameters are words. -/
def Prototype.Readable (proto : Prototype) : Prop :=
  proto.Regular ∧ ∀ name ∈ proto.params, Word name

/-- The names and operators of the form are words and signs, and a bare expression is wrapped. -/
def Form.Regular : Form → Prop
  | .separator => True
  | .definition d => d.proto.Regular ∧ d.body.Spelled Word Sign
  | .declaration proto => proto.Regular
  | .expression d => ∃ body, d = .anonymous body ∧ body.Spelled Word Sign

section Names

/-- Words have no underscores. -/
theorem not_word_anonymousName : ¬ Word anonymousName := by
  intro h
  exact absurd (h '_' (by decide)) (by decide)

/-- The last character of an operator's name is no part of a word. -/
theorem ne_of_word {text front : String} {op : Char} (hw : Word text) (hs : Sign op) :
    text ≠ front ++ op.toString := by
  rintro rfl
  have := hw op (by simp)
  rw [hs] at this
  cases this

/-- The two names begin with different letters. -/
theorem unaryName_ne_binaryName (op op' : Char) : unaryName op ≠ binaryName op' := by
  intro h
  have := congrArg (fun s : String => s.toList.head?) h
  simp [unaryName, binaryName] at this

theorem unaryName_ne_anonymousName (op : Char) : unaryName op ≠ anonymousName := by
  intro h
  have := congrArg (fun s : String => s.toList.head?) h
  simp [unaryName, anonymousName] at this

theorem binaryName_ne_anonymousName (op : Char) : binaryName op ≠ anonymousName := by
  intro h
  have := congrArg (fun s : String => s.toList.head?) h
  simp [binaryName, anonymousName] at this

/-- No prototype that is read has the name that wraps bare expressions. -/
theorem Prototype.Regular.name_ne_anonymousName {proto : Prototype} (h : proto.Regular) :
    proto.name ≠ anonymousName := by
  obtain ⟨head, params⟩ := proto
  cases head with
  | function name =>
    rintro (rfl : name = anonymousName)
    exact not_word_anonymousName h
  | unary op => exact unaryName_ne_anonymousName op
  | binary op p => exact binaryName_ne_anonymousName op

/-- What is named like the function of a unary operator has one parameter. -/
theorem Prototype.Regular.arity_of_unaryName {proto : Prototype} (h : proto.Regular) {op : Char}
    (hs : Sign op) (hn : proto.name = unaryName op) : proto.arity = 1 := by
  obtain ⟨head, params⟩ := proto
  cases head with
  | function name => exact absurd hn (ne_of_word h hs)
  | unary op' => exact h.2
  | binary op' p => exact absurd hn.symm (unaryName_ne_binaryName op op')

/-- What is named like the function of a binary operator has two parameters. -/
theorem Prototype.Regular.arity_of_binaryName {proto : Prototype} (h : proto.Regular) {op : Char}
    (hs : Sign op) (hn : proto.name = binaryName op) : proto.arity = 2 := by
  obtain ⟨head, params⟩ := proto
  cases head with
  | function name => exact absurd hn (ne_of_word h hs)
  | unary op' => exact absurd hn (unaryName_ne_binaryName op' op)
  | binary op' p => exact h.2

end Names

section Tokens

/-- A word becomes a name or a keyword. -/
theorem spelled_ofWord {text : String} (h : Word text) : (Token.ofWord text).Spelled Word Sign := by
  unfold Token.ofWord
  split
  · trivial
  · exact h

/-- A token is a run of letters and digits, a number, or a character that begins neither. -/
theorem spelled_of_scanAt {offset : Nat} {c : Char} {rest after : List Char} {t : Token}
    (h : scanAt offset c rest = .token t after) : t.Spelled Word Sign := by
  unfold scanAt at h
  split at h
  · cases h
  · split at h
    · split at h <;> cases h
      trivial
    · next hl =>
      split at h <;> cases h
      · next ha =>
        apply spelled_ofWord
        intro d hd
        rw [String.toList_ofList] at hd
        rcases List.mem_cons.1 hd with rfl | hd
        · simp [Char.isAlphanum, ha]
        · exact List.all_eq_true.1 (List.all_takeWhile (p := Char.isAlphanum)) d hd
      · next ha =>
        simp only [Decimal.isLiteralChar, Bool.or_eq_true, not_or] at hl
        show c.isAlphanum = false
        simp [Char.isAlphanum, ha, hl.1]

theorem spelled_of_scan {cs after : List Char} {t : Token} (h : scan cs = .token t after) :
    t.Spelled Word Sign := by
  unfold scan at h
  split at h
  · cases h
  · exact spelled_of_scanAt h

/-- Whichever line a token comes from, it is spelled as tokens are. -/
theorem spelled_of_nextFrom {pending : List (List UInt8)} :
    ∀ {rest : List Char} {t : Token} {l : Lexer}, Lexer.nextFrom rest pending = (.ok t, l) →
      t.Spelled Word Sign := by
  induction pending with
  | nil =>
    intro rest t l h
    unfold Lexer.nextFrom at h
    split at h <;> cases h
    · next hs => exact spelled_of_scan hs
    · trivial
  | cons line more ih =>
    intro rest t l h
    unfold Lexer.nextFrom at h
    split at h
    · next hs =>
      cases h
      exact spelled_of_scan hs
    · cases h
    · split at h
      · exact ih h
      · cases h

end Tokens

namespace Read

/-- The token that was looked at is spelled as tokens are. -/
def Spelled (r : Reader) : Prop :=
  ∀ t ∈ r.looked, t.Spelled Word Sign

/-- The tokens that a reader shows are spelled as tokens are, as the one in view is. -/
theorem lasting_spelled : Lasting Spelled (Token.Spelled Word Sign) where
  peek := {
    ok := by
      intro r t s hi h
      unfold peek at h
      split at h
      · next hl =>
        cases h
        exact ⟨hi, hi t hl⟩
      · split at h <;> cases h
        next hn =>
        have ht := spelled_of_nextFrom hn
        refine ⟨fun t' ht' => ?_, ht⟩
        cases ht'
        exact ht
    error := by
      intro r e s hi h
      unfold peek at h
      split at h
      · cases h
      · next hl =>
        split at h <;> cases h
        refine ⟨fun t ht => ?_, nofun⟩
        rw [hl] at ht
        cases ht }
  advance := {
    ok := by
      intro r x s hi h
      cases h
      exact ⟨nofun, trivial⟩
    error := fun _ h => nomatch h }

section Prototypes

variable {I : Reader → Prop} {N : String → Prop} {S : Char → Prop}

theorem reads_operatorPrecedence (h : Lasting I (Token.Spelled N S)) :
    Reads I (fun _ => True) operatorPrecedence := by
  unfold operatorPrecedence
  apply h.peek.bind
  intro t _
  split
  · dsimp only
    split
    · exact keeps_throw nofun
    · exact h.advance.bind fun _ _ => keeps_pure trivial
  · exact keeps_pure trivial

theorem reads_declarable (h : Lasting I (Token.Spelled N S)) (wanted : Expectation) :
    Reads I S (demand declarable? wanted) := by
  apply (reads_demand h _ wanted).mono
  intro op hop
  obtain ⟨t, ht, hc⟩ := hop
  exact spelled_symbol ht (Option.filter_eq_some_iff.1 hc).1

/-- The head of a prototype has a name or an operator of the text. -/
theorem reads_head (h : Lasting I (Token.Spelled N S)) : Reads I (fun head => match head with
    | .function name => N name
    | .unary op => S op
    | .binary op _ => S op) head := by
  unfold head
  apply (reads_demand h _ _).bind
  intro opening ho
  obtain ⟨t, ht, hc⟩ := ho
  cases opening with
  | function name =>
    apply keeps_pure
    unfold HeadOpening.ofToken? at hc
    split at hc <;> cases hc
    exact ht
  | unary => exact (reads_declarable h _).bind fun op hop => keeps_pure hop
  | binary =>
    exact (reads_declarable h _).bind fun op hop =>
      (reads_operatorPrecedence h).bind fun _ _ => keeps_pure hop

theorem reads_namesWithin (h : Lasting I (Token.Spelled N S)) (n : Nat) :
    Reads I (fun names => ∀ name ∈ names, N name) (namesWithin n) := by
  induction n with
  | zero => exact keeps_pure (by simp)
  | succ n ih =>
    unfold namesWithin
    apply (reads_accept h _).bind
    intro o ho
    cases o with
    | none => exact keeps_pure (by simp)
    | some name =>
      obtain ⟨t, ht, hc⟩ := ho name rfl
      have hn : N name := spelled_name ht hc
      exact ih.bind fun names hnames => keeps_pure (List.forall_mem_cons.2 ⟨hn, hnames⟩)

theorem reads_names (h : Lasting I (Token.Spelled N S)) :
    Reads I (fun names => ∀ name ∈ names, N name) names where
  ok hi hr := (reads_namesWithin h _).ok hi hr
  error hi hr := (reads_namesWithin h _).error hi hr

/-- A prototype has as many parameters as its head asks for, and they are named by tokens too. -/
theorem reads_prototype (h : Lasting I (Token.Spelled N S)) :
    Reads I (fun proto => proto.Spelled N S ∧ ∀ name ∈ proto.params, N name) prototype := by
  unfold prototype
  refine (reads_head h).bind fun head hhead => (reads_symbol h _ _).bind fun _ _ => ?_
  refine (reads_names h).bind fun params hparams => (reads_symbol h _ _).bind fun _ _ => ?_
  cases head with
  | function name => exact keeps_pure ⟨hhead, hparams⟩
  | unary op =>
    simp only [operands]
    split
    · exact keeps_throw nofun
    · next hn => exact keeps_pure ⟨⟨hhead, Decidable.not_not.1 hn⟩, hparams⟩
  | binary op p =>
    simp only [operands]
    split
    · exact keeps_throw nofun
    · next hn => exact keeps_pure ⟨⟨hhead, Decidable.not_not.1 hn⟩, hparams⟩

end Prototypes

section Forms

/-- The precedences have nothing to do with the spelling. -/
theorem reads_modify {change : Reader → Reader} (h : ∀ r, (change r).looked = r.looked) :
    Reads Spelled (fun _ => True) (modify change : Read Unit) where
  ok := by
    intro r x s hi hr
    cases hr
    exact ⟨fun t ht => hi t (h r ▸ ht), trivial⟩
  error _ hr := nomatch hr

theorem reads_declareOperator (proto : Prototype) :
    Reads Spelled (fun _ => True) (declareOperator proto) := by
  unfold declareOperator
  split
  · apply keeps_get.bind
    intro r _
    split
    · next e he =>
      apply keeps_throw
      unfold Precedences.declare at he
      split at he <;> cases he
      intro cause h
      cases h
    · refine Keeps.bind (reads_modify fun _ => rfl) fun _ _ => ?_
      exact keeps_pure trivial
  · exact keeps_pure trivial

/-- A definition, with its return out of the protected block made plain. -/
theorem definition_eq : definition = (do
    Read.keyword .define .define
    let proto ← Read.prototype
    let takeBack ← Read.declareOperator proto
    tryCatch (do return ⟨proto, ← Read.expression⟩) fun fault => do
      modify fun r => { r with precedences := takeBack r.precedences }
      throw fault) := by
  unfold definition
  congr
  funext _
  congr
  funext proto
  congr
  funext takeBack
  funext r
  simp only [bind, EStateM.bind, tryCatch, tryCatchThe, MonadExceptOf.tryCatch]
  delta EStateM.tryCatch
  simp only [EStateM.bind]
  cases expression r <;> rfl

/-- A definition is read with a prototype and a body of the text. -/
theorem reads_definition :
    Reads Spelled (fun d => d.proto.Readable ∧ d.body.Spelled Word Sign) definition := by
  rw [definition_eq]
  refine (reads_keyword lasting_spelled _ _).bind fun _ _ =>
    (reads_prototype lasting_spelled).bind fun proto hp => ?_
  refine (reads_declareOperator proto).bind fun takeBack _ => Keeps.catch ?_ fun e he => ?_
  · exact (reads_expression lasting_spelled).bind fun body hb => keeps_pure ⟨hp, hb⟩
  · exact Keeps.bind (reads_modify fun _ => rfl) fun _ _ => keeps_throw he

theorem reads_declaration : Reads Spelled Prototype.Readable declaration := by
  unfold declaration
  refine (reads_keyword lasting_spelled _ _).bind fun _ _ =>
    (reads_prototype lasting_spelled).bind fun proto hp => ?_
  exact (reads_declareOperator proto).bind fun _ _ => keeps_pure hp

/-- One case for each token that a form opens with. -/
theorem reads_formAt (t : Token) : Reads Spelled (fun o => ∀ form ∈ o, form.Regular) (formAt t) := by
  unfold formAt
  split
  · exact keeps_pure (by simp)
  · exact lasting_spelled.advance.bind fun _ _ => keeps_pure (by simp [Form.Regular])
  · exact reads_definition.bind fun d hd => keeps_pure fun form hf => by
      cases hf
      exact ⟨hd.1.1, hd.2⟩
  · exact reads_declaration.bind fun proto hp => keeps_pure fun form hf => by
      cases hf
      exact hp.1
  · refine Keeps.bind (P := fun d => ∃ body, d = .anonymous body ∧ body.Spelled Word Sign) ?_
      fun d hd => keeps_pure (by simpa [Form.Regular] using hd)
    exact (reads_expression lasting_spelled).bind fun body hb => keeps_pure ⟨body, rfl, hb⟩

/-- Every form that is read is regular. -/
theorem reads_form : Reads Spelled (fun o => ∀ form ∈ o, form.Regular) form := by
  unfold form
  refine Keeps.catch ?_ fun e he => ?_
  · exact lasting_spelled.peek.bind fun t _ => reads_formAt t
  · exact lasting_spelled.advance.bind fun _ _ => keeps_throw he

end Forms

end Read

end Kaleidoscope
