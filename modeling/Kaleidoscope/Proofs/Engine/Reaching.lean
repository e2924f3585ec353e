import Kaleidoscope.Proofs.Engine.Step
import Kaleidoscope.Proofs.Ssa.Dominance

/-!
# What a call of a checked function can come to

`Reaches` says which places a call comes to, and a place remembers the instructions that the call has
executed by then. The run of the call ends at such a place (`ending_of_runFunc`).

The structural checks ask of a value that is used only that the function defines it somewhere, and
of a join that its edges come from predecessors. This keeps a run within its tables and its blocks
(`check_reaching`). It does not keep it from reading a value before its definition, nor from a join
that has no edge for the block it is reached from (`earlyUse_strayJoin`); the first takes that
values are defined before they are used on every path, the second that joins list all predecessors.
-/

namespace Kaleidoscope

open Ssa

namespace Ssa.Func

variable {f : Func} {defined : List ValueId} {label : String}

/-- What the checks establish at each place of the code. -/
structure Checked (f : Func) : Prop where
  entry : 0 < f.blocks.size
  ended : ∀ {b : BlockId} {blk}, f.blocks[b.index]? = some blk →
    ∃ t, blk.term = some t ∧ ∀ next ∈ t.successors, next.index < f.blocks.size
  operands : ∀ {b n i}, f.InstAt b n i → ∀ v ∈ i.operands, v ∈ f.definitions
  exits : ∀ {b n t}, f.EndsAt b n t → ∀ v ∈ t.operand, v ∈ f.definitions
  slots : ∀ {b n i}, f.InstAt b n i → ∀ s ∈ i.slot?, s.index < f.slots.size

/-- Joins stand behind the entry, and have an edge for every predecessor of their block. -/
def JoinsComplete (f : Func) : Prop :=
  ∀ {b n dst incoming}, f.InstAt b n (.phi dst incoming) →
    b ≠ ⟨0⟩ ∧ ∀ j, f.precedes j b → j ∈ incoming.map (·.2)

/-- Where the check of uses finds nothing, all the values are defined. -/
theorem mem_of_undefinedAmong {vs : List ValueId} (h : f.undefinedAmong defined vs = none) :
    ∀ v ∈ vs, v ∈ defined := by
  rw [undefinedAmong, Option.map_eq_none_iff, List.find?_eq_none] at h
  simpa using h

/-- Two checks in a row have found nothing. -/
theorem of_orElse {d d' : Option Defect} (h : (d <|> d') = none) : d = none ∧ d' = none := by
  simpa using h

/-- What the check of the instructions of a block has passed: their operands are defined somewhere,
and their slots are in the table. -/
theorem of_instsDefect {b : BlockId} {insts : List Inst} :
    ∀ {atTop}, f.instsDefect defined b label atTop insts = none → ∀ i ∈ insts,
      (∀ v ∈ i.operands, v ∈ defined) ∧ ∀ s ∈ i.slot?, s.index < f.slots.size := by
  induction insts with
  | nil => exact fun _ i hi => by cases hi
  | cons first insts ih =>
    intro atTop h i hi
    unfold instsDefect at h
    obtain ⟨uses, h⟩ := of_orElse h
    have rest : (∀ s ∈ first.slot?, s.index < f.slots.size) ∧
        ∃ atTop', f.instsDefect defined b label atTop' insts = none := by
      cases first with
      | load dst slot | store slot src =>
        obtain ⟨hs, hr⟩ := of_orElse h
        refine ⟨fun s hm => ?_, _, hr⟩
        cases hm
        unfold slotDefect at hs
        split at hs
        · assumption
        · cases hs
      | phi dst incoming => exact ⟨by simp [Inst.slot?], _, (of_orElse h).2⟩
      | _ => exact ⟨by simp [Inst.slot?], _, h⟩
    obtain ⟨slot, atTop', hr⟩ := rest
    rcases List.mem_cons.1 hi with rfl | hi
    · exact ⟨mem_of_undefinedAmong uses, slot⟩
    · exact ih hr i hi

/-- A function that passes the structural checks has at each of its places what they establish. -/
theorem checked_of_check (h : f.check = .ok ()) : f.Checked := by
  have hd := defect_of_check h
  unfold defect at hd
  split at hd
  · cases hd
  next hb =>
  split at hd
  · cases hd
  have blocks : ∀ {b : BlockId} {blk}, f.blocks[b.index]? = some blk →
      ∃ t, blk.term = some t ∧ (∀ next ∈ t.successors, next.index < f.blocks.size) ∧
        f.instsDefect f.definitions b blk.label true blk.insts = none ∧
        f.undefinedAmong f.definitions t.operand.toList = none := by
    intro b blk hb
    have none := List.findSome?_eq_none_iff.1 hd (blk, b.index)
      (List.mem_zipIdx_iff_getElem?.2 (by simpa using hb))
    unfold blockDefect at none
    split at none
    · cases none
    · next t ht =>
      split at none
      · next all =>
        obtain ⟨insts, exit⟩ := of_orElse none
        exact ⟨t, ht, fun next hn => by simpa using List.all_eq_true.1 all next hn, insts, exit⟩
      · cases none
  refine ⟨?_, ?_, ?_, ?_, ?_⟩
  · simpa [isDeclaration, Array.size_pos_iff] using hb
  · intro b blk hb
    obtain ⟨t, ht, next, -⟩ := blocks hb
    exact ⟨t, ht, next⟩
  · rintro b n i ⟨blk, hb, hi⟩
    obtain ⟨t, -, -, insts, -⟩ := blocks hb
    exact (of_instsDefect insts i (List.mem_of_getElem? hi)).1
  · rintro b n t ⟨blk, hb, -, ht⟩ v hv
    obtain ⟨t', ht', -, -, exit⟩ := blocks hb
    cases ht.symm.trans ht'
    exact mem_of_undefinedAmong exit v (by simpa using hv)
  · rintro b n i ⟨blk, hb, hi⟩
    obtain ⟨t, -, -, insts, -⟩ := blocks hb
    exact (of_instsDefect insts i (List.mem_of_getElem? hi)).2

/-- Control comes to the entry from nowhere, and to another block from a predecessor. -/
theorem Path.source_cases {source : Option BlockId} {current : BlockId}
    (h : f.Path defined source current) :
    source = none ∧ current = ⟨0⟩ ∨ ∃ j, source = some j ∧ f.precedes j current := by
  cases h with
  | entry => exact .inl ⟨rfl, rfl⟩
  | step _ hb ht hn => exact .inr ⟨_, rfl, precedes_iff.2 ⟨_, _, hb, ht, hn⟩⟩

/-- Of the edges of a join only the one taken is read. -/
theorem operands_of_reads {source : Option BlockId} {i : Inst} {v : ValueId}
    (h : v ∈ i.reads source) : v ∈ i.operands := by
  cases i with
  | phi dst incoming =>
    obtain ⟨edge, he, rfl⟩ : ∃ edge, Engine.edgeFrom source incoming = some edge ∧ edge.1 = v := by
      simpa [Inst.reads] using h
    exact List.mem_map_of_mem (List.mem_of_find?_eq_some he)
  | _ => exact h

end Ssa.Func

namespace Engine

/-- Where a call stands: before an instruction of a block, or at its end. The call has executed some
instructions by then, and has written to the text. -/
structure Place where
  passed : List Inst
  source : Option BlockId
  current : BlockId
  index : Nat
  frame : Frame
  log : String

/-- The block that the terminator chooses with the values of the frame. -/
def Frame.next? (fr : Frame) : Terminator → Option BlockId
  | .branch dest => some dest
  | .select condition yes no =>
    fr.values[condition.index]?.map fun x => if x != 0.0 then yes else no
  | .ret _ => none

/-- A call of the function comes to the place. -/
inductive Reaches (call : Caller) (f : Func) (args : List Float) (log : String) : Place → Prop
  | enter {fr : Frame} :
    Frame.enter? f args = some fr → Reaches call f args log ⟨[], none, ⟨0⟩, 0, fr, log⟩
  | inst {p : Place} {blk : Block} {i : Inst} {fr : Frame} {log' : String} :
    Reaches call f args log p → f.blocks[p.current.index]? = some blk →
    blk.insts[p.index]? = some i →
    runInst call f p.source blk.label p.frame i p.log = .ok fr log' →
    Reaches call f args log ⟨p.passed ++ [i], p.source, p.current, p.index + 1, fr, log'⟩
  | leave {p : Place} {t : Terminator} {next : BlockId} :
    Reaches call f args log p → f.EndsAt p.current p.index t → p.frame.next? t = some next →
    Reaches call f args log ⟨p.passed, some p.current, next, 0, p.frame, p.log⟩

/-- At the place the call reads the value. -/
inductive Place.Reads (f : Func) (p : Place) (v : ValueId) : Prop
  | inst {i : Inst} : f.InstAt p.current p.index i → v ∈ i.reads p.source → Reads f p v
  | exit {t : Terminator} : f.EndsAt p.current p.index t → v ∈ t.operand → Reads f p v

/-- By the time the call comes to the place, the value is defined: it is a parameter, or an
instruction that was executed has defined it. -/
def Place.Defined (f : Func) (p : Place) (v : ValueId) : Prop :=
  v ∈ f.paramValues ∨ ∃ i ∈ p.passed, i.target = some v

/-- How a run ends at a place: it returns, a call that it makes fails, or a join has no edge for the
block that control came from. -/
inductive Place.Ends (call : Caller) (f : Func) (p : Place) :
    EStateM.Result Stop String Float → Prop
  | returned {v : ValueId} {x : Float} :
    f.EndsAt p.current p.index (.ret v) → p.frame.Holds v x → Ends call f p (.ok x p.log)
  | called {dst : ValueId} {callee : String} {vs : List ValueId} {xs : List Float} {e : Stop}
      {log : String} :
    f.InstAt p.current p.index (.call dst callee vs) → p.frame.getAll vs p.log = .ok xs p.log →
    call callee xs p.log = .error e log → Ends call f p (.error e log)
  | stray {blk : Block} {dst : ValueId} {incoming : List (ValueId × BlockId)} :
    f.blocks[p.current.index]? = some blk → blk.insts[p.index]? = some (.phi dst incoming) →
    edgeFrom p.source incoming = none →
    Ends call f p (.error (.unknownPredecessor f.name blk.label) p.log)

variable {call : Caller} {f : Func} {args : List Float} {log log' : String} {p : Place}
  {fr : Frame} {source : Option BlockId} {v : ValueId} {i : Inst} {label : String} {e : Stop}

section Invariant

/-- What is known of a place that a call comes to: the frame has the tables of the function, and a
path of control leads to the block, which defines what was executed. -/
structure Along (f : Func) (p : Place) : Prop where
  fits : p.frame.Fits f
  path : ∃ defined blk, f.Path defined p.source p.current ∧
    f.blocks[p.current.index]? = some blk ∧ p.index ≤ blk.insts.length ∧
    f.paramValues ++ p.passed.filterMap Inst.target =
      defined ++ (blk.insts.take p.index).filterMap Inst.target

/-- A call goes on at a successor of the block that it leaves. -/
theorem successors_of_next? {t : Terminator} {next : BlockId} (h : fr.next? t = some next) :
    next ∈ t.successors := by
  cases t with
  | branch dest =>
    cases h
    simp [Terminator.successors]
  | select condition yes no =>
    obtain ⟨x, -, rfl⟩ := Option.map_eq_some_iff.1 h
    cases x != 0.0 <;> simp [Terminator.successors]
  | ret value => cases h

theorem fits_enter (h : Frame.enter? f args = some fr) : fr.Fits f := by
  unfold Frame.enter? at h
  split at h <;> cases h
  exact ⟨by simp; omega, by simp⟩

/-- A call comes only to places that lie on a path of control. -/
theorem Reaches.along (hc : f.Checked) (h : Reaches call f args log p) : Along f p := by
  induction h with
  | enter henter =>
    obtain ⟨blk, hb⟩ : ∃ blk, f.blocks[0]? = some blk := ⟨_, Array.getElem?_eq_getElem hc.entry⟩
    exact ⟨fits_enter henter, _, blk, .entry, hb, Nat.zero_le _, by simp⟩
  | inst h hb hi hr ih =>
    obtain ⟨defined, blk', hp, hb', -, passed⟩ := ih.path
    cases hb.symm.trans hb'
    have lt := (List.getElem?_eq_some_iff.1 hi).1
    refine ⟨fits_runInst hr ih.fits, defined, _, hp, hb, lt, ?_⟩
    rw [List.filterMap_append, ← List.append_assoc, passed, List.take_add_one, hi,
      List.filterMap_append, List.append_assoc]
    rfl
  | leave h ht hn ih =>
    obtain ⟨defined, blk', hp, hb', -, passed⟩ := ih.path
    obtain ⟨blk, hb, hlen, ht⟩ := ht
    cases hb.symm.trans hb'
    obtain ⟨t', ht', inside⟩ := hc.ended hb
    cases ht.symm.trans ht'
    have next := successors_of_next? hn
    have there := Array.getElem?_eq_getElem (inside _ next)
    refine ⟨ih.fits, _, _, .step hp hb ht next, there, Nat.zero_le _, ?_⟩
    rw [passed, ← hlen, List.take_length, List.take_zero, List.filterMap_nil, List.append_nil]
    rfl

/-- At a place of a checked function only values are read that the function defines somewhere. -/
theorem Place.Reads.mem_definitions (hc : f.Checked) (h : p.Reads f v) : v ∈ f.definitions := by
  cases h with
  | inst hi hv => exact hc.operands hi v (Func.operands_of_reads hv)
  | exit ht hv => exact hc.exits ht v hv

/-- If values are defined before they are used on every path, a call reads only what it has
defined. -/
theorem Along.defined (h : Along f p) (hd : f.DefinesBeforeUse) (hr : p.Reads f v) :
    p.Defined f v := by
  obtain ⟨defined, blk, path, hb, -, passed⟩ := h.path
  obtain ⟨reads, exit⟩ := hd path hb
  have mem : v ∈ f.paramValues ++ p.passed.filterMap Inst.target := by
    rw [passed]
    cases hr with
    | inst hi hv =>
      obtain ⟨blk', hb', hi⟩ := hi
      cases hb.symm.trans hb'
      exact reads.mem hi v hv
    | exit ht hv =>
      obtain ⟨blk', hb', hlen, ht⟩ := ht
      cases hb.symm.trans hb'
      rw [← hlen, List.take_length]
      exact exit _ ht v hv
  exact (List.mem_append.1 mem).imp_right List.mem_filterMap.1

/-- A join that lists all predecessors has an edge for the block that control came from. -/
theorem Along.edgeFrom_ne_none (h : Along f p) (hj : f.JoinsComplete) {dst : ValueId}
    {incoming : List (ValueId × BlockId)} (hi : f.InstAt p.current p.index (.phi dst incoming)) :
    edgeFrom p.source incoming ≠ none := by
  obtain ⟨behind, complete⟩ := hj hi
  obtain ⟨defined, blk, path, -⟩ := h.path
  rcases path.source_cases with ⟨-, entry⟩ | ⟨j, hs, hp⟩
  · exact absurd entry behind
  · obtain ⟨edge, he, rfl⟩ := List.mem_map.1 (complete j hp)
    rw [hs]
    intro none
    exact List.find?_eq_none.1 none edge he (by simp)

end Invariant

section Ending

/-- A value within the table can be read. -/
theorem exists_holds (h : v.index < fr.values.size) : ∃ x, fr.Holds v x :=
  ⟨_, Array.getElem?_eq_getElem h⟩

theorem exists_getAll {vs : List ValueId} (h : ∀ v ∈ vs, v.index < fr.values.size) :
    ∃ xs, fr.getAll vs = pure xs := by
  induction vs with
  | nil => exact ⟨[], rfl⟩
  | cons v vs ih =>
    obtain ⟨x, hx⟩ := exists_holds (h v (by simp))
    obtain ⟨xs, hxs⟩ := ih fun w hw => h w (List.mem_cons_of_mem v hw)
    exact ⟨x :: xs, by simp only [Frame.getAll, get_of_holds hx, hxs, pure_bind]⟩

/-- An instruction within the tables fails only in a call, or as a join without the edge. -/
theorem runInst_error (hv : ∀ v ∈ i.operands, v.index < fr.values.size)
    (ht : ∀ v ∈ i.target, v.index < fr.values.size) (hs : ∀ s ∈ i.slot?, s.index < fr.slots.size)
    (h : runInst call f source label fr i log = .error e log') :
    (∃ dst callee vs xs, i = .call dst callee vs ∧ fr.getAll vs log = .ok xs log ∧
        call callee xs log = .error e log') ∨
      ∃ dst incoming, i = .phi dst incoming ∧ edgeFrom source incoming = none ∧
        e = .unknownPredecessor f.name label ∧ log' = log := by
  cases i with
  | const dst value =>
    rw [runInst, set_of_lt (ht dst rfl)] at h
    cases h
  | load dst slot =>
    obtain ⟨x, hx⟩ : ∃ x, fr.slots[slot.index]? = some x :=
      ⟨_, Array.getElem?_eq_getElem (hs slot rfl)⟩
    rw [runInst, getSlot_of_eq hx, pure_bind, set_of_lt (ht dst rfl)] at h
    cases h
  | store slot src =>
    obtain ⟨x, hx⟩ := exists_holds (hv src (by simp [Inst.operands]))
    rw [runInst, get_of_holds hx, pure_bind, setSlot_of_lt (hs slot rfl)] at h
    cases h
  | arith op dst l r =>
    obtain ⟨x, hx⟩ := exists_holds (hv l (by simp [Inst.operands]))
    obtain ⟨y, hy⟩ := exists_holds (hv r (by simp [Inst.operands]))
    rw [runInst, get_of_holds hx, pure_bind, get_of_holds hy, pure_bind,
      set_of_lt (ht dst rfl)] at h
    cases h
  | less dst l r =>
    obtain ⟨x, hx⟩ := exists_holds (hv l (by simp [Inst.operands]))
    obtain ⟨y, hy⟩ := exists_holds (hv r (by simp [Inst.operands]))
    rw [runInst, get_of_holds hx, pure_bind, get_of_holds hy, pure_bind,
      set_of_lt (ht dst rfl)] at h
    cases h
  | nonzero dst src =>
    obtain ⟨x, hx⟩ := exists_holds (hv src (by simp [Inst.operands]))
    rw [runInst, get_of_holds hx, pure_bind, set_of_lt (ht dst rfl)] at h
    cases h
  -- only a call and a join can stop; everything else stays within the tables
  | call dst callee vs =>
    obtain ⟨xs, hxs⟩ := exists_getAll (show ∀ v ∈ vs, v.index < fr.values.size from hv)
    rw [runInst, hxs, pure_bind] at h
    rcases bind_eq_error.1 h with h | ⟨x, log₁, -, h⟩
    · exact .inl ⟨dst, callee, vs, xs, rfl, by rw [hxs]; rfl, h⟩
    · rw [set_of_lt (ht dst rfl)] at h
      cases h
  | phi dst incoming =>
    cases he : edgeFrom source incoming with
    | none =>
      simp only [runInst, he] at h
      cases h
      exact .inr ⟨dst, incoming, rfl, he, rfl, rfl⟩
    | some edge =>
      obtain ⟨x, hx⟩ := exists_holds
        (hv edge.1 (List.mem_map_of_mem (List.mem_of_find?_eq_some he)))
      simp only [runInst, he] at h
      rw [get_of_holds hx, pure_bind, set_of_lt (ht dst rfl)] at h
      cases h

/-- The run is cut off by its bound, or ends at a place that the call comes to. -/
def Ending (call : Caller) (f : Func) (args : List Float) (log : String)
    (r : EStateM.Result Stop String Float) : Prop :=
  (∃ log', r = .error .outOfFuel log') ∨ ∃ p, Reaches call f args log p ∧ p.Ends call f r

theorem Along.index_lt (h : Along f p) (hd : ∀ v ∈ f.definitions, v.index < f.values.size)
    (hv : v ∈ f.definitions) : v.index < p.frame.values.size :=
  h.fits.values ▸ hd v hv

variable {fuel : Nat} {blk : Block} (hc : f.Checked)
  (hd : ∀ v ∈ f.definitions, v.index < f.values.size)

include hc hd

/-- Where an instruction fails, the run ends in one of the ways it can. -/
theorem ends_of_runInst_error (hp : Reaches call f args log p)
    (hb : f.blocks[p.current.index]? = some blk) (hi : blk.insts[p.index]? = some i)
    (h : runInst call f p.source blk.label p.frame i p.log = .error e log') :
    p.Ends call f (.error e log') := by
  have along := hp.along hc
  have place : f.InstAt p.current p.index i := ⟨blk, hb, hi⟩
  have operands : ∀ v ∈ i.operands, v.index < p.frame.values.size := fun v hv =>
    along.index_lt hd (hc.operands place v hv)
  have target : ∀ v ∈ i.target, v.index < p.frame.values.size := fun v hv =>
    along.index_lt hd (List.mem_append_right _ (Func.mem_targets place.mem_insts hv))
  have slots : ∀ s ∈ i.slot?, s.index < p.frame.slots.size := fun s hs =>
    along.fits.slots ▸ hc.slots place s hs
  rcases runInst_error operands target slots h with
    ⟨dst, callee, vs, xs, rfl, hxs, hcall⟩ | ⟨dst, incoming, rfl, hedge, rfl, rfl⟩
  · exact .called place hxs hcall
  · exact .stray hb hi hedge

/-- From the end of a block, if it is known of the next ones. -/
theorem ending_of_leave {t : Terminator}
    (go : ∀ q, Reaches call f args log q → q.index = 0 →
      Ending call f args log (runBlocks call f fuel q.source q.current q.frame q.log))
    (hp : Reaches call f args log p) (ht : f.EndsAt p.current p.index t) (label : String) :
    Ending call f args log (leave call f fuel p.current label (some t) p.frame p.log) := by
  have along := hp.along hc
  cases t with
  | ret v =>
    obtain ⟨x, hx⟩ := exists_holds (along.index_lt hd (hc.exits ht v rfl))
    rw [leave, get_of_holds hx]
    exact .inr ⟨p, hp, .returned ht hx⟩
  | branch dest => exact go _ (hp.leave ht rfl) rfl
  | select condition yes no =>
    obtain ⟨x, hx⟩ := exists_holds (along.index_lt hd (hc.exits ht condition rfl))
    have next : p.frame.next? (.select condition yes no) = some (if x != 0.0 then yes else no) := by
      rw [Frame.next?, show p.frame.values[condition.index]? = some x from hx]
      rfl
    rw [leave, get_of_holds hx, pure_bind]
    exact go _ (hp.leave ht next) rfl

/-- From the middle of a block, if it is known of the next ones. -/
theorem ending_of_runFrom
    (go : ∀ q, Reaches call f args log q → q.index = 0 →
      Ending call f args log (runBlocks call f fuel q.source q.current q.frame q.log))
    (n : Nat) (hp : Reaches call f args log p) (hb : f.blocks[p.current.index]? = some blk)
    (hn : blk.insts.length - p.index = n) :
    Ending call f args log (runFrom call f fuel p.source p.current p.index p.frame p.log) := by
  -- on the number of instructions that are left in the block
  induction n generalizing p with
  | zero =>
    obtain ⟨defined, blk', -, hb', le, -⟩ := (hp.along hc).path
    cases hb.symm.trans hb'
    obtain ⟨t, ht, -⟩ := hc.ended hb
    have ends : f.EndsAt p.current p.index t := ⟨blk, hb, by omega, ht⟩
    obtain ⟨label, run⟩ : ∃ label, runFrom call f fuel p.source p.current p.index p.frame =
        leave call f fuel p.current label (some t) p.frame := runFrom_end ends p.frame
    rw [run]
    exact ending_of_leave hc hd go hp ends label
  | succ n ih =>
    have hi := List.getElem?_eq_getElem (show p.index < blk.insts.length by omega)
    rw [runFrom_of_getElem? hb hi]
    cases hr : runInst call f p.source blk.label p.frame blk.insts[p.index] p.log with
    | ok fr log₁ =>
      rw [bind_of_ok hr]
      exact ih (hp.inst hb hi hr) hb (by show blk.insts.length - (p.index + 1) = n; omega)
    | error e log₁ =>
      rw [bind_of_error hr]
      exact .inr ⟨p, hp, ends_of_runInst_error hc hd hp hb hi hr⟩

/-- From the start of a block. -/
theorem ending_of_runBlocks (fuel : Nat) :
    ∀ q, Reaches call f args log q → q.index = 0 →
      Ending call f args log (runBlocks call f fuel q.source q.current q.frame q.log) := by
  induction fuel with
  | zero => exact fun q _ _ => .inl ⟨q.log, rfl⟩
  | succ fuel ih =>
    intro q hq h0
    obtain ⟨defined, blk, -, hb, -⟩ := (hq.along hc).path
    have run := ending_of_runFrom hc hd ih _ hq hb rfl
    rw [h0] at run
    rwa [runBlocks_eq_runFrom]

/-- The run of a call with as many arguments as the function has parameters. -/
theorem ending_of_runFunc (ha : args.length = f.arity) (fuel : Nat) (log : String) :
    Ending call f args log (runFunc call fuel f args log) := by
  have room : args.length ≤ f.values.size := by
    rw [ha]
    cases hn : f.arity with
    | zero => exact Nat.zero_le _
    | succ n =>
      -- the last parameter is a value, and values are in the table
      have last : (⟨n⟩ : ValueId) ∈ f.definitions :=
        List.mem_append_left _ (List.mem_map.2 ⟨n, by simp [hn], rfl⟩)
      exact hd _ last
  obtain ⟨fr, hfr⟩ : ∃ fr, Frame.enter? f args = some fr := by
    simp [Frame.enter?, room]
  rw [runFunc, hfr]
  exact ending_of_runBlocks hc hd fuel _ (.enter hfr) rfl

end Ending

/-- **What the checks are worth.** A call of a checked function, whose values are in its table, with
the right number of arguments. It reads only values that the function defines somewhere, and those
before their use if the function defines them on every path. The run is cut off by its bound, or it
ends where the call returns, where a call that it makes fails, or at a join without an edge for the
block that control came from. There is no such join if joins list all predecessors. -/
theorem check_reaching (hc : f.check = .ok ()) (hd : ∀ v ∈ f.definitions, v.index < f.values.size)
    (ha : args.length = f.arity) :
    (∀ p v, Reaches call f args log p → p.Reads f v →
      v ∈ f.definitions ∧ (f.DefinesBeforeUse → p.Defined f v)) ∧
    (∀ fuel, Ending call f args log (runFunc call fuel f args log)) ∧
    (f.JoinsComplete → ∀ p dst incoming, Reaches call f args log p →
      f.InstAt p.current p.index (.phi dst incoming) → edgeFrom p.source incoming ≠ none) := by
  have checked := Func.checked_of_check hc
  refine ⟨fun p v hp hr => ⟨hr.mem_definitions checked, fun h => (hp.along checked).defined h hr⟩,
    fun fuel => ending_of_runFunc checked hd ha fuel log, fun hj p dst incoming hp hi => ?_⟩
  exact (hp.along checked).edgeFrom_ne_none hj hi

theorem check_reaching_summing :
    let call := ({} : Engine).callWithin 8 1
    summing.check = .ok () ∧ (∀ v ∈ summing.definitions, v.index < summing.values.size) ∧
    (∀ p v, Reaches call summing [1.0] "" p → p.Reads summing v →
      v ∈ summing.definitions ∧ (summing.DefinesBeforeUse → p.Defined summing v)) ∧
    (∀ fuel, Ending call summing [1.0] "" (runFunc call fuel summing [1.0] "")) ∧
    (summing.JoinsComplete → ∀ p dst incoming, Reaches call summing [1.0] "" p →
      summing.InstAt p.current p.index (.phi dst incoming) → edgeFrom p.source incoming ≠ none) :=
  have accepted : summing.check = .ok () := by rfl
  have inTable : ∀ v ∈ summing.definitions, v.index < summing.values.size := by decide
  ⟨accepted, inTable, check_reaching accepted inTable rfl⟩

/-- The first instruction reads what the second defines. -/
def earlyUse : Func where
  name := "early"
  params := []
  blocks := #[
    { label := "entry"
      insts := [.nonzero ⟨0⟩ ⟨1⟩, .const ⟨1⟩ 1.0]
      term := some (.ret ⟨0⟩) }]
  values := #["a", "b"]

/-- The join has an edge for the block that is never entered, and none for the other predecessor. -/
def strayJoin : Func where
  name := "stray"
  params := ["x"]
  blocks := #[
    { label := "entry", term := some (.branch ⟨1⟩) },
    { label := "join"
      insts := [.phi ⟨1⟩ [(⟨0⟩, ⟨2⟩)]]
      term := some (.ret ⟨1⟩) },
    { label := "other", term := some (.branch ⟨1⟩) }]
  values := #["x", "p"]

/-- **The checks are no gate.** They accept a function that reads a value before its definition, and
a function whose run ends at a join without the edge. -/
theorem earlyUse_strayJoin :
    (earlyUse.check = .ok () ∧ (∀ v ∈ earlyUse.definitions, v.index < earlyUse.values.size) ∧
      ∃ p, Reaches (({} : Engine).callWithin 8 256) earlyUse [] "" p ∧ p.Reads earlyUse ⟨1⟩ ∧
        ¬ p.Defined earlyUse ⟨1⟩) ∧
    (strayJoin.check = .ok () ∧ (∀ v ∈ strayJoin.definitions, v.index < strayJoin.values.size) ∧
      runFunc (({} : Engine).callWithin 8 256) 8 strayJoin [1.0] "" =
        .error (.unknownPredecessor "stray" "join") "") := by
  refine ⟨⟨by rfl, by decide, _, .enter rfl, .inst ⟨_, rfl, rfl⟩ (by decide), ?_⟩, by rfl, by decide,
    by rfl⟩
  rintro (parameter | ⟨i, executed, -⟩)
  · exact absurd parameter (by decide)
  · cases executed

end Engine

end Kaleidoscope
