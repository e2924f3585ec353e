import Kaleidoscope.Proofs.Ssa.Folding

/-!
# Strict form

A walk of control begins at the entry and goes along the terminators. An instruction dominates a
place if every walk to the place passes the instruction before. `Func.StrictSsa` is what is known of
the code that lowering makes, and more than the structural checks ask for: every block has an exit
and can be reached, every value of the table is defined exactly once, by a definition that dominates
its uses, and a join stands alone at the top of its block and has one edge for each predecessor.

`Func.Shaped` is the part of it that does not speak of dominance. The rest follows when values are
defined before they are used on every path (`Shaped.strictSsa`). A function in strict form is
accepted (`StrictSsa.check`), and folding keeps it in strict form (`StrictSsa.fold`).
-/

namespace Kaleidoscope.Ssa

/-- The slot that an instruction reads or writes. -/
def Inst.slot? : Inst → Option SlotId
  | .load _ slot | .store slot _ => some slot
  | _ => none

/-- What an instruction reads is defined before it. -/
theorem ReadsDefined.mem {source : Option BlockId} {i : Inst} {insts : List Inst} :
    ∀ {defined n}, ReadsDefined source defined insts → insts[n]? = some i →
      ∀ v ∈ i.reads source, v ∈ defined ++ (insts.take n).filterMap Inst.target := by
  induction insts with
  | nil => simp
  | cons first rest ih =>
    intro defined n h hi v hv
    cases n with
    | zero =>
      cases hi
      simpa using h.1 v hv
    | succ n =>
      have := ih h.2 hi v hv
      rw [List.append_assoc] at this
      cases ht : first.target <;> simpa [List.filterMap_cons, ht] using this

namespace Func

/-- Control can go from the entry through these blocks, one after another, to the start of a
block. -/
inductive Walk (f : Func) : List BlockId → BlockId → Prop
  | entry : Walk f [] ⟨0⟩
  | step {passed : List BlockId} {current next : BlockId} :
    Walk f passed current → f.precedes current next → Walk f (passed ++ [current]) next

/-- Whoever comes to the place before the `n'`-th instruction of `b'` has passed the `n`-th
instruction of `b`. -/
def Dominates (f : Func) (b : BlockId) (n : Nat) (b' : BlockId) (n' : Nat) : Prop :=
  b = b' ∧ n < n' ∨ ∀ passed, f.Walk passed b' → b ∈ passed

/-- The instruction at the place defines the value. -/
def DefinedAt (f : Func) (v : ValueId) (b : BlockId) (n : Nat) : Prop :=
  ∃ i, f.InstAt b n i ∧ i.target = some v

/-- The value is a parameter, or its definition dominates the place. -/
def Available (f : Func) (v : ValueId) (b : BlockId) (n : Nat) : Prop :=
  v ∈ f.paramValues ∨ ∃ b' n', f.DefinedAt v b' n' ∧ f.Dominates b' n' b n

/-- The blocks end and hang together, every value of the table has one definition, joins stand at
the top of their blocks and list the predecessors, and the slots exist. -/
structure Shaped (f : Func) : Prop where
  entry : 0 < f.blocks.size
  ended : ∀ {b : Nat} {blk}, f.blocks[b]? = some blk →
    ∃ t, blk.term = some t ∧ ∀ next ∈ t.successors, next.index < f.blocks.size
  reached : ∀ {b : BlockId}, b.index < f.blocks.size → ∃ passed, f.Walk passed b
  defined : f.definitions.Perm ((List.range f.values.size).map ValueId.mk)
  joins : ∀ {b n dst incoming}, f.InstAt b n (.phi dst incoming) →
    n = 0 ∧ (incoming.map (·.2)).Nodup ∧ ∀ j, j ∈ incoming.map (·.2) ↔ f.precedes j b
  slots : ∀ {b n i}, f.InstAt b n i → ∀ s ∈ i.slot?, s.index < f.slots.size

/-- A function of this shape whose definitions dominate their uses. A use by a join counts at the
end of the block that the value comes from. -/
structure StrictSsa (f : Func) : Prop extends Shaped f where
  uses : ∀ {b n i}, f.InstAt b n i → i.isPhi = false → ∀ v ∈ i.operands, f.Available v b n
  exits : ∀ {b n t}, f.EndsAt b n t → ∀ v ∈ t.operand, f.Available v b n
  edges : ∀ {b n dst incoming}, f.InstAt b n (.phi dst incoming) → ∀ edge ∈ incoming,
    ∃ blk, f.blocks[edge.2.index]? = some blk ∧ f.Available edge.1 edge.2 blk.insts.length
  values : ∀ {b n i}, f.InstAt b n i →
    ∀ v ∈ i.target.toList ++ i.operands, v.index < f.values.size
  exitValues : ∀ {b n t}, f.EndsAt b n t → ∀ v ∈ t.operand, v.index < f.values.size

section Places

variable {f : Func} {v : ValueId} {b b' j k : BlockId} {n n' : Nat} {i i' : Inst}

/-- A block precedes the successors of its terminator. -/
theorem precedes_iff : f.precedes j k = true ↔
    ∃ blk t, f.blocks[j.index]? = some blk ∧ blk.term = some t ∧ k ∈ t.successors := by
  unfold precedes
  cases f.blocks[j.index]? with
  | none => simp
  | some blk =>
    obtain ⟨label, insts, term⟩ := blk
    cases term <;> simp

theorem InstAt.eq (h : f.InstAt b n i) (h' : f.InstAt b n i') : i = i' := by
  obtain ⟨blk, hb, hi⟩ := h
  obtain ⟨blk', hb', hi'⟩ := h'
  cases hb.symm.trans hb'
  exact Option.some.inj (hi.symm.trans hi')

theorem InstAt.lt (h : f.InstAt b n i) : b.index < f.blocks.size := by
  obtain ⟨blk, hb, -⟩ := h
  exact (Array.getElem?_eq_some_iff.1 hb).1

theorem targets_eq (f : Func) : f.targets = f.blocks.toList.flatMap Block.targets :=
  List.filterMap_flatMap

theorem InstAt.mem_insts (h : f.InstAt b n i) : i ∈ f.insts := by
  obtain ⟨blk, hb, hi⟩ := h
  exact Func.mem_insts (Array.mem_toList_iff.2 (Array.mem_of_getElem? hb)) (List.mem_of_getElem? hi)

/-- Every instruction of a function has a place. -/
theorem exists_instAt (h : i ∈ f.insts) : ∃ b n, f.InstAt b n i := by
  obtain ⟨blk, hb, hi⟩ := List.mem_flatMap.1 h
  obtain ⟨k, hk, rfl⟩ := List.mem_iff_getElem.1 hb
  obtain ⟨n, hn, rfl⟩ := List.mem_iff_getElem.1 hi
  exact ⟨⟨k⟩, n, _, by simp, List.getElem?_eq_getElem hn⟩

theorem DefinedAt.mem_targets (h : f.DefinedAt v b n) : v ∈ f.targets := by
  obtain ⟨i, hi, ht⟩ := h
  exact Func.mem_targets hi.mem_insts ht

/-- A value that has one definition has it in one place. -/
theorem DefinedAt.eq (hn : f.targets.Nodup) (h : f.DefinedAt v b n) (h' : f.DefinedAt v b' n') :
    b = b' ∧ n = n' := by
  obtain ⟨i, ⟨blk, hb, hi⟩, ht⟩ := h
  obtain ⟨i', ⟨blk', hb', hi'⟩, ht'⟩ := h'
  rw [targets_eq, List.Nodup, List.pairwise_flatMap] at hn
  obtain ⟨inside, across⟩ := hn
  have mem : v ∈ blk.targets := List.mem_filterMap.2 ⟨i, List.mem_of_getElem? hi, ht⟩
  have mem' : v ∈ blk'.targets := List.mem_filterMap.2 ⟨i', List.mem_of_getElem? hi', ht'⟩
  have apart : ∀ {k k' : Nat} {c c' : Block}, f.blocks[k]? = some c → f.blocks[k']? = some c' →
      k < k' → v ∈ c.targets → v ∉ c'.targets := by
    intro k k' c c' hc hc' hlt hv hv'
    obtain ⟨hk, rfl⟩ := Array.getElem?_eq_some_iff.1 hc
    obtain ⟨hk', rfl⟩ := Array.getElem?_eq_some_iff.1 hc'
    exact List.pairwise_iff_getElem.1 across k k' (by simpa) (by simpa) hlt v hv v hv' rfl
  have same : b = b' := by
    rcases Nat.lt_trichotomy b.index b'.index with hlt | he | hlt
    · exact absurd mem' (apart hb hb' hlt mem)
    · exact BlockId.index_inj.1 he
    · exact absurd mem (apart hb' hb hlt mem')
  subst same
  rw [hb] at hb'
  cases hb'
  refine ⟨rfl, ?_⟩
  have once := inside blk (Array.mem_toList_iff.2 (Array.mem_of_getElem? hb))
  rw [Block.targets, List.pairwise_filterMap, List.pairwise_iff_getElem] at once
  obtain ⟨hlt, rfl⟩ := List.getElem?_eq_some_iff.1 hi
  obtain ⟨hlt', rfl⟩ := List.getElem?_eq_some_iff.1 hi'
  rcases Nat.lt_trichotomy n n' with h | h | h
  · exact absurd rfl (once n n' hlt hlt' h v ht v ht')
  · exact h
  · exact absurd rfl (once n' n hlt' hlt h v ht' v ht)

end Places

section Paths

variable {f : Func} {v : ValueId} {b j : BlockId} {n : Nat} {passed : List BlockId}
  {defined : List ValueId} {source : Option BlockId} {blk : Block} {i : Inst}

/-- Some block of the list defines the value. -/
def DefinedIn (f : Func) (v : ValueId) (passed : List BlockId) : Prop :=
  ∃ b ∈ passed, ∃ blk, f.blocks[b.index]? = some blk ∧ v ∈ blk.targets

/-- A walk is a path, and what is defined on it is a parameter or was defined by a block that it has
passed. -/
theorem Walk.exists_path (h : f.Walk passed b) : ∃ defined source, f.Path defined source b ∧
    ∀ v ∈ defined, v ∈ f.paramValues ∨ f.DefinedIn v passed := by
  induction h with
  | entry => exact ⟨_, _, .entry, fun v hv => .inl hv⟩
  | @step passed current next _ hp ih =>
    obtain ⟨defined, source, path, from_⟩ := ih
    obtain ⟨blk, t, hb, ht, hn⟩ := precedes_iff.1 hp
    refine ⟨_, _, .step path hb ht hn, fun v hv => ?_⟩
    rcases List.mem_append.1 hv with hv | hv
    · refine (from_ v hv).imp_right fun ⟨c, hc, hin⟩ => ?_
      exact ⟨c, List.mem_append_left _ hc, hin⟩
    · exact .inr ⟨current, by simp, blk, hb, hv⟩

theorem mem_definitions : v ∈ f.definitions ↔ v ∈ f.paramValues ∨ v ∈ f.targets :=
  List.mem_append

end Paths

section Strictness

variable {f : Func} {v : ValueId} {b j : BlockId} {n : Nat} {blk : Block} {i : Inst}

theorem Shaped.nodup (h : f.Shaped) : f.definitions.Nodup :=
  h.defined.nodup_iff.2 (List.Pairwise.map ValueId.mk
    (fun _ _ hne he => hne (congrArg ValueId.index he)) List.nodup_range)

/-- All values that are defined are in the table. -/
theorem Shaped.index_lt (h : f.Shaped) (hv : v ∈ f.definitions) : v.index < f.values.size := by
  obtain ⟨k, hk, rfl⟩ := List.mem_map.1 (h.defined.mem_iff.1 hv)
  exact List.mem_range.1 hk

theorem Available.mem_definitions (h : f.Available v b n) : v ∈ f.definitions := by
  rcases h with hp | ⟨c, m, hd, -⟩
  · exact Func.mem_definitions.2 (.inl hp)
  · exact Func.mem_definitions.2 (.inr hd.mem_targets)

/-- What is defined on every path to a place is available there. -/
theorem Shaped.available (h : f.Shaped) (hb : f.blocks[b.index]? = some blk)
    (hp : ∀ {defined source}, f.Path defined source b →
      v ∈ defined ++ (blk.insts.take n).filterMap Inst.target) : f.Available v b n := by
  have nodup := List.nodup_append.1 h.nodup
  have before : v ∈ (blk.insts.take n).filterMap Inst.target → ∃ m < n, f.DefinedAt v b m := by
    intro hv
    obtain ⟨i, hi, ht⟩ := List.mem_filterMap.1 hv
    obtain ⟨m, hm, rfl⟩ := List.mem_iff_getElem.1 hi
    rw [List.length_take] at hm
    exact ⟨m, by omega, _, ⟨blk, hb, by simp⟩, ht⟩
  have onWalk : ∀ {passed}, f.Walk passed b →
      v ∈ f.paramValues ∨ f.DefinedIn v passed ∨ ∃ m < n, f.DefinedAt v b m := by
    intro passed hw
    obtain ⟨defined, source, path, origin⟩ := hw.exists_path
    rcases List.mem_append.1 (hp path) with hv | hv
    · exact (origin v hv).imp_right .inl
    · exact .inr (.inr (before hv))
  have at_ : ∀ {passed}, f.DefinedIn v passed → ∃ c ∈ passed, ∃ m, f.DefinedAt v c m := by
    rintro passed ⟨c, hc, blk', hb', hv⟩
    obtain ⟨i, hi, ht⟩ := List.mem_filterMap.1 hv
    obtain ⟨m, hm, rfl⟩ := List.mem_iff_getElem.1 hi
    exact ⟨c, hc, m, _, ⟨blk', hb', List.getElem?_eq_getElem hm⟩, ht⟩
  -- the definition, found on some walk
  obtain ⟨passed, walk⟩ := h.reached (Array.getElem?_eq_some_iff.1 hb).1
  have site : v ∈ f.paramValues ∨ ∃ c m, f.DefinedAt v c m := by
    rcases onWalk walk with hv | hv | ⟨m, -, hd⟩
    · exact .inl hv
    · obtain ⟨c, -, m, hd⟩ := at_ hv
      exact .inr ⟨c, m, hd⟩
    · exact .inr ⟨b, m, hd⟩
  refine site.imp_right fun ⟨c, m, hd⟩ => ⟨c, m, hd, ?_⟩
  by_cases inside : ∃ m' < n, f.DefinedAt v b m'
  · obtain ⟨m', hlt, hd'⟩ := inside
    obtain ⟨rfl, rfl⟩ := hd.eq nodup.2.1 hd'
    exact .inl ⟨rfl, hlt⟩
  · refine .inr fun passed hw => ?_
    rcases onWalk hw with hv | hv | hin
    · exact absurd rfl (nodup.2.2 v hv v hd.mem_targets)
    · obtain ⟨c', hc, m', hd'⟩ := at_ hv
      exact (hd'.eq nodup.2.1 hd).1 ▸ hc
    · exact absurd hin inside

/-- A join that has one edge for each block takes the edge of the block that control came from. -/
theorem edgeFrom_of_mem {incoming : List (ValueId × BlockId)} (hn : (incoming.map (·.2)).Nodup)
    {edge : ValueId × BlockId} (he : edge ∈ incoming) :
    Engine.edgeFrom (some edge.2) incoming = some edge := by
  induction incoming with
  | nil => cases he
  | cons first rest ih =>
    rw [List.map_cons, List.nodup_cons] at hn
    rcases List.mem_cons.1 he with rfl | he
    · simp [Engine.edgeFrom]
    · have hne : first.2 ≠ edge.2 := fun e => hn.1 (e ▸ List.mem_map_of_mem he)
      have := ih hn.2 he
      simpa [Engine.edgeFrom, hne] using this

/-- Where values are defined before they are used on every path, definitions dominate uses. -/
theorem Shaped.strictSsa (h : f.Shaped) (hd : f.DefinesBeforeUse) : f.StrictSsa := by
  have uses : ∀ {b n i}, f.InstAt b n i → i.isPhi = false → ∀ v ∈ i.operands,
      f.Available v b n := by
    rintro b n i ⟨blk, hb, hi⟩ hphi v hv
    refine h.available hb fun {defined source} path => (hd path hb).1.mem hi v ?_
    cases i with
    | phi => cases hphi
    | _ => exact hv
  have exits : ∀ {b n t}, f.EndsAt b n t → ∀ v ∈ t.operand, f.Available v b n := by
    rintro b n t ⟨blk, hb, rfl, ht⟩ v hv
    refine h.available hb fun {defined source} path => ?_
    rw [List.take_length]
    exact (hd path hb).2 t ht v hv
  -- a join reads at its top what control brings, which is what the source has at its end
  have edges : ∀ {b n dst incoming}, f.InstAt b n (.phi dst incoming) → ∀ edge ∈ incoming,
      ∃ blk, f.blocks[edge.2.index]? = some blk ∧
        f.Available edge.1 edge.2 blk.insts.length := by
    intro b n dst incoming hi edge he
    obtain ⟨rfl, nodup, sources⟩ := h.joins hi
    obtain ⟨blk', hb', hi'⟩ := hi
    obtain ⟨blk, t, hb, ht, hn⟩ := precedes_iff.1 ((sources _).1 (List.mem_map_of_mem he))
    refine ⟨blk, hb, h.available hb fun {defined source} path => ?_⟩
    have read := (hd (.step path hb ht hn) hb').1.mem hi' edge.1
      (by simp [Inst.reads, edgeFrom_of_mem nodup he])
    rw [List.take_length]
    simpa [Block.targets] using read
  have known : ∀ {b n i}, f.InstAt b n i → ∀ v ∈ i.target.toList ++ i.operands,
      v ∈ f.definitions := by
    intro b n i hi v hv
    rcases List.mem_append.1 hv with hv | hv
    · exact mem_definitions.2 (.inr (Func.mem_targets hi.mem_insts (by simpa using hv)))
    · cases i with
      | phi dst incoming =>
        obtain ⟨edge, he, rfl⟩ := List.mem_map.1 hv
        obtain ⟨blk, -, ha⟩ := edges hi edge he
        exact ha.mem_definitions
      | _ => exact (uses hi rfl v hv).mem_definitions
  exact {
    toShaped := h
    uses
    exits
    edges
    values := fun hi v hv => h.index_lt (known hi v hv)
    exitValues := fun ht v hv => h.index_lt (exits ht v hv).mem_definitions }

end Strictness

section Checks

variable {f : Func} {b : BlockId} {defined : List ValueId} {label : String}

theorem firstRepeated_eq_none {vs : List ValueId} : ∀ {seen}, vs.Nodup → (∀ v ∈ vs, v ∉ seen) →
    firstRepeated seen vs = none := by
  induction vs with
  | nil => exact fun _ _ => rfl
  | cons v vs ih =>
    intro seen hn hs
    obtain ⟨hv, hn⟩ := List.nodup_cons.1 hn
    rw [firstRepeated, if_neg (hs v List.mem_cons_self)]
    refine ih hn fun w hw hm => ?_
    rcases List.mem_cons.1 hm with rfl | hm
    · exact hv hw
    · exact hs w (List.mem_cons_of_mem v hw) hm

theorem undefinedAmong_eq_none {vs : List ValueId} (h : ∀ v ∈ vs, v ∈ defined) :
    f.undefinedAmong defined vs = none := by
  rw [undefinedAmong, Option.map_eq_none_iff, List.find?_eq_none]
  exact fun v hv => by simp [h v hv]

/-- Instructions that use what is defined and what exists, with a join at the top at most, have no
defect. -/
theorem instsDefect_eq_none {insts : List Inst} : ∀ {atTop : Bool}, (∀ {n i}, insts[n]? = some i →
      (∀ v ∈ i.operands, v ∈ defined) ∧ (∀ s ∈ i.slot?, s.index < f.slots.size) ∧
      ∀ dst incoming, i = .phi dst incoming →
        (n = 0 ∧ atTop) ∧ ∀ edge ∈ incoming, f.precedes edge.2 b) →
    f.instsDefect defined b label atTop insts = none := by
  induction insts with
  | nil => exact fun _ => rfl
  | cons i insts ih =>
    intro atTop h
    obtain ⟨operands, slot, join⟩ := h (n := 0) rfl
    have rest : ∀ atTop', f.instsDefect defined b label atTop' insts = none := by
      refine fun atTop' => ih fun {n j} hj => ?_
      obtain ⟨operands, slot, join⟩ := h (n := n + 1) hj
      exact ⟨operands, slot, fun dst incoming he => absurd (join dst incoming he).1.1 (by simp)⟩
    simp only [instsDefect, undefinedAmong_eq_none operands]
    cases i with
    | phi dst incoming =>
      obtain ⟨⟨-, top⟩, sources⟩ := join dst incoming rfl
      have all : incoming.all (fun edge => f.precedes edge.2 b) = true := List.all_eq_true.2 sources
      simp [phiDefect, top, all, rest]
    | load dst s => simp [slotDefect, slot s rfl, rest]
    | store s src => simp [slotDefect, slot s rfl, rest]
    | _ => exact rest false

/-- A function in strict form has an entry, and so a body. -/
theorem StrictSsa.isDeclaration_eq_false (h : f.StrictSsa) : f.isDeclaration = false := by
  have := h.entry
  simp only [isDeclaration, Array.isEmpty_eq_false_iff]
  rintro he
  simp [he] at this

/-- Strict form is more than the structural checks ask for. -/
theorem StrictSsa.check (h : f.StrictSsa) : f.check = .ok () := by
  have nodup := List.nodup_append.1 h.nodup
  have repeated : firstRepeated f.paramValues.reverse f.targets = none :=
    firstRepeated_eq_none nodup.2.1 fun v hv hp => nodup.2.2 v (List.mem_reverse.1 hp) v hv rfl
  have known : ∀ {v : ValueId}, v.index < f.values.size → v ∈ f.definitions := by
    intro v hv
    exact h.defined.mem_iff.2 (List.mem_map.2 ⟨v.index, List.mem_range.2 hv, rfl⟩)
  have blocks : ∀ entry ∈ f.blocks.toList.zipIdx,
      f.blockDefect f.definitions ⟨entry.2⟩ entry.1 = none := by
    rintro ⟨blk, k⟩ hmem
    have hb : f.blocks[k]? = some blk := by
      simpa using List.mem_zipIdx_iff_getElem?.1 hmem
    obtain ⟨t, ht, targets⟩ := h.ended hb
    have all : t.successors.all (fun dest => decide (dest.index < f.blocks.size)) = true :=
      List.all_eq_true.2 fun next hnext => decide_eq_true (targets next hnext)
    have insts : f.instsDefect f.definitions ⟨k⟩ blk.label true blk.insts = none := by
      refine instsDefect_eq_none fun {n i} hi => ?_
      have at_ : f.InstAt ⟨k⟩ n i := ⟨blk, hb, hi⟩
      refine ⟨fun v hv => known (h.values at_ v (List.mem_append_right _ hv)), h.slots at_, ?_⟩
      rintro dst incoming rfl
      obtain ⟨top, -, sources⟩ := h.joins at_
      exact ⟨⟨top, rfl⟩, fun edge he => (sources _).1 (List.mem_map_of_mem he)⟩
    have exit : f.undefinedAmong f.definitions t.operand.toList = none := by
      refine undefinedAmong_eq_none fun v hv => ?_
      exact known (h.exitValues ⟨blk, hb, rfl, ht⟩ v (by simpa using hv))
    simp [blockDefect, ht, all, insts, exit]
  rw [Func.check, defect]
  simp only [h.isDeclaration_eq_false, Bool.false_eq_true, if_false, repeated,
    List.findSome?_eq_none_iff.2 blocks]

end Checks

section Folding

variable {f g : Func} {v : ValueId} {b j k : BlockId} {n : Nat} {i i' : Inst} {t : Terminator}
  {passed : List BlockId}

theorem Walk.mono (h : ∀ {j k}, f.precedes j k → g.precedes j k) (hw : f.Walk passed b) :
    g.Walk passed b := by
  induction hw with
  | entry => exact .entry
  | step _ hp ih => exact .step ih (h hp)

theorem Recodes.target_eq (h : f.Recodes i i') : i'.target = i.target := by
  cases h with
  | same => rfl
  | constant _ _ ht _ => exact ht.symm

/-- Each block of the folded function comes from the block of the same number. -/
theorem exists_of_fold {blk : Block} (h : f.fold.blocks[k.index]? = some blk) :
    ∃ blk₀, f.blocks[k.index]? = some blk₀ ∧ f.RecodesBlock blk₀ blk := by
  have rel := fold_getElem? f k.index
  cases h₀ : f.blocks[k.index]? with
  | none => rw [h₀, h] at rel; cases rel
  | some blk₀ =>
    rw [h₀, h] at rel
    exact ⟨blk₀, rfl, by cases rel; assumption⟩

theorem exists_fold {blk : Block} (h : f.blocks[k.index]? = some blk) :
    ∃ blk', f.fold.blocks[k.index]? = some blk' ∧ f.RecodesBlock blk blk' := by
  have rel := fold_getElem? f k.index
  cases h' : f.fold.blocks[k.index]? with
  | none => rw [h, h'] at rel; cases rel
  | some blk' =>
    rw [h, h'] at rel
    exact ⟨blk', rfl, by cases rel; assumption⟩

/-- What stands at a place of the folded function was there before or was turned into a constant. -/
theorem instAt_of_fold (h : f.fold.InstAt b n i) : ∃ i₀, f.InstAt b n i₀ ∧ f.Recodes i₀ i := by
  obtain ⟨blk, hb, hi⟩ := h
  obtain ⟨blk₀, hb₀, -, -, insts⟩ := exists_of_fold hb
  obtain ⟨hlt, rfl⟩ := List.getElem?_eq_some_iff.1 hi
  have hlt₀ : n < blk₀.insts.length := by rwa [insts.length_eq]
  exact ⟨_, ⟨blk₀, hb₀, List.getElem?_eq_getElem hlt₀⟩, insts.get hlt₀ hlt⟩

theorem DefinedAt.fold (h : f.DefinedAt v b n) : f.fold.DefinedAt v b n := by
  obtain ⟨i, ⟨blk, hb, hi⟩, ht⟩ := h
  obtain ⟨blk', hb', -, -, insts⟩ := exists_fold hb
  obtain ⟨hlt, rfl⟩ := List.getElem?_eq_some_iff.1 hi
  have hlt' : n < blk'.insts.length := by rwa [← insts.length_eq]
  refine ⟨_, ⟨blk', hb', List.getElem?_eq_getElem hlt'⟩, ?_⟩
  exact (insts.get hlt hlt').target_eq.trans ht

theorem precedes_fold : f.fold.precedes j k ↔ f.precedes j k := by
  rw [precedes_iff, precedes_iff]
  constructor
  · rintro ⟨blk, t, hb, ht, hk⟩
    obtain ⟨blk₀, hb₀, r⟩ := exists_of_fold hb
    exact ⟨blk₀, t, hb₀, r.term ▸ ht, hk⟩
  · rintro ⟨blk, t, hb, ht, hk⟩
    obtain ⟨blk', hb', r⟩ := exists_fold hb
    exact ⟨blk', t, hb', r.term ▸ ht, hk⟩

/-- Folding keeps all exits, and so all walks. -/
theorem walk_fold : f.fold.Walk passed b ↔ f.Walk passed b :=
  ⟨Walk.mono precedes_fold.1, Walk.mono precedes_fold.2⟩

/-- Folding keeps definitions where they are and dominance with them. -/
theorem Available.fold (h : f.Available v b n) : f.fold.Available v b n := by
  refine h.imp_right fun ⟨c, m, hd, dom⟩ => ⟨c, m, hd.fold, ?_⟩
  exact dom.imp_right fun dom passed hw => dom passed (walk_fold.1 hw)

theorem targets_of_recodes {is js : List Inst} (h : List.Forall₂ f.Recodes is js) :
    js.filterMap Inst.target = is.filterMap Inst.target := by
  induction h with
  | nil => rfl
  | cons hi _ ih => rw [List.filterMap_cons, List.filterMap_cons, hi.target_eq, ih]

theorem targets_fold (f : Func) : f.fold.targets = f.targets := by
  have same : ∀ {bs cs : List Block}, List.Forall₂ f.RecodesBlock bs cs →
      cs.flatMap Block.targets = bs.flatMap Block.targets := by
    intro bs cs h
    induction h with
    | nil => rfl
    | cons hb _ ih =>
      rw [List.flatMap_cons, List.flatMap_cons, ih]
      congr 1
      exact targets_of_recodes hb.insts
  rw [targets_eq, targets_eq, same (fold_blocks f)]

theorem definitions_fold (f : Func) : f.fold.definitions = f.definitions := by
  rw [definitions, definitions, targets_fold]
  rfl

theorem size_fold (f : Func) : f.fold.blocks.size = f.blocks.size := by
  simpa using (fold_blocks f).length_eq.symm

/-- An operation that becomes a constant defines the same value, and is no join before or after. -/
theorem Shaped.fold (h : f.Shaped) : f.fold.Shaped where
  entry := size_fold f ▸ h.entry
  ended := by
    intro b blk hb
    obtain ⟨blk₀, hb₀, r⟩ := exists_of_fold (k := ⟨b⟩) hb
    obtain ⟨t, ht, targets⟩ := h.ended hb₀
    exact ⟨t, r.term ▸ ht, fun next hn => size_fold f ▸ targets next hn⟩
  reached := by
    intro b hb
    obtain ⟨passed, hw⟩ := h.reached (b := b) (size_fold f ▸ hb)
    exact ⟨passed, walk_fold.2 hw⟩
  defined := by
    rw [definitions_fold]
    exact h.defined
  joins := by
    intro b n dst incoming hi
    obtain ⟨i₀, hi₀, r⟩ := instAt_of_fold hi
    cases r with
    | same =>
      obtain ⟨top, nodup, sources⟩ := h.joins hi₀
      exact ⟨top, nodup, fun j => (sources j).trans precedes_fold.symm⟩
  slots := by
    intro b n i hi s hs
    obtain ⟨i₀, hi₀, r⟩ := instAt_of_fold hi
    cases r with
    | same => exact h.slots hi₀ s hs
    | constant => cases hs

/-- Folding keeps a function in strict form. -/
theorem StrictSsa.fold (h : f.StrictSsa) : f.fold.StrictSsa where
  toShaped := h.toShaped.fold
  uses := by
    intro b n i hi hphi v hv
    obtain ⟨i₀, hi₀, r⟩ := instAt_of_fold hi
    cases r with
    | same => exact (h.uses hi₀ hphi v hv).fold
    | constant => cases hv
  exits := by
    rintro b n t ⟨blk, hb, rfl, ht⟩ v hv
    obtain ⟨blk₀, hb₀, r⟩ := exists_of_fold hb
    rw [← r.insts.length_eq]
    exact (h.exits ⟨blk₀, hb₀, rfl, r.term ▸ ht⟩ v hv).fold
  edges := by
    intro b n dst incoming hi edge he
    obtain ⟨i₀, hi₀, r⟩ := instAt_of_fold hi
    cases r with
    | same =>
      obtain ⟨blk, hb, ha⟩ := h.edges hi₀ edge he
      obtain ⟨blk', hb', r⟩ := exists_fold hb
      exact ⟨blk', hb', r.insts.length_eq ▸ ha.fold⟩
  values := by
    intro b n i hi v hv
    obtain ⟨i₀, hi₀, r⟩ := instAt_of_fold hi
    refine h.values hi₀ v ?_
    rw [← r.target_eq]
    cases r with
    | same => exact hv
    | constant => exact List.mem_append_left _ (by simpa [Inst.operands] using hv)
  exitValues := by
    rintro b n t ⟨blk, hb, rfl, ht⟩ v hv
    obtain ⟨blk₀, hb₀, r⟩ := exists_of_fold hb
    exact h.exitValues ⟨blk₀, hb₀, rfl, r.term ▸ ht⟩ v hv

end Folding

end Func

end Kaleidoscope.Ssa
