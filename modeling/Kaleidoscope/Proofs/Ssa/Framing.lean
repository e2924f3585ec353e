import Kaleidoscope.Proofs.Ssa.Dominance

/-!
# Functions under construction

While a function is built some of its blocks have no exit: the one where code goes, and blocks that
are still empty and wait to be moved to. `Func.Framed` is the strict shape of a function with such
holes. It knows of each waiting block exactly which blocks go to it so far, so that a join at its top
can be given one edge for each. There is one lemma for each way to build on; a function without holes
is `Shaped` (`Framed.shaped`).
-/

namespace Kaleidoscope.Ssa

/-- The blocks that wait, with what goes to each, after a block has ended. -/
def goTo (b : BlockId) (t : Terminator) (waiting : List (BlockId × List BlockId)) :
    List (BlockId × List BlockId) :=
  waiting.map fun entry => (entry.1, if entry.1 ∈ t.successors then b :: entry.2 else entry.2)

section Waiting

variable {b k : BlockId} {t : Terminator} {waiting : List (BlockId × List BlockId)}

theorem goTo_cons (entry : BlockId × List BlockId) : goTo b t (entry :: waiting) =
    (entry.1, if entry.1 ∈ t.successors then b :: entry.2 else entry.2) :: goTo b t waiting :=
  rfl

theorem keys_goTo : (goTo b t waiting).map (·.1) = waiting.map (·.1) := by
  simp [goTo]

theorem ne_of_not_waiting (hk : k ∉ waiting.map (·.1)) {entry : BlockId × List BlockId}
    (he : entry ∈ waiting) : entry.1 ≠ k := by
  rintro rfl
  exact hk (List.mem_map_of_mem he)

/-- Blocks that are no successors get no source. -/
theorem goTo_of_not_mem (h : ∀ entry ∈ waiting, entry.1 ∉ t.successors) :
    goTo b t waiting = waiting := by
  refine (List.map_congr_left fun entry he => ?_).trans (List.map_id _)
  rw [if_neg (h entry he)]
  rfl

end Waiting

namespace Func

/-- The function with an instruction more at the end of a block. -/
def append (f : Func) (b : BlockId) (i : Inst) : Func :=
  { f with blocks := f.blocks.modify b.index fun blk => { blk with insts := blk.insts ++ [i] } }

/-- The function with the exit of a block set. -/
def finish (f : Func) (b : BlockId) (t : Terminator) : Func :=
  { f with blocks := f.blocks.modify b.index fun blk => { blk with term := some t } }

/-- The block has these instructions and no exit. -/
def Unfinished (f : Func) (b : BlockId) (insts : List Inst) : Prop :=
  ∃ label, f.blocks[b.index]? = some { label, insts }

/-- The blocks without an exit are the current one, if there is one, and those that wait. -/
structure Framed (f : Func) (current : Option BlockId) (waiting : List (BlockId × List BlockId)) :
    Prop where
  here : ∀ b ∈ current, ∃ insts, f.Unfinished b insts
  empty : ∀ entry ∈ waiting, f.Unfinished entry.1 [] ∧ ∀ j, f.precedes j entry.1 ↔ j ∈ entry.2
  distinct : (current.toList ++ waiting.map (·.1)).Nodup
  entry : 0 < f.blocks.size
  ended : ∀ {k : Nat} {blk}, f.blocks[k]? = some blk →
    ⟨k⟩ ∉ current.toList ++ waiting.map (·.1) → blk.term.isSome
  reached : ∀ {b : BlockId}, b.index < f.blocks.size → b ∉ waiting.map (·.1) →
    ∃ passed, f.Walk passed b
  edges : ∀ {j k}, f.precedes j k → k.index < f.blocks.size
  defined : f.definitions.Perm ((List.range f.values.size).map ValueId.mk)
  joins : ∀ {b n dst incoming}, f.InstAt b n (.phi dst incoming) →
    n = 0 ∧ (incoming.map (·.2)).Nodup ∧ ∀ j, j ∈ incoming.map (·.2) ↔ f.precedes j b
  slots : ∀ {b n i}, f.InstAt b n i → ∀ s ∈ i.slot?, s.index < f.slots.size

section Changes

variable {f : Func} {b c j k : BlockId} {i i' : Inst} {insts : List Inst} {n : Nat} {t : Terminator}

theorem Unfinished.lt (h : f.Unfinished b insts) : b.index < f.blocks.size := by
  obtain ⟨label, hb⟩ := h
  exact (Array.getElem?_eq_some_iff.1 hb).1

theorem Unfinished.not_precedes (h : f.Unfinished b insts) : ¬ f.precedes b k := by
  obtain ⟨label, hb⟩ := h
  simp [precedes, hb]

theorem Unfinished.not_instAt (h : f.Unfinished b []) : ¬ f.InstAt b n i := by
  rintro ⟨blk, hb, hi⟩
  obtain ⟨label, hb'⟩ := h
  rw [hb] at hb'
  cases hb'
  cases hi

theorem getElem?_append (f : Func) (b : BlockId) (i : Inst) (k : Nat) :
    (f.append b i).blocks[k]? = if b.index = k then
      f.blocks[k]?.map fun blk => { blk with insts := blk.insts ++ [i] } else f.blocks[k]? := by
  simp only [append, Array.getElem?_modify]

theorem getElem?_finish (f : Func) (b : BlockId) (t : Terminator) (k : Nat) :
    (f.finish b t).blocks[k]? = if b.index = k then
      f.blocks[k]?.map fun blk => { blk with term := some t } else f.blocks[k]? := by
  simp only [finish, Array.getElem?_modify]

@[simp] theorem size_append : (f.append b i).blocks.size = f.blocks.size := by
  simp [append]

@[simp] theorem size_finish : (f.finish b t).blocks.size = f.blocks.size := by
  simp [finish]

/-- Instructions are no exits. -/
theorem precedes_append : (f.append b i).precedes j k ↔ f.precedes j k := by
  rw [precedes_iff, precedes_iff, getElem?_append]
  split
  · simp [Option.map_eq_some_iff]
  · rfl

/-- Setting the exit of a block adds the edges to its successors. -/
theorem precedes_finish (h : f.Unfinished b insts) :
    (f.finish b t).precedes j k ↔ f.precedes j k ∨ j = b ∧ k ∈ t.successors := by
  rw [precedes_iff, getElem?_finish]
  split
  · next he =>
    obtain rfl := BlockId.index_inj.1 he
    have := h.not_precedes (k := k)
    obtain ⟨label, hb⟩ := h
    simp [hb, this]
  · next hne =>
    have : j ≠ b := fun e => hne (congrArg BlockId.index e.symm)
    simp [precedes_iff, this]

/-- The new instruction stands behind those that its block had. -/
theorem instAt_append (h : f.Unfinished b insts) : (f.append b i).InstAt c n i' ↔
    f.InstAt c n i' ∨ c = b ∧ n = insts.length ∧ i' = i := by
  rw [InstAt, getElem?_append]
  split
  · next he =>
    obtain rfl := BlockId.index_inj.1 he
    obtain ⟨label, hb⟩ := h
    simp only [InstAt, hb, Option.map_some, Option.some.injEq, exists_eq_left', true_and,
      List.getElem?_append]
    split
    · next hlt => simp [Nat.ne_of_lt hlt]
    · next hle =>
      rw [List.getElem?_eq_none (l := insts) (by omega), List.getElem?_singleton]
      split
      · have : n = insts.length := by omega
        simp [this, eq_comm]
      · have : n ≠ insts.length := by omega
        simp [this]
  · next hne =>
    have : c ≠ b := fun e => hne (congrArg BlockId.index e.symm)
    simp [InstAt, this]

theorem instAt_finish : (f.finish b t).InstAt c n i ↔ f.InstAt c n i := by
  rw [InstAt, getElem?_finish]
  split
  · simp [InstAt, Option.map_eq_some_iff]
  · rfl

theorem unfinished_append (h : c ≠ b) :
    (f.append b i).Unfinished c insts ↔ f.Unfinished c insts := by
  rw [Unfinished, Unfinished, getElem?_append, if_neg fun e => h (BlockId.index_inj.1 e.symm)]

theorem unfinished_finish (h : c ≠ b) :
    (f.finish b t).Unfinished c insts ↔ f.Unfinished c insts := by
  rw [Unfinished, Unfinished, getElem?_finish, if_neg fun e => h (BlockId.index_inj.1 e.symm)]

/-- Where a block is changed, the others stand around it. -/
theorem toList_modify (change : Block → Block) {blk : Block}
    (hb : f.blocks[b.index]? = some blk) : ∃ before behind,
      f.blocks.toList = before ++ blk :: behind ∧
        (f.blocks.modify b.index change).toList = before ++ change blk :: behind := by
  obtain ⟨hlt, rfl⟩ := Array.getElem?_eq_some_iff.1 hb
  refine ⟨f.blocks.toList.take b.index, f.blocks.toList.drop (b.index + 1), ?_, ?_⟩
  · rw [← Array.getElem_toList hlt, List.getElem_cons_drop, List.take_append_drop]
  · rw [Array.toList_modify, List.modify_eq_take_cons_drop (by simpa using hlt)]
    simp

/-- The function defines what it defined and the target of the new instruction. -/
theorem definitions_append (h : f.Unfinished b insts) :
    (f.append b i).definitions.Perm (f.definitions ++ i.target.toList) := by
  obtain ⟨label, hb⟩ := h
  obtain ⟨before, behind, old, new⟩ := toList_modify
    (fun blk => { blk with insts := blk.insts ++ [i] }) hb
  rw [definitions, definitions, targets_eq, targets_eq, append, old, new]
  simp only [paramValues, arity, List.flatMap_append, List.flatMap_cons, List.append_assoc,
    Block.targets, List.filterMap_append]
  refine .append_left _ (.append_left _ (.append_left _ ?_))
  have one : [i].filterMap Inst.target = i.target.toList := by cases ht : i.target <;> simp [ht]
  rw [one]
  exact List.perm_append_comm

theorem definitions_finish (h : f.Unfinished b insts) :
    (f.finish b t).definitions = f.definitions := by
  obtain ⟨label, hb⟩ := h
  obtain ⟨before, behind, old, new⟩ := toList_modify
    (fun blk => { blk with term := some t }) hb
  rw [definitions, definitions, targets_eq, targets_eq, finish, old, new]
  simp only [List.flatMap_append, List.flatMap_cons]
  rfl

end Changes

section Building

variable {f : Func} {b k : BlockId} {i : Inst} {insts : List Inst} {t : Terminator}
  {current : Option BlockId} {waiting waiting' : List (BlockId × List BlockId)}
  {sources : List BlockId}

/-- The current block is not one that waits. -/
theorem Framed.apart (h : f.Framed (some b) waiting) : b ∉ waiting.map (·.1) := by
  have := h.distinct
  simp only [Option.toList_some, List.singleton_append, List.nodup_cons] at this
  exact this.1

/-- No block waits twice. -/
theorem Framed.nodup_waiting (h : f.Framed current waiting) : (waiting.map (·.1)).Nodup :=
  (List.nodup_append.1 h.distinct).2.1

/-- The order in which blocks wait does not matter. -/
theorem Framed.perm (h : f.Framed current waiting) (hp : waiting.Perm waiting') :
    f.Framed current waiting' := by
  have keys := hp.map (·.1)
  exact {
    here := h.here
    empty := fun entry he => h.empty entry (hp.mem_iff.2 he)
    distinct := (keys.append_left _).nodup_iff.1 h.distinct
    entry := h.entry
    ended := fun hb hk => h.ended hb fun hm => hk ((keys.append_left _).mem_iff.1 hm)
    reached := fun hb hk => h.reached hb fun hm => hk (keys.mem_iff.1 hm)
    edges := h.edges
    defined := h.defined
    joins := h.joins
    slots := h.slots }

/-- An instruction at the end of the current block: with a new value if it defines one, and if it is
a join, first of all and with one edge for each block that comes here. -/
theorem Framed.put (h : f.Framed (some b) waiting) (ho : f.Unfinished b insts)
    {values : Array String} (hv : (List.range values.size).map ValueId.mk =
      (List.range f.values.size).map ValueId.mk ++ i.target.toList)
    (hs : ∀ s ∈ i.slot?, s.index < f.slots.size)
    (hj : ∀ dst incoming, i = .phi dst incoming → insts = [] ∧ (incoming.map (·.2)).Nodup ∧
      ∀ j, j ∈ incoming.map (·.2) ↔ f.precedes j b) :
    Func.Framed { f.append b i with values } (some b) waiting := by
  have edges : ∀ {j k}, Func.precedes { f.append b i with values } j k ↔ f.precedes j k :=
    precedes_append
  have places : ∀ {c n i'}, Func.InstAt { f.append b i with values } c n i' ↔
      f.InstAt c n i' ∨ c = b ∧ n = insts.length ∧ i' = i := instAt_append ho
  exact {
    here := by
      rintro c ⟨⟩
      obtain ⟨label, hb⟩ := ho
      refine ⟨insts ++ [i], label, ?_⟩
      rw [getElem?_append, if_pos rfl, hb]
      rfl
    empty := by
      intro entry he
      obtain ⟨unfinished, sources⟩ := h.empty entry he
      have ne : entry.1 ≠ b := ne_of_not_waiting h.apart he
      exact ⟨(unfinished_append ne).2 unfinished, fun j => edges.trans (sources j)⟩
    distinct := h.distinct
    entry := by simpa using h.entry
    ended := by
      intro k blk hb hk
      rw [getElem?_append] at hb
      split at hb
      · next he => exact absurd (by simp [← he]) hk
      · exact h.ended hb hk
    reached := by
      intro c hc hk
      obtain ⟨passed, hw⟩ := h.reached (by simpa using hc) hk
      exact ⟨passed, hw.mono edges.2⟩
    edges := fun hp => by simpa using h.edges (edges.1 hp)
    defined := by
      rw [hv]
      exact (definitions_append ho).trans (h.defined.append_right _)
    -- a join that was there keeps its edges, and the new one comes with its own
    joins := by
      intro c n dst incoming hi
      have same : ∀ {c}, (∀ j, j ∈ incoming.map (·.2) ↔ f.precedes j c) →
          ∀ j, j ∈ incoming.map (·.2) ↔ Func.precedes { f.append b i with values } j c :=
        fun h j => (h j).trans edges.symm
      rcases places.1 hi with hi | ⟨rfl, rfl, he⟩
      · obtain ⟨top, nodup, sources⟩ := h.joins hi
        exact ⟨top, nodup, same sources⟩
      · obtain ⟨rfl, nodup, sources⟩ := hj dst incoming he.symm
        exact ⟨rfl, nodup, same sources⟩
    slots := by
      intro c n i' hi
      rcases places.1 hi with hi | ⟨-, -, rfl⟩
      · exact h.slots hi
      · exact hs }

/-- A slot more. -/
theorem Framed.allot (h : f.Framed current waiting) (name : String) :
    Func.Framed { f with slots := f.slots.push name } current waiting where
  here := h.here
  empty := h.empty
  distinct := h.distinct
  entry := h.entry
  ended := h.ended
  reached hb hk := (h.reached hb hk).imp fun _ hw => Walk.mono (f := f) id hw
  edges := h.edges
  defined := h.defined
  joins := h.joins
  slots hi s hs := by
    have := h.slots hi s hs
    simp only [Array.size_push]
    omega

/-- A block more, which waits. -/
theorem Framed.addBlock (h : f.Framed current waiting) (label : String) :
    Func.Framed { f with blocks := f.blocks.push { label } } current
      ((⟨f.blocks.size⟩, []) :: waiting) := by
  let g : Func := { f with blocks := f.blocks.push { label } }
  have get : ∀ k, g.blocks[k]? = if k = f.blocks.size then some { label } else f.blocks[k]? :=
    fun k => Array.getElem?_push
  have old : ∀ {k insts}, f.Unfinished k insts → g.Unfinished k insts := by
    intro k insts ho
    have := ho.lt
    obtain ⟨label', hb⟩ := ho
    exact ⟨label', by rw [get, if_neg (by omega), hb]⟩
  have edges : ∀ {j k}, g.precedes j k ↔ f.precedes j k := by
    intro j k
    rw [precedes_iff, precedes_iff, get]
    split
    · next he => simp [he]
    · rfl
  have places : ∀ {c n i}, g.InstAt c n i → f.InstAt c n i := by
    rintro c n i ⟨blk, hb, hi⟩
    rw [get] at hb
    split at hb
    · cases hb
      cases hi
    · exact ⟨blk, hb, hi⟩
  -- no unfinished block has the number of the new one
  have fresh : ∀ {k insts}, f.Unfinished k insts → k ≠ ⟨f.blocks.size⟩ := by
    rintro k insts ho rfl
    have := ho.lt
    simp at this
  exact {
    here := fun b hb => (h.here b hb).imp fun _ => old
    empty := by
      intro entry he
      rcases List.mem_cons.1 he with rfl | he
      · refine ⟨⟨label, by rw [get, if_pos rfl]⟩, fun j => ?_⟩
        have : ¬ g.precedes j ⟨f.blocks.size⟩ := fun hp => Nat.lt_irrefl _ (h.edges (edges.1 hp))
        simpa using this
      · obtain ⟨ho, sources⟩ := h.empty entry he
        exact ⟨old ho, fun j => edges.trans (sources j)⟩
    distinct := by
      refine List.perm_middle.nodup_iff.2 (List.nodup_cons.2 ⟨fun hm => ?_, h.distinct⟩)
      rcases List.mem_append.1 hm with hm | hm
      · obtain ⟨insts, ho⟩ := h.here _ (by simpa using hm)
        exact fresh ho rfl
      · obtain ⟨entry, he, hk⟩ := List.mem_map.1 hm
        exact fresh (h.empty entry he).1 hk
    entry := by simp
    ended := by
      intro k blk hb hk
      rw [get] at hb
      split at hb
      · next he => exact absurd (by simp [he]) hk
      · refine h.ended hb fun hm => hk ?_
        rw [List.map_cons]
        exact List.perm_middle.mem_iff.2 (List.mem_cons_of_mem _ hm)
    reached := by
      intro b hb hk
      rw [List.map_cons, List.mem_cons, not_or] at hk
      have : b.index ≠ f.blocks.size := fun he => hk.1 (BlockId.index_inj.1 he)
      simp only [Array.size_push] at hb
      obtain ⟨passed, hw⟩ := h.reached (b := b) (by omega) hk.2
      exact ⟨passed, hw.mono edges.2⟩
    edges := by
      intro j k hp
      have := h.edges (edges.1 hp)
      simp only [Array.size_push]
      omega
    defined := by
      have : g.definitions = f.definitions := by
        rw [definitions, definitions, targets_eq, targets_eq]
        simp [g, Block.targets, paramValues, arity]
      exact this ▸ h.defined
    joins := by
      intro c n dst incoming hi
      obtain ⟨top, nodup, sources⟩ := h.joins (places hi)
      exact ⟨top, nodup, fun j => (sources j).trans edges.symm⟩
    slots := fun hi => h.slots (places hi) }

/-- The current block ends, and the waiting blocks that it goes to have one source more. Whatever else
it goes to has no join. -/
theorem Framed.finish (h : f.Framed (some b) waiting)
    (ht : ∀ k ∈ t.successors, k ∈ waiting.map (·.1) ∨
      k.index < f.blocks.size ∧ ∀ n dst incoming, ¬ f.InstAt k n (.phi dst incoming)) :
    (f.finish b t).Framed none (goTo b t waiting) := by
  obtain ⟨insts, ho⟩ := h.here b rfl
  have keys : (goTo b t waiting).map (·.1) = waiting.map (·.1) := keys_goTo
  have edges : ∀ {j k}, (f.finish b t).precedes j k ↔ f.precedes j k ∨ j = b ∧ k ∈ t.successors :=
    precedes_finish ho
  exact {
    here := nofun
    empty := by
      intro entry he
      obtain ⟨entry, hm, rfl⟩ := List.mem_map.1 he
      obtain ⟨unfinished, sources⟩ := h.empty entry hm
      have ne : entry.1 ≠ b := ne_of_not_waiting h.apart hm
      refine ⟨(unfinished_finish ne).2 unfinished, fun j => edges.trans ?_⟩
      rw [sources]
      dsimp only
      split
      · next hin => simp [hin, or_comm]
      · next hout => simp [hout]
    distinct := by
      rw [keys]
      simpa using h.nodup_waiting
    entry := by simpa using h.entry
    ended := by
      intro k blk hb hk
      rw [getElem?_finish] at hb
      split at hb
      · obtain ⟨blk', -, rfl⟩ := Option.map_eq_some_iff.1 hb
        rfl
      · next hne =>
        refine h.ended hb fun hm => hk ?_
        rw [keys]
        simp only [Option.toList_some, List.singleton_append, List.mem_cons] at hm
        refine hm.resolve_left fun e => hne ?_
        rw [← e]
    reached := by
      intro c hc hk
      rw [keys] at hk
      obtain ⟨passed, hw⟩ := h.reached (by simpa using hc) hk
      exact ⟨passed, hw.mono fun hp => edges.2 (.inl hp)⟩
    edges := by
      intro j k hp
      rw [size_finish]
      rcases edges.1 hp with hp | ⟨-, hk⟩
      · exact h.edges hp
      · rcases ht k hk with hk | ⟨hk, -⟩
        · obtain ⟨entry, hm, rfl⟩ := List.mem_map.1 hk
          exact (h.empty entry hm).1.lt
        · exact hk
    defined := by
      rw [definitions_finish ho]
      exact h.defined
    -- an edge more must not lead to a join: what waits is empty, other targets have none
    joins := by
      intro c n dst incoming hi
      have hi := instAt_finish.1 hi
      obtain ⟨top, nodup, sources⟩ := h.joins hi
      refine ⟨top, nodup, fun j => (sources j).trans ⟨fun hp => edges.2 (.inl hp), fun hp => ?_⟩⟩
      rcases edges.1 hp with hp | ⟨-, hk⟩
      · exact hp
      · rcases ht c hk with hk | ⟨-, none⟩
        · obtain ⟨entry, hm, rfl⟩ := List.mem_map.1 hk
          exact absurd hi (h.empty entry hm).1.not_instAt
        · exact absurd hi (none n dst incoming)
    slots := fun hi => h.slots (instAt_finish.1 hi) }

/-- When the current block returns and no other is waiting, all blocks are ended. -/
theorem Framed.return (h : f.Framed (some b) []) (v : ValueId) :
    (f.finish b (.ret v)).Framed none [] := by
  refine h.finish fun k hk => ?_
  cases hk

/-- A waiting block that control can come to is moved to. -/
theorem Framed.move (h : f.Framed none ((k, sources) :: waiting)) (hs : sources ≠ []) :
    f.Framed (some k) waiting where
  here := by
    rintro b ⟨⟩
    exact ⟨[], (h.empty _ List.mem_cons_self).1⟩
  empty entry he := h.empty entry (List.mem_cons_of_mem _ he)
  distinct := h.distinct
  entry := h.entry
  ended hb hk := h.ended hb hk
  reached := by
    intro b hb hk
    by_cases he : b = k
    · subst he
      obtain ⟨j, hj⟩ := List.exists_mem_of_ne_nil sources hs
      have hp := ((h.empty _ List.mem_cons_self).2 j).2 hj
      have out : j ∉ ((b, sources) :: waiting).map (·.1) := by
        intro hm
        obtain ⟨entry, he, rfl⟩ := List.mem_map.1 hm
        exact (h.empty entry he).1.not_precedes hp
      obtain ⟨blk, t, hj, -, -⟩ := precedes_iff.1 hp
      obtain ⟨passed, hw⟩ := h.reached (Array.getElem?_eq_some_iff.1 hj).1 out
      exact ⟨_, hw.step hp⟩
    · refine h.reached hb fun hm => ?_
      rcases List.mem_cons.1 hm with hm | hm
      · exact he hm
      · exact hk hm
  edges := h.edges
  defined := h.defined
  joins := h.joins
  slots := h.slots

/-- A function in which no block lacks an exit has the strict shape. -/
theorem Framed.shaped (h : f.Framed none []) : f.Shaped where
  entry := h.entry
  ended := by
    intro b blk hb
    obtain ⟨t, ht⟩ := Option.isSome_iff_exists.1 (h.ended hb (by simp))
    refine ⟨t, ht, fun next hn => h.edges (j := ⟨b⟩) ?_⟩
    exact precedes_iff.2 ⟨blk, t, hb, ht, hn⟩
  reached hb := h.reached hb (by simp)
  defined := h.defined
  joins := h.joins
  slots := h.slots

end Building

end Func

end Kaleidoscope.Ssa
