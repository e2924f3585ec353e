import Kaleidoscope.Engine.Basic
import Mathlib.Data.List.Basic

/-!
# Loading and unloading modules

Beside an engine run the modules that are loaded (`Engine.loaded`). One would have a name stand for
the function of the latest loaded module that gives it a body (`Engine.newest?`). The engine has one
table of names for all modules, and unloading a module takes the names that it has loaded out of it,
whatever function they stand for by then. So a name is lost from when a module that defines it is
unloaded until another one that defines it is loaded (`Engine.Lost`), also if a loaded module still
defines it (`sharedName_lost`).

This is the only way in which a name can stand for anything else: `Engine.lookup_changed`. As long as
no module is unloaded while another one defines the same name, as in sessions, names stand for what
one would have them stand for.
-/

namespace Kaleidoscope

open Ssa

namespace Ssa.Module

/-- The functions with a body. -/
def bodied (m : Module) : List Func :=
  m.functions.toList.filter (!·.isDeclaration)

/-- The function with a body that the module has under a name, the last one if there are several. -/
def body? (m : Module) (name : String) : Option Func :=
  m.bodied.reverse.find? (·.name = name)

theorem body?_isSome_iff {m : Module} {name : String} :
    (m.body? name).isSome ↔ name ∈ m.bodied.map (·.name) := by
  simp only [body?, List.find?_isSome, List.mem_reverse, List.mem_map, decide_eq_true_eq]

end Ssa.Module

namespace Engine

/-- What an engine is asked for. -/
inductive Change
  | add (m : Module)
  | remove (key : ModuleKey)

/-- The engine after a change. -/
def change (e : Engine) : Change → Engine
  | .add m => (e.add m).2
  | .remove key => e.remove key

/-- The engine after a list of changes, the latest of which comes first. -/
def changed : List Change → Engine
  | [] => {}
  | c :: earlier => (changed earlier).change c

/-- How many modules were added. -/
def added : List Change → Nat
  | [] => 0
  | .add _ :: earlier => added earlier + 1
  | .remove _ :: earlier => added earlier

/-- The modules that are loaded, the latest first. The key of a module is the number of those that
were added before it. -/
def loaded : List Change → Dict ModuleKey Module
  | [] => ∅
  | .add m :: earlier => (loaded earlier).insert ⟨added earlier⟩ m
  | .remove key :: earlier => (loaded earlier).erase key

/-- The function that the latest loaded module with a body for a name gives to it. -/
def newest? (changes : List Change) (name : String) : Option Func :=
  (loaded changes).entries.findSome? fun entry => entry.2.body? name

/-- A module that defines the name was unloaded, and none that defines it was added since. -/
def Lost (name : String) (changes : List Change) : Prop :=
  ∃ later key m earlier, changes = later ++ .remove key :: earlier ∧
    (loaded earlier).get? key = some m ∧ (m.body? name).isSome ∧
    ∀ m', .add m' ∈ later → m'.body? name = none

/-- Whenever a module that defines the name is unloaded, no other loaded module defines it. -/
def Alone (name : String) (changes : List Change) : Prop :=
  ∀ later key m earlier, changes = later ++ .remove key :: earlier →
    (loaded earlier).get? key = some m → (m.body? name).isSome →
    ∀ entry ∈ (loaded earlier).entries, (entry.2.body? name).isSome → entry.1 = key

section Tables

variable {name : String}

/-- When functions are entered one by one, the last one of a name is found. -/
theorem get?_foldl_insert (fs : List Func) : ∀ {symbols : Dict String Func},
    (fs.foldl (fun symbols f => symbols.insert f.name f) symbols).get? name =
      (fs.reverse.find? (·.name = name)).or (symbols.get? name) := by
  induction fs with
  | nil => exact rfl
  | cons f fs ih =>
    intro symbols
    rw [List.foldl_cons, ih, List.reverse_cons, List.find?_append, Dict.get?_insert, Option.or_assoc]
    congr 1
    by_cases h : f.name = name
    · simp [h]
    · simp [h, Ne.symm h]

/-- A module that is added stands before what was loaded. -/
theorem lookup_add (e : Engine) (m : Module) (name : String) :
    (e.add m).2.lookup name = (m.body? name).or (e.lookup name) :=
  get?_foldl_insert m.bodied

/-- When names are taken out one by one, the others stay as they were. -/
theorem get?_foldl_erase (names : List String) : ∀ {symbols : Dict String Func},
    (names.foldl Dict.erase symbols).get? name =
      if name ∈ names then none else symbols.get? name := by
  induction names with
  | nil => exact rfl
  | cons n names ih =>
    intro symbols
    rw [List.foldl_cons, ih, Dict.get?_erase]
    by_cases h : name ∈ names
    · simp [h]
    · simp [h]

end Tables

section Losing

variable {name : String} {changes later : List Change} {m : Module} {key : ModuleKey}

/-- A name that is lost stays so until a module that gives it a body is loaded. -/
theorem lost_add : Lost name (.add m :: changes) ↔ m.body? name = none ∧ Lost name changes := by
  constructor
  · rintro ⟨later, key, m', earlier, split, gone⟩
    cases later with
    | nil => cases split
    | cons c later =>
      cases split
      obtain ⟨hget, hbody, since⟩ := gone
      exact ⟨since m List.mem_cons_self, later, key, m', earlier, rfl, hget, hbody,
        fun m' hm => since m' (List.mem_cons_of_mem _ hm)⟩
  · rintro ⟨none, later, key, m', earlier, rfl, hget, hbody, since⟩
    refine ⟨.add m :: later, key, m', earlier, rfl, hget, hbody, fun m'' hm => ?_⟩
    rcases List.mem_cons.1 hm with he | hm
    · cases he
      exact none
    · exact since m'' hm

/-- A name gets lost with the unloading of any module that gives it a body. -/
theorem lost_remove : Lost name (.remove key :: changes) ↔
    (∃ m, (loaded changes).get? key = some m ∧ (m.body? name).isSome) ∨ Lost name changes := by
  constructor
  · rintro ⟨later, key', m, earlier, split, hget, hbody, since⟩
    cases later with
    | nil =>
      cases split
      exact .inl ⟨m, hget, hbody⟩
    | cons c later =>
      cases split
      exact .inr ⟨later, key', m, earlier, rfl, hget, hbody,
        fun m' hm => since m' (List.mem_cons_of_mem _ hm)⟩
  · rintro (⟨m, hget, hbody⟩ | ⟨later, key', m, earlier, rfl, hget, hbody, since⟩)
    · exact ⟨[], key, m, changes, rfl, hget, hbody, nofun⟩
    · refine ⟨.remove key :: later, key', m, earlier, rfl, hget, hbody, fun m' hm => ?_⟩
      rcases List.mem_cons.1 hm with he | hm
      · cases he
      · exact since m' hm

/-- What is loaded was loaded before, or was added since. -/
theorem of_mem_loaded {entry : ModuleKey × Module} (earlier : List Change) :
    ∀ {later}, entry ∈ (loaded (later ++ earlier)).entries →
      entry ∈ (loaded earlier).entries ∨ .add entry.2 ∈ later := by
  intro later
  induction later with
  | nil => exact .inl
  | cons c later ih =>
    intro h
    cases c with
    | add m =>
      rcases List.mem_cons.1 h with rfl | h
      · exact .inr List.mem_cons_self
      · exact (ih h).imp_right (List.mem_cons_of_mem _)
    | remove key => exact (ih (List.mem_filter.1 h).1).imp_right (List.mem_cons_of_mem _)

/-- A name that is lost without having been shared is defined by no loaded module. -/
theorem Lost.newest?_eq_none (h : Lost name changes) (alone : Alone name changes) :
    newest? changes name = none := by
  obtain ⟨later, key, m, earlier, rfl, hget, hbody, since⟩ := h
  refine List.findSome?_eq_none_iff.2 fun entry he => ?_
  rcases of_mem_loaded (.remove key :: earlier) he with old | new
  · obtain ⟨old, hne⟩ := List.mem_filter.1 old
    by_contra hsome
    have := alone later key m earlier rfl hget hbody entry old (Option.isSome_iff_ne_none.2 hsome)
    simp [this] at hne
  · exact since _ new

end Losing

section Changes

variable {e : Engine} {changes : List Change} {m : Module} {key : ModuleKey} {name : String}

/-- The tables of an engine agree with the changes that were made to it. -/
structure Reflects (e : Engine) (changes : List Change) : Prop where
  nextKey : e.nextKey = added changes
  below : ∀ entry ∈ (loaded changes).entries, entry.1.index < added changes
  once : ((loaded changes).entries.map (·.1)).Nodup
  modules : ∀ key, e.modules.get? key =
    ((loaded changes).get? key).map fun m => m.bodied.map (·.name)
  lost : ∀ {name}, Lost name changes → e.lookup name = none
  held : ∀ {name}, ¬ Lost name changes → e.lookup name = newest? changes name

/-- The module loaded last is asked first. -/
theorem newest?_add : newest? (.add m :: changes) name =
    (m.body? name).or (newest? changes name) := by
  simp only [newest?, loaded, Dict.insert, List.findSome?_cons]
  cases m.body? name <;> rfl

/-- Loading a module keeps the table of names in step with the modules. -/
theorem Reflects.add (h : e.Reflects changes) (m : Module) :
    Reflects (e.change (.add m)) (.add m :: changes) := by
  have lookup := lookup_add e m
  refine ⟨congrArg (· + 1) h.nextKey, ?_, ?_, fun key => ?_, fun {name} hl => ?_, fun {name} hl => ?_⟩
  · refine List.forall_mem_cons.2 ⟨Nat.lt_succ_self _, fun entry he => ?_⟩
    exact Nat.lt_succ_of_lt (h.below entry he)
  · refine List.nodup_cons.2 ⟨fun hm => ?_, h.once⟩
    obtain ⟨entry, he, hk⟩ := List.mem_map.1 hm
    have := h.below entry he
    rw [hk] at this
    exact Nat.lt_irrefl _ this
  · show (e.modules.insert ⟨e.nextKey⟩ (m.bodied.map (·.name))).get? key =
      (((loaded changes).insert ⟨added changes⟩ m).get? key).map fun m => m.bodied.map (·.name)
    rw [Dict.get?_insert, Dict.get?_insert, h.nextKey]
    split
    · rfl
    · exact h.modules key
  · obtain ⟨none, hl⟩ := lost_add.1 hl
    rw [change, lookup, none, h.lost hl]
    rfl
  · rw [change, lookup, newest?_add]
    cases hm : m.body? name with
    | some f => rfl
    | none =>
      rw [h.held fun lost => hl (lost_add.2 ⟨hm, lost⟩)]

/-- The module with a key is the only one. -/
theorem Reflects.get?_of_mem (h : e.Reflects changes) {entry : ModuleKey × Module}
    (he : entry ∈ (loaded changes).entries) : (loaded changes).get? entry.1 = some entry.2 := by
  have once := h.once
  unfold Dict.get?
  generalize (loaded changes).entries = entries at he once
  induction entries with
  | nil => cases he
  | cons first entries ih =>
    obtain ⟨fresh, once⟩ := List.nodup_cons.1 once
    rcases List.mem_cons.1 he with rfl | he
    · simp
    · have hne : first.1 ≠ entry.1 := fun hk => fresh (List.mem_map.2 ⟨entry, he, hk.symm⟩)
      rw [List.find?_cons_of_neg (by simpa using hne)]
      exact ih he once

/-- Elements that are of no use to a search can be dropped before it. -/
theorem findSome?_filter {α β : Type} {keep : α → Bool} {f : α → Option β} {l : List α}
    (h : ∀ x ∈ l, keep x = false → f x = none) : (l.filter keep).findSome? f = l.findSome? f := by
  induction l with
  | nil => rfl
  | cons x l ih =>
    obtain ⟨hx, hl⟩ := List.forall_mem_cons.1 h
    cases hk : keep x with
    | true => rw [List.filter_cons_of_pos hk, List.findSome?_cons, List.findSome?_cons, ih hl]
    | false =>
      rw [List.filter_cons_of_neg (by simp [hk]), List.findSome?_cons, hx hk, ih hl]

/-- Unloading a module that does not define a name. -/
theorem Reflects.newest?_remove (h : e.Reflects changes)
    (hm : ∀ m, (loaded changes).get? key = some m → m.body? name = none) :
    newest? (.remove key :: changes) name = newest? changes name := by
  refine findSome?_filter fun entry he hk => ?_
  have hk : entry.1 = key := by simpa using hk
  exact hm _ (hk ▸ h.get?_of_mem he)

/-- Unloading a module takes its names out of the table, which is to say that they get lost. -/
theorem Reflects.remove (h : e.Reflects changes) (key : ModuleKey) :
    Reflects (e.change (.remove key)) (.remove key :: changes) := by
  -- the names of a module are taken out whatever they stand for
  have lookup : ∀ name, (e.change (.remove key)).lookup name =
      if ∃ m, (loaded changes).get? key = some m ∧ (m.body? name).isSome then none
      else e.lookup name := by
    intro name
    have named := h.modules key
    simp only [change, Engine.remove]
    cases hm : (loaded changes).get? key with
    | none =>
      rw [hm] at named
      simp [named]
    | some m =>
      rw [hm] at named
      simp only [named, Option.map_some, Engine.lookup, get?_foldl_erase, Option.some.injEq,
        exists_eq_left', Module.body?_isSome_iff]
  have modules : ∀ k, (e.change (.remove key)).modules.get? k = (e.modules.erase key).get? k := by
    intro k
    have named := h.modules key
    simp only [change, Engine.remove]
    split
    · rfl
    · next hn =>
      rw [Dict.get?_erase]
      split
      · next he => rw [he, hn]
      · rfl
  have sublist : ((loaded (.remove key :: changes)).entries).Sublist (loaded changes).entries :=
    List.filter_sublist
  refine ⟨?_, fun entry he => h.below entry (sublist.subset he), h.once.sublist (sublist.map _),
    fun k => ?_, fun {name} hl => ?_, fun {name} hl => ?_⟩
  · rw [added, ← h.nextKey]
    simp only [change, Engine.remove]
    split <;> rfl
  · rw [modules, Dict.get?_erase, loaded, Dict.get?_erase]
    split
    · rfl
    · exact h.modules k
  · rw [lookup]
    split
    · rfl
    · next hn => exact h.lost ((lost_remove.1 hl).resolve_left hn)
  · obtain ⟨hn, hl⟩ := not_or.1 (mt lost_remove.2 hl)
    rw [lookup, if_neg hn, h.held hl]
    refine (h.newest?_remove fun m hm => ?_).symm
    by_contra hsome
    exact hn ⟨m, hm, Option.isSome_iff_ne_none.2 hsome⟩

/-- Whatever was added and removed, the tables agree with it. -/
theorem reflects_changed (changes : List Change) : (changed changes).Reflects changes := by
  induction changes with
  | nil =>
    refine ⟨rfl, nofun, .nil, fun key => rfl, fun hl => rfl, fun hl => rfl⟩
  | cons c changes ih =>
    cases c with
    | add m => exact ih.add m
    | remove key => exact ih.remove key

/-- **What names stand for.** After any additions and removals of modules, a name stands for the
function that the latest loaded module with a body for it gives to it, unless a module that defines
the name was unloaded and none that defines it was added since; then it stands for nothing. If no
module was ever unloaded while another one defined the same name, the exception says nothing. -/
theorem lookup_changed (changes : List Change) (name : String) :
    (∀ f, (changed changes).lookup name = some f ↔
      newest? changes name = some f ∧ ¬ Lost name changes) ∧
    (Alone name changes → (changed changes).lookup name = newest? changes name) := by
  have reflects := reflects_changed changes
  constructor
  · intro f
    by_cases hl : Lost name changes
    · simp [reflects.lost hl, hl]
    · simp [reflects.held hl, hl]
  · intro alone
    by_cases hl : Lost name changes
    · rw [reflects.lost hl, hl.newest?_eq_none alone]
    · exact reflects.held hl

/-- A module with one function, which gives back a number. -/
def constantly (name : String) (value : Float) : Module where
  name := "m"
  functions := #[{
    name
    params := []
    blocks := #[{ label := "entry", insts := [.const ⟨0⟩ value], term := some (.ret ⟨0⟩) }]
    values := #[""] }]

/-- Two modules are added, and the first is unloaded, which shares no name with the second. -/
def apart : List Change :=
  [.remove ⟨0⟩, .add (constantly "g" 2.0), .add (constantly "f" 1.0)]

theorem lookup_changed_apart :
    Alone "g" apart ∧ (changed apart).lookup "g" = newest? apart "g" ∧
      (newest? apart "g").isSome := by
  have alone : Alone "g" apart := by
    intro later key m earlier split hget hbody
    cases later with
    | nil =>
      cases split
      cases hget
      cases hbody
    | cons c later =>
      -- the changes before the last one are additions
      have later : Change.remove key ∈ apart.tail := by
        rw [show apart.tail = later ++ .remove key :: earlier from (List.cons.inj split).2]
        simp
      simp [apart] at later
  exact ⟨alone, (lookup_changed apart "g").2 alone, rfl⟩

/-- Two modules define the same name, and the first is unloaded. -/
def sharedName : List Change :=
  [.remove ⟨0⟩, .add (constantly "f" 2.0), .add (constantly "f" 1.0)]

/-- **A name that two modules share is lost with either.** When the first module is unloaded, the
name of the second stands for nothing, although the second is loaded; and the name of the first does
not come back when the second is unloaded. -/
theorem sharedName_lost :
    ((newest? sharedName "f").isSome ∧ (changed sharedName).lookup "f" = none ∧
      (changed sharedName).run 1 "f" [] "" = .error (.unresolved "f") "" ∧
      (changed sharedName.tail).run 1 "f" [] "" = .ok 2.0 "") ∧
    (newest? (.remove ⟨1⟩ :: sharedName.tail) "f").isSome ∧
      (changed (.remove ⟨1⟩ :: sharedName.tail)).lookup "f" = none :=
  ⟨⟨rfl, rfl, rfl, rfl⟩, rfl, rfl⟩

end Changes

end Engine

end Kaleidoscope
