import Kaleidoscope.Ssa.Basic

/-!
# Scopes

A scope says which slots names stand for. It is its look-up function, so that two scopes in which all
names stand for the same are equal. `put_insert` says that a binding is undone by putting back what
the name stood for.
-/

namespace Kaleidoscope

open Ssa

/-- The slots that names stand for. -/
@[ext] structure Scope where
  /-- The slot that a name stands for. -/
  get? : String → Option SlotId

namespace Scope

instance : EmptyCollection Scope := ⟨⟨fun _ => none⟩⟩

instance : Inhabited Scope := ⟨∅⟩

/-- The scope in which the name stands for what the option says: for a slot, or for nothing. -/
def put (σ : Scope) (name : String) (slot : Option SlotId) : Scope :=
  ⟨fun x => if x = name then slot else σ.get? x⟩

/-- The scope in which the name stands for the slot, whatever it stood for before. -/
def insert (σ : Scope) (name : String) (slot : SlotId) : Scope :=
  σ.put name (some slot)

@[simp] theorem get?_empty (x : String) : (∅ : Scope).get? x = none := rfl

/-- Putting a name in scope, or out of it, hides no other name. -/
theorem get?_put (σ : Scope) (name x : String) (slot : Option SlotId) :
    (σ.put name slot).get? x = if x = name then slot else σ.get? x := rfl

theorem get?_insert (σ : Scope) (name x : String) (slot : SlotId) :
    (σ.insert name slot).get? x = if x = name then some slot else σ.get? x := rfl

/-- Putting back what a name stood for undoes its binding. -/
@[simp] theorem put_insert (σ : Scope) (name : String) (slot : SlotId) :
    (σ.insert name slot).put name (σ.get? name) = σ := by
  ext1
  funext x
  simp only [get?_put, get?_insert]
  split
  · next he => rw [he]
  · rfl

end Scope

end Kaleidoscope
