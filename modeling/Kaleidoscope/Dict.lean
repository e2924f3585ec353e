/-!
# Dictionaries

A finite map from keys to values, kept as a list of pairs in which the first pair of a key counts.
Everything is said through the view `get?`: one equation for each operation.
-/

namespace Kaleidoscope

/-- A finite map with keys `κ` and values `α`. -/
structure Dict (κ : Type) (α : Type) where
  /-- The pairs, the latest insertion first. -/
  entries : List (κ × α) := []

namespace Dict

variable {κ α : Type} [DecidableEq κ]

/-- The map without keys. -/
def empty : Dict κ α := {}

instance : EmptyCollection (Dict κ α) := ⟨empty⟩

instance : Inhabited (Dict κ α) := ⟨∅⟩

/-- The value of a key. -/
def get? (d : Dict κ α) (k : κ) : Option α :=
  (d.entries.find? (·.1 = k)).map (·.2)

/-- The key has a value. -/
def contains (d : Dict κ α) (k : κ) : Bool :=
  (d.get? k).isSome

/-- The map without the key. -/
def erase (d : Dict κ α) (k : κ) : Dict κ α :=
  ⟨d.entries.filter (·.1 ≠ k)⟩

/-- The map with the key bound to the value, whatever it was bound to before. -/
def insert (d : Dict κ α) (k : κ) (v : α) : Dict κ α :=
  ⟨(k, v) :: d.entries⟩

/-- The map with the key bound as the option says: to its value, or not at all. -/
def put (d : Dict κ α) (k : κ) : Option α → Dict κ α
  | some v => d.insert k v
  | none => d.erase k

@[simp] theorem get?_empty (k : κ) : (∅ : Dict κ α).get? k = none := rfl

/-- A key that is erased has no value; the others keep theirs. -/
theorem get?_erase (d : Dict κ α) (k k' : κ) :
    (d.erase k).get? k' = if k' = k then none else d.get? k' := by
  obtain ⟨es⟩ := d
  induction es with
  | nil => simp [erase, get?]
  | cons e es ih =>
    simp only [get?, erase] at ih ⊢
    by_cases he : e.1 = k
    · by_cases hk : k' = k
      · subst hk; simp [he]
      · have hne : ¬ k = k' := fun h => hk h.symm
        simpa [he, hk, hne] using ih
    · by_cases hk : e.1 = k'
      · have hne : ¬ k' = k := fun h => he (hk.trans h)
        simp [hk, hne]
      · simpa [he, hk] using ih

/-- A key that is inserted has the new value, whatever it had before. -/
theorem get?_insert (d : Dict κ α) (k k' : κ) (v : α) :
    (d.insert k v).get? k' = if k' = k then some v else d.get? k' := by
  by_cases h : k' = k
  · subst h; simp [insert, get?]
  · have hne : ¬ k = k' := fun e => h e.symm
    simp [insert, get?, h, hne]

@[simp] theorem get?_insert_self (d : Dict κ α) (k : κ) (v : α) :
    (d.insert k v).get? k = some v := by
  simp [get?_insert]

theorem get?_put (d : Dict κ α) (k k' : κ) (v : Option α) :
    (d.put k v).get? k' = if k' = k then v else d.get? k' := by
  cases v with
  | none => exact get?_erase d k k'
  | some v => exact get?_insert d k k' v

end Dict

end Kaleidoscope
