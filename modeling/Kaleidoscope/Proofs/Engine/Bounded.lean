import Kaleidoscope.Proofs.Action
import Kaleidoscope.Engine.Frame
import Mathlib.Tactic.ByContra

/-!
# Runs under a bound

A run under a bound either comes to its end, and then a larger bound changes nothing, or it is cut
off, and then a larger bound may only add to what was written. `Within r r'` compares two results in
this sense. `Simulates K a m` says it of a run `a`, whose own bound is `K`, and of a family `m` of
runs under every bound: the runs whose bound is not above `K` stay within `a`, and `a` stays within
all runs whose bound is large enough. It is closed under sequencing (`Simulates.bind`).

Two families of runs that stay within each other come to the same (`SameRuns`): the bounds no longer
show.
-/

namespace Kaleidoscope.Engine

/-- The text that a result comes with. -/
def written {α : Type} : EStateM.Result Stop String α → String
  | .ok _ log => log
  | .error _ log => log

/-- The result comes with the given text and possibly more. -/
def Grown {α : Type} (log : String) (r : EStateM.Result Stop String α) : Prop :=
  ∃ more, written r = log ++ more

/-- The results are the same, or the first is cut off before the second. -/
def Within {α : Type} (r r' : EStateM.Result Stop String α) : Prop :=
  r = r' ∨ ∃ log, r = .error .outOfFuel log ∧ Grown log r'

/-- What was written before a run stays. -/
def Grows {α : Type} (a : Run α) : Prop :=
  ∀ log, Grown log (a log)

variable {α β : Type} {r r' r'' : EStateM.Result Stop String α} {a : Run α} {k : α → Run β}
  {log log' : String}

theorem Grown.trans (h : ∃ more, log' = log ++ more) (h' : Grown log' r) : Grown log r := by
  obtain ⟨s, rfl⟩ := h
  obtain ⟨t, ht⟩ := h'
  exact ⟨s ++ t, by rw [ht, String.append_assoc]⟩

theorem Within.refl (r : EStateM.Result Stop String α) : Within r r :=
  .inl rfl

/-- A run that came to a result under one bound comes to it under all larger ones. -/
theorem Within.eq_of_ok {x : α} (h : Within (.ok x log) r) : r = .ok x log := by
  rcases h with h | ⟨_, h, _⟩
  · exact h.symm
  · cases h

/-- The same of a run that was stopped, unless it was the bound that stopped it. -/
theorem Within.eq_of_error {e : Stop} (h : Within (.error e log) r) (he : e ≠ .outOfFuel) :
    r = .error e log := by
  rcases h with h | ⟨_, h, _⟩
  · exact h.symm
  · cases h
    exact absurd rfl he

/-- A result that another one stays within has at least as much text. -/
theorem Within.grown (h : Within r r') : Grown (written r) r' := by
  rcases h with rfl | ⟨log, rfl, h⟩
  · exact ⟨"", by simp⟩
  · exact h

/-- A run that is cut off stays within whatever has at least its text. -/
theorem within_cut (h : Grown log r) : Within (.error .outOfFuel log) r :=
  .inr ⟨log, rfl, h⟩

section Growth

theorem grows_pure (x : α) : Grows (pure x : Run α) :=
  fun log => ⟨"", (String.append_empty (s := log)).symm⟩

theorem grows_throw (e : Stop) : Grows (throw e : Run α) :=
  fun log => ⟨"", (String.append_empty (s := log)).symm⟩

/-- What both parts of a sequence leave standing, the sequence leaves standing. -/
theorem Grows.bind (ha : Grows a) (hk : ∀ x, Grows (k x)) : Grows (a >>= k) := by
  intro log
  have h := ha log
  cases he : a log with
  | ok x log' =>
    rw [bind_of_ok he]
    rw [he] at h
    exact .trans h (hk x log')
  | error e log' =>
    rw [bind_of_error he]
    rw [he] at h
    exact h

end Growth

/-- The runs under the bounds up to `K` stay within `a`, and `a` stays within the runs under all large
bounds. -/
structure Simulates (K : Nat) (a : Run α) (m : Nat → Run α) : Prop where
  grows : ∀ n, Grows (m n)
  within : ∀ n ≤ K, ∀ log, Within (m n log) (a log)
  reaches : ∀ log, ∃ N, ∀ n ≥ N, Within (a log) (m n log)

namespace Simulates

variable {K : Nat} {m : Nat → Run α} {l : Nat → α → Run β}

theorem refl (h : Grows a) : Simulates K a fun _ => a where
  grows _ := h
  within _ _ _ := .refl _
  reaches _ := ⟨0, fun _ _ => .refl _⟩

theorem left_grows (h : Simulates K a m) : Grows a :=
  fun log => .trans (h.grows 0 log) (h.within 0 (Nat.zero_le K) log).grown

/-- One action after another. -/
theorem bind (h : Simulates K a m) (hk : ∀ x, Simulates K (k x) fun n => l n x) :
    Simulates K (a >>= k) fun n => m n >>= l n where
  grows n := (h.grows n).bind fun x => (hk x).grows n
  within := by
    intro n hn log
    rcases h.within n hn log with he | ⟨log', he, hg⟩
    · cases ha : a log with
      | ok x log' =>
        rw [bind_of_ok ha, bind_of_ok (he.trans ha)]
        exact (hk x).within n hn log'
      | error e log' =>
        rw [bind_of_error ha, bind_of_error (he.trans ha)]
        exact .refl _
    -- the first part is cut off, and with it the sequence
    · rw [bind_of_error he]
      apply within_cut
      cases ha : a log with
      | ok x log₁ =>
        rw [bind_of_ok ha]
        rw [ha] at hg
        exact .trans hg ((hk x).left_grows log₁)
      | error e log₁ =>
        rw [bind_of_error ha]
        rw [ha] at hg
        exact hg
  reaches := by
    intro log
    obtain ⟨N, hN⟩ := h.reaches log
    cases ha : a log with
    | ok x log' =>
      obtain ⟨M, hM⟩ := (hk x).reaches log'
      refine ⟨max N M, fun n hn => ?_⟩
      have hm : m n log = .ok x log' := (ha ▸ hN n (by omega)).eq_of_ok
      rw [bind_of_ok ha, bind_of_ok hm]
      exact hM n (by omega)
    | error e log' =>
      refine ⟨N, fun n hn => ?_⟩
      rw [bind_of_error ha]
      rcases ha ▸ hN n hn with he | ⟨log₁, he, hg⟩
      · rw [bind_of_error he.symm]
        exact .refl _
      · cases he
        apply within_cut
        cases hm : m n log with
        | ok x log₁ =>
          rw [bind_of_ok hm]
          rw [hm] at hg
          exact .trans hg ((hk x).grows n log₁)
        | error e log₁ =>
          rw [bind_of_error hm]
          rw [hm] at hg
          exact hg

/-- The step from one bound to the next: under a bound that is used up the runs are cut off. -/
theorem later {s : Nat} {m' : Nat → Run α} (h : Simulates K a m)
    (cut : ∀ n ≤ s, m' n = throw .outOfFuel) (go : ∀ n > s, m' n = m n) : Simulates K a m' where
  grows n := by
    rcases Nat.lt_or_ge s n with hs | hs
    · exact go n hs ▸ h.grows n
    · exact cut n hs ▸ grows_throw _
  within n hn log := by
    rcases Nat.lt_or_ge s n with hs | hs
    · exact go n hs ▸ h.within n hn log
    · exact cut n hs ▸ within_cut (h.left_grows log)
  reaches log := by
    obtain ⟨N, hN⟩ := h.reaches log
    refine ⟨max N (s + 1), fun n hn => ?_⟩
    rw [go n (by omega)]
    exact hN n (by omega)

/-- A run whose bound is used up simulates runs that are cut off under the same bound. -/
theorem cut {s : Nat} (grows : ∀ n, Grows (m n)) (cut : ∀ n ≤ s, m n = throw .outOfFuel)
    (h : K ≤ s) : Simulates K (throw .outOfFuel) m where
  grows := grows
  within n hn log := by
    rw [cut n (by omega)]
    exact .refl _
  reaches log := ⟨0, fun n _ => within_cut (grows n log)⟩

end Simulates

section Sameness

/-- From some bound on, the runs end with this result, and are not cut off. -/
def Settles (m : Nat → Run α) (log : String) (r : EStateM.Result Stop String α) : Prop :=
  (∀ log, r ≠ .error .outOfFuel log) ∧ ∃ N, ∀ n ≥ N, m n log = r

/-- The runs are cut off under every bound. -/
def Diverges (m : Nat → Run α) (log : String) : Prop :=
  ∀ n, ∃ log', m n log = .error .outOfFuel log'

/-- Some run writes the text, and possibly more. -/
def Writes (m : Nat → Run α) (log text : String) : Prop :=
  ∃ n, Grown text (m n log)

/-- Two families of runs come to the same: to the same result with the same text, or to none, and then
they write the same text as they go on. -/
structure SameRuns (m m' : Nat → Run α) (log : String) : Prop where
  settles : ∀ r, Settles m log r ↔ Settles m' log r
  diverges : Diverges m log ↔ Diverges m' log
  settles_or_diverges : (∃ r, Settles m log r) ∨ Diverges m log
  writes : ∀ text, Writes m log text ↔ Writes m' log text

theorem Within.eq_of_settled (h : Within r r') (hr : ∀ log, r ≠ .error .outOfFuel log) : r' = r := by
  rcases h with h | ⟨log, h, _⟩
  · exact h.symm
  · exact absurd h (hr log)

/-- Two families of which each run stays within all large runs of the other come to the same. -/
theorem SameRuns.of_within {m m' : Nat → Run α} {log : String}
    (h : ∀ n, ∃ N, ∀ n' ≥ N, Within (m n log) (m' n' log))
    (h' : ∀ n, ∃ N, ∀ n' ≥ N, Within (m' n log) (m n' log)) : SameRuns m m' log := by
  have settles : ∀ {m m' : Nat → Run α}, (∀ n, ∃ N, ∀ n' ≥ N, Within (m n log) (m' n' log)) →
      ∀ {n r}, m n log = r → (∀ log, r ≠ .error .outOfFuel log) → Settles m' log r := by
    intro m m' h n r hn hr
    obtain ⟨N, hN⟩ := h n
    exact ⟨hr, N, fun n' hn' => (hn ▸ hN n' hn').eq_of_settled hr⟩
  have diverges : ∀ {m m' : Nat → Run α}, (∀ n, ∃ N, ∀ n' ≥ N, Within (m' n log) (m n' log)) →
      Diverges m log → Diverges m' log := by
    intro m m' h hd n
    by_contra hn
    obtain ⟨-, N, hN⟩ := settles h rfl fun log' he => hn ⟨log', he⟩
    obtain ⟨log', he⟩ := hd N
    exact hn ⟨log', (hN N (Nat.le_refl N)).symm.trans he⟩
  have writes : ∀ {m m' : Nat → Run α}, (∀ n, ∃ N, ∀ n' ≥ N, Within (m n log) (m' n' log)) →
      ∀ {text}, Writes m log text → Writes m' log text := by
    intro m m' h text ⟨n, more, hn⟩
    obtain ⟨N, hN⟩ := h n
    exact ⟨N, .trans ⟨more, hn⟩ (hN N (Nat.le_refl N)).grown⟩
  refine ⟨fun r => ⟨fun ⟨hr, N, hN⟩ => settles h (hN N (Nat.le_refl N)) hr,
    fun ⟨hr, N, hN⟩ => settles h' (hN N (Nat.le_refl N)) hr⟩,
    ⟨diverges h', diverges h⟩, ?_, fun text => ⟨writes h, writes h'⟩⟩
  by_cases hd : Diverges m log
  · exact .inr hd
  · refine .inl ?_
    obtain ⟨n, hn⟩ := not_forall.1 hd
    obtain ⟨hr, N, hN⟩ := settles h rfl fun log' he => hn ⟨log', he⟩
    exact ⟨_, settles h' (hN N (Nat.le_refl N)) hr⟩

end Sameness

end Kaleidoscope.Engine
