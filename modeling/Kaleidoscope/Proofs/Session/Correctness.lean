import Kaleidoscope.Proofs.Session.History

/-!
# Sessions run what their definitions mean

Whatever forms a session has handled, a run of a defined function comes to what evaluating the body
of its definition comes to. Main statement: `Holds.run_sameRuns_value`.
-/

namespace Kaleidoscope

open Engine

/-- The value of a defined function, from the body of its definition and without any code. -/
def Definition.value (definitions : Dict String Definition) (d : Definition) (args : List Float)
    (fuel : Nat) : Run Float :=
  d.body.eval (Definition.callWithin definitions fuel (maxDepth - 1)) fuel
    (.bind ∅ d.proto.params args)

/-- Whichever functions a session holds, they implement the definitions it goes by. -/
theorem Holds.linked {s : Session} {definitions : Dict String Definition}
    (h : Holds s definitions) : Linked s.engine definitions := by
  obtain ⟨p, rfl, sound⟩ := h.sound
  exact sound.linked

/-- **Compiler correctness.** In a session that has come about in whatever way, each name that is
defined, and the bare expression while it runs, does on every list of arguments of the right length
what the body of its definition means: it ends with the same value or the same fault and has written
the same text, or it goes on without end as the body does, and writes the same. -/
theorem Holds.run_sameRuns_value {s : Session} {definitions : Dict String Definition}
    (h : Holds s definitions) {name : String} {d : Definition}
    (hd : definitions.get? name = some d) {args : List Float} (ha : args.length = d.proto.arity)
    (log : String) :
    SameRuns (fun fuel => s.engine.run fuel name args)
      (fun fuel => d.value definitions args fuel) log := by
  have meaning : ∀ fuel, Definition.callWithin definitions fuel maxDepth name args =
      d.value definitions args fuel := by
    intro fuel
    show Definition.callWithin definitions fuel (maxDepth - 1 + 1) name args = _
    simp only [Definition.callWithin, hd, if_pos ha.symm, Definition.value]
  have same := sameRuns_of_linked h.linked name args log
  simp only [meaning] at same
  exact same

/-- A function that calls itself. -/
def factorial : List UInt8 :=
  "def f(n) if n<2 then 1 else n*f(n-1)".toUTF8.data.toList

/-- The factorial of three, run in the session that has defined it. -/
theorem run_sameRuns_value_factorial :
    ∃ d, (Past.after {} (.ofBytes factorial)).definitions.get? "f" = some d ∧
      d.proto = ⟨.function "f", ["n"]⟩ ∧
      SameRuns (fun fuel => (left (Act.step 0 (.ofBytes factorial))).engine.run fuel "f" [3.0])
        (fun fuel => d.value (Past.after {} (.ofBytes factorial)).definitions [3.0] fuel) "" := by
  have reachable : Reachable (left (Act.step 0 (.ofBytes factorial)))
      (Past.after {} (.ofBytes factorial)) := .step 0 (.start factorial)
  have proto : ((Past.after {} (.ofBytes factorial)).definitions.get? "f").map (·.proto) =
      some ⟨.function "f", ["n"]⟩ := by decide +kernel
  obtain ⟨d, hd, hp⟩ := Option.map_eq_some_iff.1 proto
  have arity : ([3.0] : List Float).length = d.proto.arity := by
    rw [hp]
    rfl
  exact ⟨d, hd, hp, (Holds.resting reachable).run_sameRuns_value hd arity ""⟩

end Kaleidoscope
