import Kaleidoscope.Proofs.Lowering.Simulation
import Kaleidoscope.Proofs.Lowering.Strictness
import Kaleidoscope.Proofs.Ssa.Folding

/-!
# Functions that call each other

An engine is linked to definitions if under every name it holds the folded code of the definition of
that name, and nothing where there is none. Then a call by name does in the engine what it means by
the definitions, however deeply calls are nested.
-/

namespace Kaleidoscope

open Ssa Engine

/-- The function is the folded code of the definition, which was accepted before it was folded. -/
def Implements (f : Func) (d : Definition) : Prop :=
  ∃ g : Func, f = g.fold ∧ g.check = .ok () ∧ Bodied g d

/-- Under every name the engine holds what implements the definition of that name. -/
def Linked (e : Engine) (definitions : Dict String Definition) : Prop :=
  ∀ name, Option.Rel Implements (e.symbols.get? name) (definitions.get? name)

variable {e : Engine} {definitions : Dict String Definition}

/-- A call in the engine does what it means by the definitions. -/
theorem simulates_callWithin (h : Linked e definitions) (K depth : Nat) :
    ∀ name args, Simulates K (Definition.callWithin definitions K depth name args)
      fun fuel => e.callWithin fuel depth name args := by
  induction depth with
  | zero => exact fun _ _ => .refl (grows_throw _)
  | succ depth ih =>
    intro name args
    have linked := h name
    simp only [Definition.callWithin, Engine.callWithin]
    cases hd : definitions.get? name with
    | none =>
      rw [hd] at linked
      cases hf : e.symbols.get? name with
      | some f =>
        rw [hf] at linked
        cases linked
      | none =>
        cases hh : Host.ofName? name with
        | some host => exact .refl fun log => ⟨host.written args, rfl⟩
        | none => exact .refl (grows_throw _)
    -- what is loaded is the folded code, and to run it is to run the code itself
    | some d =>
      rw [hd] at linked
      cases hf : e.symbols.get? name with
      | none =>
        rw [hf] at linked
        cases linked
      | some f =>
        rw [hf] at linked
        obtain ⟨g, rfl, hc, hb⟩ : Implements f d := by
          cases linked
          assumption
        have arity : g.fold.arity = d.proto.arity := hb.arity
        simp only [arity]
        by_cases ha : d.proto.arity = args.length
        · simp only [if_pos ha, runFunc_fold hc hb.definesBeforeUse]
          exact hb.simulates ih ha.symm
        · simp only [if_neg ha]
          exact .refl (grows_throw _)

/-- A run in a linked engine comes to what the call means by the definitions. -/
theorem sameRuns_of_linked (h : Linked e definitions) (name : String) (args : List Float)
    (log : String) :
    SameRuns (fun fuel => e.run fuel name args)
      (fun fuel => Definition.callWithin definitions fuel maxDepth name args) log := by
  refine .of_within (fun n => ⟨n, fun K hn => ?_⟩) fun K => ?_
  · exact (simulates_callWithin h K maxDepth name args).within n hn log
  · exact (simulates_callWithin h K maxDepth name args).reaches log

end Kaleidoscope
