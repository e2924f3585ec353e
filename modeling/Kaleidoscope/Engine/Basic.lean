import Kaleidoscope.Engine.Frame
import Kaleidoscope.Dict

/-!
# The engine

The engine holds the modules that were handed over to it and runs their functions. A function is
known by its name, the one loaded last if there are several; a name that no module has loaded is
looked for among the host's functions. Calls are resolved when they are made, and may be nested to a
fixed depth.
-/

namespace Kaleidoscope

open Ssa

/-- The key of a loaded module. Fewer than 2 ^ 32 modules are loaded, so that keys do not come back. -/
structure ModuleKey where
  index : Nat
  deriving DecidableEq, Repr

/-- The loaded functions and modules. -/
structure Engine where
  /-- The functions that a call can reach, by name. -/
  symbols : Dict String Func := ∅
  /-- The names that each module has loaded. -/
  modules : Dict ModuleKey (List String) := ∅
  nextKey : Nat := 0

namespace Engine

/-- How deeply calls may be nested. -/
def maxDepth : Nat := 256

/-- Calls a function by name, with so many nested calls allowed, this one included. -/
def callWithin (e : Engine) (fuel : Nat) : Nat → Caller
  | 0, _, _ => throw .stackExhausted
  | depth + 1, name, args =>
    match e.symbols.get? name with
    | some f =>
      if f.arity = args.length then runFunc (e.callWithin fuel depth) fuel f args
      else throw (.wrongArguments name f.arity args.length)
    | none =>
      match Host.ofName? name with
      | some host => do
        modify (· ++ host.written args)
        return 0.0
      | none => throw (.unresolved name)

/-- Runs a function by name. The fuel bounds the number of blocks that each call may visit. -/
def run (e : Engine) (fuel : Nat) (name : String) (args : List Float) : Run Float :=
  e.callWithin fuel maxDepth name args

/-- The loaded function with the given name. -/
def lookup (e : Engine) (name : String) : Option Func :=
  e.symbols.get? name

/-- Loads every function of a module that has a body. -/
def add (m : Module) (e : Engine) : ModuleKey × Engine :=
  let loaded := m.functions.toList.filter (!·.isDeclaration)
  let key := ⟨e.nextKey⟩
  (key, {
    symbols := loaded.foldl (fun symbols f => symbols.insert f.name f) e.symbols
    modules := e.modules.insert key (loaded.map (·.name))
    nextKey := e.nextKey + 1 })

/-- Unloads a module: the names that it has loaded are known no longer, whoever loaded them last. -/
def remove (key : ModuleKey) (e : Engine) : Engine :=
  match e.modules.get? key with
  | some names =>
    { e with symbols := names.foldl Dict.erase e.symbols, modules := e.modules.erase key }
  | none => e

end Engine

end Kaleidoscope
