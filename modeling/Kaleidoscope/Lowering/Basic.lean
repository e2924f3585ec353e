import Kaleidoscope.Lowering.Emit

/-!
# Lowering

A definition becomes a function of the module under construction, and a declaration one without a
body.

A name is defined once: its second definition is refused, also after the module of the first was
handed over, unless the name has been forgotten. A prototype must agree with what is known about its
name, in the module or else in the registry. A definition that fails deletes its function and puts
the registry back.
-/

namespace Kaleidoscope

open Ssa

/-- The module under construction with what is known about names. -/
structure Lowering where
  builder : Builder
  registry : Registry := ∅
  /-- The names that have a body, here or in a module that was handed over. -/
  defined : List String := []

/-- An action on a lowering that gives a result or a fault. -/
abbrev Lower := EStateM Fault Lowering

namespace Lowering

/-- Lowering into an empty module. -/
def empty (moduleName : String) : Lowering :=
  { builder := .empty moduleName }

/-- The number of parameters that is known for a name. -/
def knownArity (l : Lowering) (name : String) : Option Nat :=
  match l.builder.find? name with
  | some f => some (l.builder.arity f)
  | none => (l.registry.get? name).map Prototype.arity

/-- The name has a body in the module under construction. -/
def hasBody (l : Lowering) (name : String) : Bool :=
  match l.builder.find? name with
  | some f => l.builder.hasBody f
  | none => false

/-- The name has a body, here or in a module that was handed over. -/
def isDefined (l : Lowering) (name : String) : Bool :=
  l.hasBody name || decide (name ∈ l.defined)

/-- Hands over the module and begins an empty one. -/
def take (l : Lowering) : Module × Lowering :=
  let (module, builder) := l.builder.take
  (module, { l with builder })

/-- Lets a name be defined again. -/
def forget (name : String) (l : Lowering) : Lowering :=
  { l with defined := l.defined.filter (· ≠ name) }

end Lowering

namespace Lower

/-- Refuses a prototype that disagrees with what is known about its name. -/
def agree (proto : Prototype) : Lower Unit := do
  match (← get).knownArity proto.name with
  | some n => if n ≠ proto.arity then throw (.signatureMismatch proto.name)
  | none => pure ()

/-- Declares a function and registers its prototype. -/
def declaration (proto : Prototype) : Lower FuncId := do
  agree proto
  modifyGet fun l =>
    let (f, builder) := l.builder.declare proto.name proto.params
    (f, { l with builder, registry := l.registry.insert proto.name proto })

/-- Fills a declared function. If that fails, the function is deleted and the registry is put
back. -/
def fill (before : Registry) (f : FuncId) (d : Definition) : Lower FuncId := fun l =>
  match Emit.body l.registry f d { builder := l.builder } with
  | .ok _ st => .ok f { l with builder := st.builder, defined := d.proto.name :: l.defined }
  | .error fault st => .error fault { l with builder := st.builder.delete f, registry := before }

/-- Defines a function. -/
def definition (d : Definition) : Lower FuncId := do
  if (← get).isDefined d.proto.name then throw (.redefinition d.proto.name)
  let before := (← get).registry
  let f ← declaration d.proto
  fill before f d

end Lower

end Kaleidoscope
