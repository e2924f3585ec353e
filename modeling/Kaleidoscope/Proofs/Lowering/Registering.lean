import Kaleidoscope.Proofs.Lowering.Requests
import Mathlib.Data.List.Induction

/-!
# What the module and the registry know of names

Whatever was asked, a function of the module being built is registered with its number of parameters,
no other function of the module has its name, and if it has a body, it has the whole code of a
definition that was accepted (`Lowering.made_of_after`): what was emitted for a definition that was
refused is deleted with its function.

A name keeps the number of parameters that it was given first. A prototype is compared with the
function of the module or else with the registry, but since the two agree it is always the registry
that decides, and requests take nothing out of it (`Lowering.Coherent.holds_ask`).

Main statement: `Lowering.orderly_after`.
-/

namespace Kaleidoscope

open Ssa

/-- The prototype that a request gives to its name. -/
def Request.proto? : Request → Option Prototype
  | .declare proto => some proto
  | .define d => some d.proto
  | .take | .forget _ => none

/-- The request was not refused. -/
def Answer.Granted (a : Answer) : Prop :=
  ∀ e, a ≠ .refused e

/-- The name is registered with so many parameters. -/
def Registry.Holds (registry : Registry) (name : String) (n : Nat) : Prop :=
  ∃ proto, registry.get? name = some proto ∧ proto.arity = n

namespace Lowering

/-- One of the requests was granted, and gave the name so many parameters. -/
def Gave (l : Lowering) (requests : List Request) (name : String) (n : Nat) : Prop :=
  ∃ earlier request later proto, requests = earlier ++ request :: later ∧
    request.proto? = some proto ∧ ((l.after earlier).ask request).1.Granted ∧
    proto.name = name ∧ proto.arity = n

/-- One of the requests was granted, and lowered the definition to the function. -/
def Made (l : Lowering) (requests : List Request) (d : Definition) (f : Func) : Prop :=
  ∃ earlier later i l', requests = earlier ++ .define d :: later ∧
    Lower.definition d (l.after earlier) = .ok i l' ∧ l'.builder.func? i = some f

/-- What the module and the registry know of names after a sequence of requests. -/
structure Orderly (l : Lowering) (requests : List Request) : Prop where
  /-- No two functions of the module have one name. -/
  distinct : ∀ {i j f g}, (l.after requests).builder.func? i = some f →
    (l.after requests).builder.func? j = some g → f.name = g.name → i = j
  /-- Every function of the module is registered with its number of parameters. -/
  registered : ∀ {i f}, (l.after requests).builder.func? i = some f →
    (l.after requests).registry.Holds f.name f.arity
  /-- A function with a body was lowered to its end. -/
  complete : ∀ {i f}, (l.after requests).builder.func? i = some f → f.isDeclaration = false →
    ∃ d g, l.Made requests d f ∧ d.proto.name = f.name ∧ f = g.fold ∧ g.StrictSsa ∧ Bodied g d
  /-- All prototypes of a name that were granted agree, with each other and with what is there. -/
  agreed : ∀ {name n}, l.Gave requests name n →
    (∀ n', l.Gave requests name n' → n' = n) ∧ (l.after requests).registry.Holds name n ∧
    ∀ {i f}, (l.after requests).builder.func? i = some f → f.name = name → f.arity = n

end Lowering

section Origins

variable {l l' : Lowering} {d : Definition} {i j : FuncId} {f : Func} {e : Fault}

/-- Emitting into a declared function gives a body to no other one. -/
theorem Lower.Registered.old_of_body {l₁ : Lowering} (hr : Registered l d.proto i l₁)
    (hj : j ≠ i)
    (hf : (left (Emit.body l₁.registry i d { builder := l₁.builder })).builder.func? j = some f)
    (hb : f.isDeclaration = false) : l.builder.func? j = some f := by
  rcases (hr.widens d).old_or_declared hj hf with old | ⟨_, _, rfl⟩
  · rcases hr.added old with old | rfl
    · exact old
    · cases hb
  · cases hb

/-- An accepted definition gives a body to its own function only. -/
theorem Lower.old_of_definition_ok (h : l.Coherent) (hd : Lower.definition d l = .ok i l')
    (hj : j ≠ i) (hf : l'.builder.func? j = some f) (hb : f.isDeclaration = false) :
    l.builder.func? j = some f := by
  rcases definition_eq h d with ⟨-, he⟩ | ⟨-, -, he⟩ | ⟨-, -, k, l₁, registered, he⟩
  · cases he.symm.trans hd
  · cases he.symm.trans hd
  · obtain ⟨rfl, st, hbody, rfl⟩ := fill_ok (he.symm.trans hd)
    exact registered.old_of_body hj (by rw [hbody]; exact hf) hb

/-- A definition that is refused gives a body to no function. -/
theorem Lower.old_of_definition_error (h : l.Coherent) (hd : Lower.definition d l = .error e l')
    (hf : l'.builder.func? j = some f) (hb : f.isDeclaration = false) :
    ∃ k, l.builder.func? k = some f := by
  rcases definition_eq h d with ⟨-, he⟩ | ⟨-, -, he⟩ | ⟨-, -, k, l₁, registered, he⟩
  · cases he.symm.trans hd
    exact ⟨j, hf⟩
  · cases he.symm.trans hd
    exact ⟨j, hf⟩
  · obtain ⟨st, hbody, rfl⟩ := fill_error (he.symm.trans hd)
    have widens := registered.widens d
    rw [hbody] at widens
    obtain ⟨f₀, h₀, -⟩ := registered.func
    obtain ⟨f₁, h₁, -⟩ := widens.self h₀
    obtain ⟨m, -, hm, hf⟩ := exists_of_delete h₁ hf
    exact ⟨m, registered.old_of_body hm (by rw [hbody]; exact hf) hb⟩

/-- A function with a body was there before a request, or it is that of the definition asked for. -/
theorem Lowering.Coherent.of_ask (h : l.Coherent) {request : Request}
    (hf : (l.ask request).2.builder.func? i = some f) (hb : f.isDeclaration = false) :
    (∃ k, l.builder.func? k = some f) ∨
      ∃ d, request = .define d ∧ Lower.definition d l = .ok i (l.ask request).2 := by
  cases request with
  | declare proto =>
    rcases Lower.declaration_eq h proto with ⟨-, k, l', he, registered⟩ | ⟨-, he⟩
    · simp only [Lowering.ask, he] at hf
      rcases registered.added hf with old | rfl
      · exact .inl ⟨i, old⟩
      · cases hb
    · simp only [Lowering.ask, he] at hf
      exact .inl ⟨i, hf⟩
  | define d =>
    cases hd : Lower.definition d l with
    | ok k l' =>
      simp only [Lowering.ask, hd] at hf
      by_cases hi : i = k
      · subst hi
        exact .inr ⟨d, rfl, by simp only [Lowering.ask, hd]⟩
      · exact .inl ⟨i, Lower.old_of_definition_ok h hd hi hf hb⟩
    | error e l' =>
      simp only [Lowering.ask, hd] at hf
      exact .inl (Lower.old_of_definition_error h hd hf hb)
  | take => simp [Lowering.ask, Lowering.take, Builder.take] at hf
  | forget name => exact .inl ⟨i, hf⟩

/-- The function of a definition has its name. -/
theorem Lower.name_of_definition (h : l.Coherent) (hd : Lower.definition d l = .ok i l')
    (hf : l'.builder.func? i = some f) : f.name = d.proto.name := by
  rcases definition_eq h d with ⟨-, he⟩ | ⟨-, -, he⟩ | ⟨-, -, k, l₁, registered, he⟩
  · cases he.symm.trans hd
  · cases he.symm.trans hd
  · obtain ⟨rfl, st, hbody, rfl⟩ := fill_ok (he.symm.trans hd)
    have widens := registered.widens d
    rw [hbody] at widens
    obtain ⟨g, hg, hn, -⟩ := registered.func
    obtain ⟨g', hg', hn', -⟩ := widens.self hg
    cases hf.symm.trans hg'
    exact hn'.trans hn

end Origins

/-- A name is registered with one number of parameters only. -/
theorem Registry.Holds.eq {registry : Registry} {name : String} {n n' : Nat}
    (h : registry.Holds name n) (h' : registry.Holds name n') : n = n' := by
  obtain ⟨p, hp, rfl⟩ := h
  obtain ⟨p', hp', rfl⟩ := h'
  cases hp.symm.trans hp'
  rfl

namespace Lowering

variable {l : Lowering} {requests : List Request} {request : Request} {d : Definition} {i : FuncId}
  {f : Func} {name : String} {n : Nat}

theorem after_append (requests later : List Request) :
    l.after (requests ++ later) = (l.after requests).after later :=
  List.foldl_append

theorem Made.append (h : l.Made requests d f) (later : List Request) :
    l.Made (requests ++ later) d f := by
  obtain ⟨before, between, i, l', rfl, made⟩ := h
  exact ⟨before, between ++ later, i, l', by simp, made⟩

/-- Every function with a body was lowered from a definition that was asked for. -/
theorem made_of_after (moduleName : String) (requests : List Request) :
    ∀ {i f}, ((Lowering.empty moduleName).after requests).builder.func? i = some f →
      f.isDeclaration = false → ∃ d, (Lowering.empty moduleName).Made requests d f := by
  induction requests using List.reverseRecOn with
  | nil =>
    intro i f hf
    simp [Lowering.after, Lowering.empty] at hf
  | append_singleton requests request ih =>
    intro i f hf hb
    have coherent := Coherent.after requests (coherent_empty moduleName)
    rw [after_append] at hf
    rcases coherent.of_ask hf hb with ⟨k, hk⟩ | ⟨d, rfl, hd⟩
    · obtain ⟨d, made⟩ := ih hk hb
      exact ⟨d, made.append [request]⟩
    · exact ⟨d, requests, [], i, _, rfl, hd, hf⟩

/-- What was lowered from a definition has its name and its whole code. -/
theorem Made.complete {moduleName : String} (h : (Lowering.empty moduleName).Made requests d f) :
    d.proto.name = f.name ∧ ∃ g, f = g.fold ∧ g.StrictSsa ∧ Bodied g d := by
  obtain ⟨earlier, later, i, l', rfl, hd, hf⟩ := h
  have coherent := Coherent.after earlier (coherent_empty moduleName)
  refine ⟨(Lower.name_of_definition coherent hd hf).symm, ?_⟩
  rcases Lower.definition_cases coherent d with ⟨e, l'', he, -⟩ | ⟨k, l'', he, accepted⟩
  · cases he.symm.trans hd
  · cases he.symm.trans hd
    obtain ⟨g, hg, strict, bodied⟩ := accepted.func
    cases hf.symm.trans hg
    exact ⟨g, rfl, strict, bodied⟩

/-- A prototype that was granted agreed with the registry, and is registered from then on. A request
without a prototype, or one that is refused, leaves the registry as it was. -/
theorem Coherent.registry_ask (h : l.Coherent) (request : Request) :
    (∃ proto, request.proto? = some proto ∧ Lower.Agrees l proto ∧
        (l.ask request).2.registry = l.registry.insert proto.name proto) ∨
      (∀ proto, request.proto? = some proto → ¬ (l.ask request).1.Granted) ∧
        (l.ask request).2.registry = l.registry := by
  cases request with
  | declare proto =>
    rcases Lower.declaration_eq h proto with ⟨ha, i, l', he, registered⟩ | ⟨-, he⟩
    · simp only [Lowering.ask, he]
      exact .inl ⟨proto, rfl, ha, registered.registry⟩
    · simp only [Lowering.ask, he]
      exact .inr ⟨fun _ _ granted => granted _ rfl, trivial⟩
  | define d =>
    rcases Lower.definition_cases h d with ⟨e, l', he, alike, -⟩ | ⟨i, l', he, accepted⟩
    · simp only [Lowering.ask, he]
      exact .inr ⟨fun _ _ granted => granted _ rfl, alike.registry.symm⟩
    · have agrees : Lower.Agrees l d.proto := by
        rcases Lower.definition_eq h d with ⟨-, hd⟩ | ⟨-, -, hd⟩ | ⟨-, ha, -⟩
        · cases hd.symm.trans he
        · cases hd.symm.trans he
        · exact ha
      simp only [Lowering.ask, he]
      exact .inl ⟨d.proto, rfl, agrees, accepted.registry⟩
  | take =>
    refine .inr ⟨fun proto hp => ?_, rfl⟩
    cases hp
  | forget name =>
    refine .inr ⟨fun proto hp => ?_, rfl⟩
    cases hp

/-- A name keeps the number of parameters that it is registered with. -/
theorem Coherent.holds_ask (h : l.Coherent) (hk : l.registry.Holds name n) (request : Request) :
    (l.ask request).2.registry.Holds name n := by
  rcases h.registry_ask request with ⟨proto, -, agrees, registry⟩ | ⟨-, registry⟩
  · obtain ⟨p, hp, ha⟩ := hk
    rw [Registry.Holds, registry, Dict.get?_insert]
    split
    · next he => exact ⟨proto, rfl, (agrees p (he ▸ hp)).symm.trans ha⟩
    · exact ⟨p, hp, ha⟩
  · exact registry ▸ hk

/-- By induction on the requests: none of them takes a name out of the registry or changes its
number. -/
theorem Coherent.holds_after (later : List Request) : ∀ {l : Lowering}, l.Coherent →
    l.registry.Holds name n → (l.after later).registry.Holds name n := by
  induction later with
  | nil => exact fun _ hk => hk
  | cons request later ih => exact fun h hk => ih (h.ask request) (h.holds_ask hk request)

/-- The number of parameters that a name was given is registered. -/
theorem Gave.holds (h : l.Coherent) (hg : l.Gave requests name n) :
    (l.after requests).registry.Holds name n := by
  obtain ⟨earlier, request, later, proto, rfl, hp, granted, rfl, rfl⟩ := hg
  have before := Coherent.after earlier h
  rw [after_append]
  refine (before.ask request).holds_after later ?_
  rcases before.registry_ask request with ⟨p, hp', -, registry⟩ | ⟨refused, -⟩
  · cases hp.symm.trans hp'
    exact ⟨proto, registry ▸ Dict.get?_insert_self _ _ _, rfl⟩
  · exact absurd granted (refused proto hp)

/-- **The module and the registry agree on names.** Whatever was declared, defined, handed over or
forgotten, the functions of the module being built have names of their own, each is registered with
its number of parameters, and each that has a body has the whole code of an accepted definition of
its name. A name keeps the number of parameters that the first prototype granted for it had: all
later ones that are granted have it, and so has every function of that name. -/
theorem orderly_after (moduleName : String) (requests : List Request) :
    (Lowering.empty moduleName).Orderly requests := by
  have empty := coherent_empty moduleName
  have coherent := Coherent.after requests empty
  refine ⟨coherent.agreed.distinct, coherent.agreed.registered, fun hf hb => ?_, fun gave => ?_⟩
  · obtain ⟨d, made⟩ := made_of_after moduleName requests hf hb
    obtain ⟨hn, g, whole⟩ := made.complete
    exact ⟨d, g, made, hn, whole⟩
  · have holds := gave.holds empty
    refine ⟨fun n' gave' => (gave'.holds empty).eq holds, holds, fun {i f} hf hn => ?_⟩
    obtain ⟨p, hp, ha⟩ := coherent.agreed.registered hf
    exact Registry.Holds.eq ⟨p, hn ▸ hp, ha⟩ holds

end Lowering

end Kaleidoscope
