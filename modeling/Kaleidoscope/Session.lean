import Kaleidoscope.Form.Reading
import Kaleidoscope.Lowering.Basic
import Kaleidoscope.Engine.Basic
import Kaleidoscope.Ssa.Printer

/-!
# Sessions

A session reads one form after another, shows its code, and runs bare expressions. Each definition
is handed over to the engine in a module of its own; the module of a bare expression is unloaded
once it has run. What a session shows is collected in its log: code, output of the program, values,
prompts and the wording of faults.

`fuel` bounds the number of blocks that each call of a run may visit.
-/

namespace Kaleidoscope

/-- What a form came to. -/
inductive Outcome
  | definition (name : String)
  | declaration (name : String)
  | value (x : Float)
  | skipped

/-- Everything that lasts from form to form. -/
structure Session where
  reader : Reader
  lowering : Lowering
  engine : Engine := {}
  /-- What was written to the user. -/
  log : String := ""

/-- An action on a session that gives a result or a fault. -/
abbrev Act := EStateM Fault Session

namespace Session

/-- A session at the start of a source. -/
def ofBytes (source : List UInt8) : Session :=
  { reader := .ofBytes source, lowering := .empty "my cool jit" }

/-- Writes to the user. -/
def write (text : String) (s : Session) : Session :=
  { s with log := s.log ++ text }

/-- The session with an empty log, and what was in it. -/
def takeLog (s : Session) : String × Session :=
  (s.log, { s with log := "" })

/-- The session moved to the start of another source. -/
def setSource (source : List UInt8) (s : Session) : Session :=
  { s with reader := s.reader.setSource source }

/-- Hands the module under construction over to the engine. -/
def load (s : Session) : ModuleKey × Session :=
  let (module, lowering) := s.lowering.take
  let (key, engine) := s.engine.add module
  (key, { s with lowering, engine })

end Session

namespace Act

/-- Reads the next form. -/
def read : Act (Option Form) := fun s =>
  match Read.form s.reader with
  | .ok form reader => .ok form { s with reader }
  | .error fault reader => .error fault { s with reader }

/-- Lowers a form. -/
def lower {α : Type} (action : Lower α) : Act α := fun s =>
  match action s.lowering with
  | .ok a lowering => .ok a { s with lowering }
  | .error fault lowering => .error fault { s with lowering }

/-- Shows a function of the module under construction under a title. -/
def dump (title : String) (f : Ssa.FuncId) : Act Unit :=
  modify fun s =>
    s.write (title ++ "\n" ++ ((s.lowering.builder.func? f).map Ssa.Func.text).getD "")

/-- Runs a loaded function, its output going to the log. -/
def run (fuel : Nat) (name : String) (args : List Float) : Act Float := fun s =>
  match s.engine.run fuel name args s.log with
  | .ok x log => .ok x { s with log }
  | .error stop log => .error (.stopped stop) { s with log }

/-- Handles a definition. -/
def definition (d : Definition) : Act Outcome := do
  dump "Read function definition:" (← lower (Lower.definition d))
  let _ ← modifyGet Session.load
  return .definition d.proto.name

/-- Handles a declaration. -/
def declaration (proto : Prototype) : Act Outcome := do
  dump "Read extern:" (← lower (Lower.declaration proto))
  return .declaration proto.name

/-- Handles a bare expression. Its module is unloaded and its name forgotten, whether or not it has
a value. -/
def expression (fuel : Nat) (d : Definition) : Act Outcome := do
  dump "Read top-level expression:" (← lower (Lower.definition d))
  let key ← modifyGet Session.load
  let unload : Act Unit := modify fun s =>
    { s with engine := s.engine.remove key, lowering := s.lowering.forget d.proto.name }
  let x ← tryCatch (run fuel d.proto.name []) fun fault => do
    unload
    throw fault
  unload
  modify (·.write s!"Evaluated to {Decimal.fixed 6 x}\n")
  return .value x

/-- Handles a form. -/
def form (fuel : Nat) : Form → Act Outcome
  | .separator => return .skipped
  | .definition d => definition d
  | .declaration proto => declaration proto
  | .expression d => expression fuel d

/-- Reads and handles the next form; `none` at the end of the source. -/
def step (fuel : Nat) : Act (Option Outcome) := do
  match ← read with
  | none => return none
  | some f => return some (← form fuel f)

end Act

namespace Session

/-- Handles form after form to the end of the source, at most as many as the bound says. A session
with a prompt shows it before every form. -/
def runWithin (fuel : Nat) (prompt : Bool) : Nat → Session → Session
  | 0, s => s
  | n + 1, s =>
    let s := if prompt then s.write "ready> " else s
    match Act.step fuel s with
    | .ok none s => s
    | .ok (some _) s => runWithin fuel prompt n s
    | .error fault s => runWithin fuel prompt n (s.write s!"Error: {fault.message}\n")

/-- Handles form after form to the end of the source. Every form or fault uses up a token or a fault
of the source, which bounds their number. -/
def runAll (fuel : Nat) (prompt : Bool) (s : Session) : Session :=
  runWithin fuel prompt (s.reader.size + 1) s

end Session

/-- Handles all forms of a file, and then moves on to another source. A file that could not be read
leaves the source as it is. -/
def Act.file (fuel : Nat) (path : String) (content : Except Unreadable (List UInt8))
    (after : List UInt8) : Act Unit := fun s =>
  match content with
  | .ok source => .ok () (((s.setSource source).runAll fuel false).setSource after)
  | .error cause => .error (.unreadable path cause) s

end Kaleidoscope
