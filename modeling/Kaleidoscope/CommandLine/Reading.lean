import Kaleidoscope.CommandLine.Basic

/-!
# Reading the arguments

An argument with a dash is an option, whatever comes before it. The path for a file to include is
attached to its option or is the next argument. It is checked when the next option comes, or the
end, so a misuse found meanwhile is told first. The help and the version end the reading.
-/

namespace Kaleidoscope.CommandLine

/-- What a single argument is. -/
inductive Argument
  /-- No argument after this one is an option. -/
  | separator
  /-- An option, and the value attached to it. -/
  | option (switch : Switch) (value : Option String)
  | unknownName (name : String)
  | unknownLetter (letter : Char)
  | text (text : String)
  deriving DecidableEq, Repr

namespace Argument

/-- What follows two dashes: a name, and perhaps a value after the first equals sign. -/
def ofLong (cs : List Char) : Argument :=
  let name := String.ofList (cs.takeWhile (· ≠ '='))
  let value := match cs.dropWhile (· ≠ '=') with
    | [] => none
    | _ :: value => some (String.ofList value)
  match Switch.ofName? name with
  | some s => .option s value
  | none => .unknownName name

/-- What follows one dash: a letter, and characters that are the path if the option takes one. An
equals sign before the path is left out. -/
def ofShort (letter : Char) (cs : List Char) : Argument :=
  match Switch.ofLetter? letter, cs with
  | some .includeFile, [] => .option .includeFile none
  | some .includeFile, '=' :: path | some .includeFile, path =>
    .option .includeFile (some (String.ofList path))
  | some s, _ => .option s none
  | none, _ => .unknownLetter letter

/-- What an argument is, by its form alone. A single dash is a text. -/
def ofText (arg : String) : Argument :=
  match arg.toList with
  | ['-', '-'] => .separator
  | '-' :: '-' :: cs => ofLong cs
  | '-' :: letter :: cs => ofShort letter cs
  | _ => .text arg

end Argument

/-- An option for a file to include that is not finished. -/
inductive Pending
  | none
  /-- The path is the next argument. -/
  | awaited
  | path (path : String)
  deriving DecidableEq, Repr

/-- How far the arguments have been read. -/
structure Progress where
  /-- The paths of the finished options, the last one first. -/
  includes : List String := []
  pending : Pending := .none

namespace Progress

/-- The options that are finished. -/
def finished (p : Progress) : List Switch :=
  if p.includes.isEmpty then [] else [.includeFile]

/-- The options that have what they take, be it good or not. -/
def given (p : Progress) : List Switch :=
  match p.pending with
  | .path _ => [.includeFile]
  | _ => p.finished

/-- Finishes the pending option, which needs a path that is not empty. -/
def settle (p : Progress) : Except Misuse Progress :=
  match p.pending with
  | .none => .ok p
  | .awaited => .error .missingPath
  | .path path =>
    if path.isEmpty then .error .missingPath else .ok { includes := path :: p.includes }

/-- Finishes the pending option and starts one for a file to include. -/
def start (p : Progress) (value : Option String) : Except Misuse Progress := do
  let p ← p.settle
  match value with
  | none => return { p with pending := .awaited }
  | some path => settle { p with pending := .path path }

/-- The request at the end of the arguments. -/
def finish (p : Progress) : Except Misuse Request :=
  p.settle.map fun p => .run p.includes.reverse

end Progress

/-- Reads the arguments on from how far they have been read. -/
def parseFrom (p : Progress) : List String → Except Misuse Request
  | [] => p.finish
  | arg :: rest =>
    match Argument.ofText arg with
    | .separator =>
      match rest with
      | [] => p.finish
      | first :: _ => .error (.unexpected first none [])
    | .text text =>
      if p.pending = .awaited then parseFrom { p with pending := .path text } rest
      else .error (.unexpected text none [])
    | .option .includeFile value => p.start value >>= fun p => parseFrom p rest
    | .option s (some value) => .error (.unneeded s value p.finished)
    | .option .help none => p.settle.map fun _ => .help
    | .option .version none => p.settle.map fun _ => .version
    | .unknownName name => .error (.unexpected s!"--{name}" (Switch.similar? name) p.given)
    | .unknownLetter letter => .error (.unexpected s!"-{letter}" none [])

/-- Reads the arguments. -/
def parse (args : List String) : Except Misuse Request :=
  parseFrom {} args

end Kaleidoscope.CommandLine
