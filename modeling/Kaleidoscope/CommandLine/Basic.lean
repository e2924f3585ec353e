import Kaleidoscope.Text.Likeness
import Kaleidoscope.Text.Printable

/-!
# The options of the command line

The options of the program, what a command line can ask for, and what can be wrong with it. A misuse
is told with a usage line. A long option that is unknown but like one of the program brings a tip.
-/

namespace Kaleidoscope.CommandLine

/-- The options of the program. -/
inductive Switch
  /-- A file to include comes before the standard input. -/
  | includeFile
  | help
  | version
  deriving DecidableEq, Repr

namespace Switch

/-- All options, in the order of the help. -/
def all : List Switch := [.includeFile, .help, .version]

/-- The name of an option, which is written after two dashes. -/
def name : Switch → String
  | .includeFile => "include-file"
  | .help => "help"
  | .version => "version"

/-- The letter of an option, which is written after one dash. -/
def letter : Switch → Char
  | .includeFile => 'i'
  | .help => 'h'
  | .version => 'V'

/-- The option as a usage line shows it, with what it takes. -/
def usage : Switch → String
  | .includeFile => "--include-file <PATH>"
  | .help => "--help"
  | .version => "--version"

/-- The option with the given name. -/
def ofName? (name : String) : Option Switch :=
  all.find? (·.name = name)

/-- The option with the given letter. -/
def ofLetter? (letter : Char) : Option Switch :=
  all.find? (·.letter = letter)

theorem ofName?_name (s : Switch) : ofName? s.name = some s := by
  cases s <;> decide

theorem ofLetter?_letter (s : Switch) : ofLetter? s.letter = some s := by
  cases s <;> decide

/-- How like an option a name must be to bring a tip. -/
def tipThreshold : Float := 0.7

/-- The option that an unknown name is most like, if it is like enough; of several the last one. -/
def similar? (name : String) : Option Switch :=
  let likeness := fun s : Switch => Text.likeness name.toList s.name.toList
  (all.filter fun s => tipThreshold < likeness s).foldl
    (fun best s =>
      match best with
      | some t => if likeness s < likeness t then some t else some s
      | none => some s)
    none

end Switch

/-- What the arguments ask for. -/
inductive Request
  | version
  | help
  /-- The files to include. -/
  | run (includes : List String)
  deriving DecidableEq, Repr

/-- What is wrong with the arguments. `used` are the options that the usage line repeats. -/
inductive Misuse
  /-- An argument that means nothing here, and the option that was perhaps meant. -/
  | unexpected (arg : String) (similar : Option Switch) (used : List Switch)
  /-- A value for an option that takes none. -/
  | unneeded (switch : Switch) (value : String) (used : List Switch)
  /-- No path, or an empty one, for a file to include. -/
  | missingPath
  deriving DecidableEq, Repr

/-- The usage line of a command line with the given options. -/
def usageLine (used : List Switch) : String :=
  "Usage: kscope " ++
    if used.isEmpty then "[OPTIONS]" else " ".intercalate (used.eraseDups.map Switch.usage)

/-- What is wrong, in a sentence and perhaps a tip, and the usage line if that helps. -/
def Misuse.parts : Misuse → List String
  | .unexpected arg similar used =>
    [s!"error: unexpected argument '{Text.printable arg}' found"] ++
      (similar.map fun s => s!"  tip: a similar argument exists: '--{s.name}'").toList ++
      [usageLine (used ++ similar.toList)]
  | .unneeded s value used =>
    [s!"error: unexpected value '{Text.printable value}' for '{s.usage}' found; " ++
        "no more were expected",
      usageLine (used ++ [s])]
  | .missingPath =>
    [s!"error: a value is required for '{Switch.usage .includeFile}' but none was supplied"]

/-- The wording of a misuse. -/
def Misuse.message (m : Misuse) : String :=
  "\n\n".intercalate (m.parts ++ ["For more information, try '--help'.\n"])

/-- The text of the version. -/
def versionText : String := "kscope 0.1.0\n"

/-- The text of the help. -/
def helpText : String :=
  "A simple kaleidoscope interpreter\n\n" ++
  "Usage: kscope [OPTIONS]\n\n" ++
  "Options:\n" ++
  "  -i, --include-file <PATH>  Run the forms in PATH before reading from stdin\n" ++
  "  -h, --help                 Print help\n" ++
  "  -V, --version              Print version\n"

end Kaleidoscope.CommandLine
