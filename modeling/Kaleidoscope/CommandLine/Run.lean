import Kaleidoscope.CommandLine.Reading
import Kaleidoscope.Session

/-!
# A run of the program

The program takes files to include, in order, and then handles its standard input with a prompt.
Everything but the help and the version goes to standard error.
-/

namespace Kaleidoscope.CommandLine

/-- The bound on the number of blocks that each call of a program may visit, out of reach of any
real run. -/
def blockLimit : Nat := Nat.pow 10 18

/-- Includes a file, and shows why if that fails. -/
def includeFile (fuel : Nat) (read : String → Except Unreadable (List UInt8)) (stdin : List UInt8)
    (s : Session) (path : String) : Session :=
  match Act.file fuel path (read path) stdin s with
  | .ok _ s => s
  | .error fault s => s.write s!"ERROR: {fault.message}\n"

/-- Everything that a run of the program shows on standard error. -/
def runSession (fuel : Nat) (read : String → Except Unreadable (List UInt8)) (stdin : List UInt8)
    (includes : List String) : String :=
  let s := includes.foldl (includeFile fuel read stdin) (.ofBytes stdin)
  (s.runAll fuel true).log

/-- How a run of the program ends. -/
structure Result where
  code : UInt8 := 0
  stdout : String := ""
  stderr : String := ""

/-- Runs the program on its arguments, its files and its standard input. -/
def run (fuel : Nat) (read : String → Except Unreadable (List UInt8)) (stdin : List UInt8)
    (args : List String) : Result :=
  match parse args with
  | .error misuse => { code := 2, stderr := misuse.message }
  | .ok .version => { stdout := versionText }
  | .ok .help => { stdout := helpText }
  | .ok (.run includes) => { stderr := runSession fuel read stdin includes }

end Kaleidoscope.CommandLine
