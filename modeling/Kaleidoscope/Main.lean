import Kaleidoscope.CommandLine.Run

/-!
# The program

The thin outer layer: it reads the files that the arguments name and the standard input, and then
writes what a run shows.
-/

namespace Kaleidoscope.Program

/-- The content of a file, or why it could not be opened. Directories are no sources, and a path to
one counts as one that cannot be opened; it could be, but no read from it would ever succeed. -/
def readFile (path : String) : IO (Except Unreadable (List UInt8)) := do
  try
    return .ok (← IO.FS.readBinFile path).toList
  catch
    | .noFileOrDirectory .. => return .error .missing
    | .inappropriateType _ code _ =>
      return .error (if code = 21 || code = -21 then .isDirectory else .notDirectory)
    | .invalidArgument _ code reason =>
      return .error (if code = 36 || code = -36 then .tooLong else .other reason)
    | fault => return .error (.other (toString fault))

/-- All bytes up to the end of a stream. -/
partial def readToEnd (stream : IO.FS.Stream) (sofar : ByteArray) : IO (List UInt8) := do
  let chunk ← stream.read 65536
  if chunk.isEmpty then return sofar.toList else readToEnd stream (sofar ++ chunk)

/-- The files that the arguments ask for, with their contents. -/
def readIncludes (args : List String) : IO (List (String × Except Unreadable (List UInt8))) := do
  match CommandLine.parse args with
  | .ok (.run includes) => includes.mapM fun path => return (path, ← readFile path)
  | _ => return []

end Kaleidoscope.Program

open Kaleidoscope in
/-- Runs the program. All files and the whole standard input are read before anything is shown, so
that a prompt does not wait for the line that follows it. -/
def main (args : List String) : IO UInt32 := do
  let contents ← Program.readIncludes args
  let stdin ← match CommandLine.parse args with
    | .ok (.run _) => Program.readToEnd (← IO.getStdin) .empty
    | _ => pure []
  let read := fun path => (contents.lookup path).getD (.error .missing)
  let result := CommandLine.run CommandLine.blockLimit read stdin args
  IO.print result.stdout
  IO.eprint result.stderr
  return result.code.toUInt32
