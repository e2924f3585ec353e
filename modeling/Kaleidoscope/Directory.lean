import Kaleidoscope.Fault
import Kaleidoscope.Path

/-!
# The directory of a run

A program is run in a directory of files with no directories in it. A path is walked from there, or
from the root if it starts with a slash, one name after another. Nothing is known of the directories
outside, but for the null device: it is a file, and has no content. `read_name` says that the name
of a file is a path to it.

Directories are not sources. A path to one can be opened, but reading from it then fails each time it
is tried, and a program that includes it comes to no end; here such a path is refused like one to
nothing.
-/

namespace Kaleidoscope

/-- The files of a directory, by name. -/
structure Directory where
  files : List (String × List UInt8) := []

/-- Where a walk along a path can stand. -/
inductive Location
  | root
  /-- The directory of the devices, below the root. -/
  | devices
  /-- The directory of the run. -/
  | here
  /-- A directory on the way from the root to the directory of the run. -/
  | above
  | file (content : List UInt8)
  deriving DecidableEq, Repr

namespace Directory

/-- The content of the file with the given name. -/
def get? (d : Directory) (name : String) : Option (List UInt8) :=
  d.files.lookup name

/-- What lies at a place under a name. -/
def child? (d : Directory) : Location → String → Option Location
  | .root, "dev" => some .devices
  | .devices, "null" => some (.file [])
  | .here, name => (d.get? name).map .file
  | _, _ => none

/-- The place one step up. -/
def parent : Location → Location
  | .root | .devices => .root
  | _ => .above

/-- Goes on from a place by a name. Nothing lies below a file, and an empty name stays in a
directory as a point does. -/
def enter (d : Directory) (place : Location) (name : String) : Except Unreadable Location :=
  match place, name with
  | .file _, _ => .error .notDirectory
  | place, "" | place, "." => .ok place
  | place, ".." => .ok (parent place)
  | place, name =>
    if Path.nameLimit < name.utf8ByteSize then .error .tooLong
    else match d.child? place name with
      | some next => .ok next
      | none => .error .missing

/-- Walks along a path. -/
def walk (d : Directory) (path : List Char) : Except Unreadable Location :=
  let start := if path.head? = some '/' then .root else .here
  ((Path.names path).map String.ofList).foldlM d.enter start

/-- The content of the file at a path. A path to a directory counts as one that cannot be opened, as
directories are no sources. -/
def read (d : Directory) (path : String) : Except Unreadable (List UInt8) :=
  if '\x00' ∈ path.toList then .error .holdsNul
  else if path.isEmpty then .error .missing
  else if Path.pathLimit < path.utf8ByteSize then .error .tooLong
  else match d.walk path.toList with
    | .ok (.file content) => .ok content
    | .ok _ => .error .isDirectory
    | .error cause => .error cause

/-- The file is in the directory, under a name that can be a path. -/
structure Lists (d : Directory) (name : String) (content : List UInt8) : Prop where
  held : d.get? name = some content
  slashless : '/' ∉ name.toList
  proper : name ≠ "" ∧ name ≠ "." ∧ name ≠ ".."
  nulless : '\x00' ∉ name.toList
  short : name.utf8ByteSize ≤ Path.nameLimit

/-- The name of a file is a path to it. -/
theorem read_name {d : Directory} {name : String} {content : List UInt8}
    (listed : d.Lists name content) : d.read name = .ok content := by
  obtain ⟨h, hslash, hname, hnul, hsize⟩ := listed
  have hstart : name.toList.head? ≠ some '/' := fun he => hslash (List.mem_of_head? he)
  have henter : d.enter .here name = .ok (.file content) := by
    unfold enter
    split <;> simp_all [child?, Nat.not_lt.2 hsize]
  have hwalk : d.walk name.toList = .ok (.file content) := by
    simp [walk, hstart, Path.names_of_not_mem hslash, henter]
  have hpath : ¬ Path.pathLimit < name.utf8ByteSize := by
    simp only [Path.pathLimit, Path.nameLimit] at *
    omega
  simp [read, hnul, hname.1, hpath, hwalk]

end Directory

end Kaleidoscope
