-- Dumps: copies of a class for a person to look at, and the files that
-- hold them.
import ClassPatch.Dict
import ClassPatch.Text.Blank

namespace ClassPatch

inductive Dump where
  | text (content : String)
  | bytes (content : List UInt8)
deriving DecidableEq

namespace Dump

def ending : Dump → String
  | text _ => "txt"
  | bytes _ => "bin"

/-- Packages are flattened: every slash and every dot of the class name
becomes a number sign. -/
def fileName (className : String) (d : Dump) : String :=
  Text.replaceAll ['/', '.'] '#' className ++ "." ++ d.ending

/-- A name in a directory. No directory, or a slash at its end, needs no
slash between. -/
def path (dir className : String) (d : Dump) : String :=
  let name := d.fileName className
  if dir.isEmpty || dir.endsWith "/" then dir ++ name else dir ++ "/" ++ name

end Dump

/-! ## Sinks -/

/-- A place for dumps, with a state of its own. It takes the dump of a
class and tells whether it kept it. -/
abbrev DumpSink (σ : Type) := String → Dump → StateM σ Bool

namespace DumpSink

/-- Takes every dump and keeps nothing of it. -/
def discard {σ : Type} : DumpSink σ := fun _ _ => return true

/-- Lists the dumps in the order in which they came, and answers `kept` to each. -/
def record (kept : Bool) : DumpSink (List (String × Dump)) := fun className d => do
  modify (· ++ [(className, d)])
  return kept

end DumpSink

/-! ## Files -/

/-- The files of a dump directory, by name. -/
abbrev DumpFiles := Dict String Dump

namespace DumpFiles

/-- A file name has at most this many bytes. -/
def maxName : Nat := 255

/-- A name that a file can have. -/
def canHold (name : String) : Bool :=
  name.utf8ByteSize ≤ maxName && !name.toList.contains (Char.ofNat 0)

/-- Writes a dump over the one that had its name. Fails, and leaves the
files alone, if no file can have the name. -/
def write : DumpSink DumpFiles := fun className d => do
  let name := d.fileName className
  if canHold name then
    modify (Dict.insert name d)
    return true
  else return false

end DumpFiles

end ClassPatch
