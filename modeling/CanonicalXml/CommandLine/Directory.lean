import CanonicalXml.Fault
import CanonicalXml.Text
/-! # Directories

A directory that holds nothing but files, and what paths lead to when one
stands in it.

* `Directory.locate` — goes along a path, name by name.
* `Directory.read`, `Directory.create` — read and write the file at a path.

Of what lies outside only the directories above this one are known to exist.
-/

namespace CanonicalXml.CommandLine

/-- The files of a directory by name. -/
abbrev Directory := List (String × List UInt8)

/-- How many bytes a name has at most. -/
def maxNameBytes : Nat := 255

/-- How many bytes a path has to be short of. -/
def maxPathBytes : Nat := 4096

/-- What a path leads to. -/
inductive Target where
  /-- A directory: this one, or one above it. -/
  | directory
  /-- An entry of this directory; `slash` says that a slash follows its name. -/
  | entry (name : String) (slash : Bool)
  /-- An entry of a directory above this one. -/
  | outside (name : String) (slash : Bool)
deriving DecidableEq

namespace Directory

def checkName (name : String) : Except PathRefusal Unit :=
  if maxNameBytes < name.utf8ByteSize then .error .nameTooLong else .ok ()

/-- Goes along the names of a path, from this directory or from one `above` it. Every name
but the last has to be that of a directory, and no entry is one. -/
def walk (dir : Directory) (above slash : Bool) : List String → Except PathRefusal Target
  | [] => .ok .directory
  | name :: rest =>
    if name = "." then walk dir above slash rest
    else if name = ".." then walk dir true slash rest
    else if rest.isEmpty then .ok (if above then .outside name slash else .entry name slash)
    else do
      checkName name
      .error (if !above && (dir.lookup name).isSome then .notDirectory else .missing)

/-- What a path leads to. Slashes separate its names; one at the beginning stands for the
directory above all others. -/
def locate (dir : Directory) (path : String) : Except PathRefusal Target :=
  let names := (Text.segments (· = '/') path.toList).map String.ofList
  if maxPathBytes ≤ path.utf8ByteSize then .error .nameTooLong
  else walk dir (path.toList.head? = some '/') (path.toList.getLast? = some '/')
    (names.filter (! ·.isEmpty))

def readTarget (dir : Directory) : Target → Except PathRefusal (List UInt8)
  | .directory => .error .isDirectory
  | .entry name slash => do
    checkName name
    match dir.lookup name with
    | none => .error .missing
    | some content => if slash then .error .notDirectory else .ok content
  | .outside name _ => do
    checkName name
    .error .missing

/-- The directory with this content in the file at a target. A file is made where there is
none, though no directory: a slash after the name is refused before anything else. -/
def createTarget (dir : Directory) (content : List UInt8) : Target → Except PathRefusal Directory
  | .directory => .error .isDirectory
  | .entry name slash =>
    if slash then .error .isDirectory
    else do
      checkName name
      .ok ((name, content) :: dir.filter (·.1 ≠ name))
  | .outside name slash =>
    if slash then .error .isDirectory
    else do
      checkName name
      .ok dir

def read (dir : Directory) (path : String) : Except Fault (List UInt8) :=
  (dir.locate path >>= dir.readTarget).mapError fun refusal => .io (.file path refusal)

def create (dir : Directory) (path : String) (content : List UInt8) : Except Fault Directory :=
  (dir.locate path >>= dir.createTarget content).mapError fun refusal => .io (.file path refusal)

end Directory

end CanonicalXml.CommandLine
