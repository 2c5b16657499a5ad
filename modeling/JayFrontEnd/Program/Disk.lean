import JayFrontEnd.Program.Locator

/-!
# Files on disk

A disk holds files and directories below a working directory, which has directories above it of
which nothing more is known. Reading follows a path component by component: each but the last has to
be a directory, and the last a file that holds valid text.
-/

namespace JayFrontEnd

/-- Where a file or a directory lies: some directories above the working directory, and from there
on by name, the last name first. -/
structure DiskPlace where
  up : Nat := 0
  names : List String := []
  deriving DecidableEq, Repr

namespace DiskPlace

def parent : DiskPlace → DiskPlace
  | ⟨up, []⟩ => ⟨up + 1, []⟩
  | ⟨up, _ :: names⟩ => ⟨up, names⟩

/-- The place one component of a path further. An empty component or a dot stays, two dots go up. -/
def enter (l : DiskPlace) (part : String) : DiskPlace :=
  if part == "" || part == "." then l
  else if part == ".." then l.parent
  else { l with names := part :: l.names }

/-- The places that a path passes, component by component. -/
def passed (l : DiskPlace) : List String → List DiskPlace
  | [] => []
  | part :: parts => l.enter part :: (l.enter part).passed parts

end DiskPlace

structure Disk where
  directories : List DiskPlace := []
  /-- The content of each file; the last one written comes first. -/
  files : List (DiskPlace × ByteArray) := []

namespace Disk

/-- Writes a file, after the directories that its path passes. -/
def write (d : Disk) (path : String) (content : ByteArray) : Disk :=
  let parts := pathParts path
  { directories := DiskPlace.passed {} parts.dropLast ++ d.directories
    files := (parts.foldl DiskPlace.enter {}, content) :: d.files }

def isDirectory (d : Disk) (l : DiskPlace) : Bool := l.names.isEmpty || d.directories.contains l

/-- Goes from a place along the components of a path. -/
def resolve (d : Disk) (l : DiskPlace) : List String → Except ReadProblem DiskPlace
  | [] => .ok l
  | part :: parts =>
    if (d.files.lookup l).isSome then .error .notDirectory
    else if d.isDirectory l then d.resolve (l.enter part) parts
    else .error .noSuchFile

def read (d : Disk) (path : String) : Except ReadProblem String := do
  if path.isEmpty then throw .noSuchFile
  let l ← d.resolve {} (pathParts path)
  match d.files.lookup l with
  | none => throw (if d.isDirectory l then .isDirectory else .noSuchFile)
  | some content =>
    match String.fromUTF8? content with
    | some text => pure text
    | none => throw .invalidUtf8

/-- A locator for a table of modules and their files, of which a later entry replaces an earlier one
of its module. -/
def locator (d : Disk) (table : List (String × List String)) : Locator where
  locate? module := table.reverse.lookup module
  read := d.read

end Disk

end JayFrontEnd
