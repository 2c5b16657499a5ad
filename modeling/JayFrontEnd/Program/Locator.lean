import JayFrontEnd.Source

/-!
# Locators

A locator knows which files make up a module, and reads them. `Buffers` is a locator over texts in
memory; two paths name the same buffer if they have the same components.
-/

namespace JayFrontEnd

structure Locator where
  /-- The paths of a module's files, in order. -/
  locate? : String → Option (List String)
  read : String → Except ReadProblem String

namespace Locator

/-- The source of a module; the offset says where the module is asked for. -/
def load (l : Locator) (module : String) (offset : Option Nat) : Except Fault Source :=
  match l.locate? module with
  | none => .error (.moduleLoad module offset .notLocated)
  | some paths => do
    let files ← paths.mapM fun path =>
      match l.read path with
      | .ok text => .ok ⟨path, text⟩
      | .error problem => .error (.moduleLoad module offset (.unreadable path problem))
    .ok ⟨files⟩

end Locator

def pathParts (path : String) : List String := (Text.split '/' path.toList).map String.ofList

/-- A path by its components. Repeated and trailing separators do not count, and neither does a dot,
unless the path starts with it. -/
structure PathKey where
  absolute : Bool
  components : List String
  deriving DecidableEq, Repr

def PathKey.ofPath (path : String) : PathKey :=
  let parts := pathParts path
  let named := (parts.drop 1).filter fun part => part != "" && part != "."
  ⟨path.toList.head? == some '/', (parts.take 1).filter (· != "") ++ named⟩

structure Buffers where
  modules : List (String × List String) := []
  texts : List (PathKey × String) := []

namespace Buffers

/-- Adds a file to a module. Its text replaces that of an earlier file of the same path. -/
def addFile (b : Buffers) (module path text : String) : Buffers :=
  let paths := (b.modules.lookup module).getD [] ++ [path]
  { modules := (module, paths) :: b.modules
    texts := (.ofPath path, text) :: b.texts }

def addModule (b : Buffers) (module text : String) : Buffers := b.addFile module s!"{module}.j" text

def locator (b : Buffers) : Locator where
  locate? module := b.modules.lookup module
  read path := match b.texts.lookup (.ofPath path) with
    | some text => .ok text
    | none => .error (.noBuffer path)

end Buffers

end JayFrontEnd
