import JayFrontEnd.Scope.Tree
import JayFrontEnd.Source

/-!
# Analyzers

An analyzer records, scope by scope, what a module declares and uses. A name is declared once per
scope. The first assignment, or the declaration, fixes the type of a variable, and every later
assignment of a known type has to agree. An operation that fails leaves the analyzer as it was.
-/

namespace JayFrontEnd

structure Analyzer where
  module : String
  source : Source
  scopes : ScopeTree
  current : ScopeId
  deriving Repr

namespace Analyzer

def ofModule (module : String) (source : Source) : Analyzer :=
  { module, source, scopes := .ofModule module, current := ScopeTree.root }

def enterScope (a : Analyzer) (name : String) (kind : ScopeKind) : Analyzer :=
  let (s, scopes) := a.scopes.addChild a.current name kind
  { a with scopes, current := s }

/-- Goes back to the scope around the current one; the module's own scope is not left. -/
def exitScope (a : Analyzer) : Analyzer :=
  match a.scopes.parent? a.current with
  | some p => { a with current := p }
  | none => a

/-- Does something in a new scope and comes back to the current one. -/
def inScope {β : Type} (a : Analyzer) (name : String) (kind : ScopeKind)
    (body : Analyzer → β × Analyzer) : β × Analyzer :=
  let (b, inner) := body (a.enterScope name kind)
  (b, { inner with current := a.current })

/-- A symbol that is there already: where it was declared is told by a link or, if the source has no
such position, by the offset. -/
def duplicate (a : Analyzer) (name : String) (position : Nat) (existing : SymbolId) : Fault :=
  let first := ((a.scopes.symbol? existing).map (·.position)).getD position
  let link := match a.source.position? first with
    | some p => p.link
    | none => s!"offset {first}"
  .duplicateSymbol name position first link

def register (a : Analyzer) (name : String) (kind : SymbolKind) (position : Nat) :
    Except Fault Analyzer :=
  match a.scopes.define a.current name kind position with
  | .ok (_, scopes) => .ok { a with scopes }
  | .error existing => .error (a.duplicate name position existing)

def expectLocal (a : Analyzer) (name : String) (position : Nat) : Analyzer :=
  { a with scopes := a.scopes.addLocalRef a.current name position }

/-- Notes that the current scope uses a name of another module. -/
def expectRemote (a : Analyzer) (module name : String) (position : Nat) : Analyzer :=
  { a with scopes := a.scopes.addRemoteRef a.current module name position }

def resolveType (name : String) (position : Nat) : Except Fault PrimitiveType :=
  match PrimitiveType.ofName? name with
  | some t => .ok t
  | none => .error (.unknownType name position)

def visible? (a : Analyzer) (name : String) : Option (SymbolId × Symbol) := do
  let i ← a.scopes.lookup? a.current name
  some (i, ← a.scopes.symbol? i)

/-- The type of the nearest symbol of a name, if that is a variable of known type. -/
def variableType? (a : Analyzer) (name : String) : Option PrimitiveType :=
  (a.visible? name).bind (·.2.variableType?)

/-- Assigns a value to the nearest variable of a name. A value of unknown type says nothing, and
neither does an assignment to a name that is no variable. -/
def assign (a : Analyzer) (name : String) (type : Option PrimitiveType) (position : Nat) :
    Except Fault Analyzer :=
  match type, a.visible? name with
  | some found, some (i, { kind := .variable none, .. }) =>
    .ok { a with scopes := a.scopes.setKind i (.variable (some found)) }
  | some found, some (_, { kind := .variable (some expected), .. }) =>
    if found = expected then .ok a
    else .error (.typeMismatch expected.name found.name position)
  | _, _ => .ok a

end Analyzer

end JayFrontEnd
