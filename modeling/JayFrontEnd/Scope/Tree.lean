import JayFrontEnd.Vocabulary.PrimitiveType

/-!
# Scope trees

The scopes of a module, each with the names it declares and the names it uses. Scopes and symbols
are numbered in the order they are made; scope zero is the module's own. A use is kept once per
scope, with a status that linking fills in. `lookup?` finds the nearest declaration on the way to
the root.
-/

namespace JayFrontEnd

abbrev ScopeId := Nat

abbrev SymbolId := Nat

inductive ScopeKind where
  | module
  | function
  | block
  deriving DecidableEq, Repr

inductive SymbolKind where
  /-- The type is unknown until a declaration or an assignment fixes it. -/
  | variable (type : Option PrimitiveType)
  | function (params : List PrimitiveType) (returns : Option PrimitiveType)
  deriving DecidableEq, Repr

structure Symbol where
  name : String
  kind : SymbolKind
  position : Nat
  scope : ScopeId
  deriving DecidableEq, Repr

namespace Symbol

def isFunction (s : Symbol) : Bool :=
  match s.kind with
  | .function .. => true
  | .variable _ => false

def variableType? (s : Symbol) : Option PrimitiveType :=
  match s.kind with
  | .variable type => type
  | .function .. => none

end Symbol

/-- What linking has found out about a use. -/
inductive RefStatus where
  | pending
  | resolved (scope : ScopeId)
  | resolvedRemote (module : String)
  | failed
  deriving DecidableEq, Repr

structure LocalRef where
  name : String
  position : Nat
  status : RefStatus := .pending
  deriving DecidableEq, Repr

/-- The first use of another module's name in a scope. -/
structure RemoteRef where
  module : String
  name : String
  position : Nat
  status : RefStatus := .pending
  deriving DecidableEq, Repr

structure Scope where
  name : String
  kind : ScopeKind
  parent : Option ScopeId := none
  /-- In the order they were made. -/
  children : List ScopeId := []
  symbols : List (String × SymbolId) := []
  localRefs : List LocalRef := []
  remoteRefs : List RemoteRef := []
  deriving DecidableEq, Repr

structure ScopeTree where
  scopes : List Scope
  symbols : List Symbol := []
  deriving DecidableEq, Repr

namespace ScopeTree

def ofModule (name : String) : ScopeTree := { scopes := [{ name, kind := .module }] }

def root : ScopeId := 0

def scope? (t : ScopeTree) (s : ScopeId) : Option Scope := t.scopes[s]?

def symbol? (t : ScopeTree) (i : SymbolId) : Option Symbol := t.symbols[i]?

def modifyScope (t : ScopeTree) (s : ScopeId) (f : Scope → Scope) : ScopeTree :=
  { t with scopes := t.scopes.modify s f }

/-- Adds a scope inside `parent`, which gets the next number. -/
def addChild (t : ScopeTree) (parent : ScopeId) (name : String) (kind : ScopeKind) :
    ScopeId × ScopeTree :=
  let s := t.scopes.length
  let t := t.modifyScope parent fun p => { p with children := p.children ++ [s] }
  (s, { t with scopes := t.scopes ++ [{ name, kind, parent := some parent }] })

/-- The symbol of a name that the scope itself declares. -/
def declared? (t : ScopeTree) (s : ScopeId) (name : String) : Option SymbolId :=
  (t.scope? s).bind (·.symbols.lookup name)

/-- Declares a name in a scope, under the next symbol number; fails with the symbol of the name if
the scope declares it already. -/
def define (t : ScopeTree) (s : ScopeId) (name : String) (kind : SymbolKind) (position : Nat) :
    Except SymbolId (SymbolId × ScopeTree) :=
  match t.declared? s name with
  | some i => .error i
  | none =>
    let i := t.symbols.length
    let t := t.modifyScope s fun r => { r with symbols := r.symbols ++ [(name, i)] }
    .ok (i, { t with symbols := t.symbols ++ [⟨name, kind, position, s⟩] })

def setKind (t : ScopeTree) (i : SymbolId) (kind : SymbolKind) : ScopeTree :=
  { t with symbols := t.symbols.modify i fun y => { y with kind } }

def parent? (t : ScopeTree) (s : ScopeId) : Option ScopeId := (t.scope? s).bind (·.parent)

/-- A scope and at most `n` scopes around it, from the inside. -/
def chain (t : ScopeTree) : Nat → ScopeId → List ScopeId
  | 0, s => [s]
  | n + 1, s => s :: match t.parent? s with
    | none => []
    | some p => t.chain n p

/-- A scope and the scopes around it. A parent has a smaller number, so that there are at most as
many of them as the scope's number says. -/
def ancestors (t : ScopeTree) (s : ScopeId) : List ScopeId := t.chain s s

/-- The nearest symbol of a name, seen from a scope. -/
def lookup? (t : ScopeTree) (s : ScopeId) (name : String) : Option SymbolId :=
  (t.ancestors s).findSome? (t.declared? · name)

/-- The nearest scope that declares a name, seen from a scope. -/
def declaring? (t : ScopeTree) (s : ScopeId) (name : String) : Option ScopeId :=
  (t.ancestors s).find? fun a => (t.declared? a name).isSome

def children (t : ScopeTree) (s : ScopeId) : List ScopeId := ((t.scope? s).map (·.children)).getD []

/-- The scopes that are visited with a stack of scopes to go to: the first is taken from it, and its
children come first instead. There are at most `n` visits. -/
def visit (t : ScopeTree) : Nat → List ScopeId → List ScopeId
  | 0, _ => []
  | _ + 1, [] => []
  | n + 1, s :: stack => s :: t.visit n (t.children s ++ stack)

/-- All scopes in pre-order, children in the order they were made. Each scope is visited once, so
that as many visits as there are scopes leave nothing to go to. -/
def walk (t : ScopeTree) : List ScopeId := t.visit t.scopes.length [root]

def localRefs (t : ScopeTree) (s : ScopeId) : List LocalRef :=
  ((t.scope? s).map (·.localRefs)).getD []

def remoteRefs (t : ScopeTree) (s : ScopeId) : List RemoteRef :=
  ((t.scope? s).map (·.remoteRefs)).getD []

/-- Keeps the use of a name, unless the scope has one. -/
def addLocalRef (t : ScopeTree) (s : ScopeId) (name : String) (position : Nat) : ScopeTree :=
  if (t.localRefs s).any (·.name == name) then t
  else t.modifyScope s fun r => { r with localRefs := r.localRefs ++ [{ name, position }] }

/-- Keeps the use of another module's name, unless the scope has one. -/
def addRemoteRef (t : ScopeTree) (s : ScopeId) (module name : String) (position : Nat) :
    ScopeTree :=
  if (t.remoteRefs s).any fun r => r.module == module && r.name == name then t
  else t.modifyScope s fun r =>
    { r with remoteRefs := r.remoteRefs ++ [{ module, name, position }] }

end ScopeTree

end JayFrontEnd
