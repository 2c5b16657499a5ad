import JayFrontEnd.Program.ModuleTable

/-!
# Linking between modules

A use of another module's name is resolved if that module is in the table and its own scope declares
the name. The statuses are found for all uses before any is set. Uses are taken scope by scope in
pre-order, and in a scope by first use.
-/

namespace JayFrontEnd

/-- The status found for a use: its scope, and the index in the scope's list. -/
structure RemoteResolution where
  scope : ScopeId
  index : Nat
  status : RefStatus
  deriving DecidableEq, Repr

namespace ModuleTable

def resolve (t : ModuleTable) (r : RemoteRef) : Except Fault RefStatus :=
  match t.get? r.module with
  | none => .error (.unknownModule r.module r.position)
  | some m =>
    match m.scopes.declared? ScopeTree.root r.name with
    | none => .error (.unresolvedRemoteSymbol r.module r.name r.position)
    | some _ => .ok (.resolvedRemote r.module)

end ModuleTable

namespace ScopeTree

/-- The uses of other modules' names in linking order. -/
def remoteUses (t : ScopeTree) : List (ScopeId × Nat × RemoteRef) :=
  t.walk.flatMap fun s => (t.remoteRefs s).zipIdx.map fun (r, i) => (s, i, r)

/-- The statuses of all uses of other modules' names. -/
def linkRemote (t : ScopeTree) (table : ModuleTable) : Except Fault (List RemoteResolution) :=
  t.remoteUses.mapM fun (s, i, r) => do pure ⟨s, i, ← table.resolve r⟩

def setRemoteStatus (t : ScopeTree) (r : RemoteResolution) : ScopeTree :=
  t.modifyScope r.scope fun s =>
    { s with remoteRefs := s.remoteRefs.modify r.index ({ · with status := r.status }) }

def applyRemote (t : ScopeTree) (rs : List RemoteResolution) : ScopeTree :=
  rs.foldl setRemoteStatus t

end ScopeTree

end JayFrontEnd
