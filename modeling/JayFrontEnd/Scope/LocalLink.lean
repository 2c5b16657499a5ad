import JayFrontEnd.Fault
import JayFrontEnd.Scope.Tree

/-!
# Linking within a module

Every use of a name is resolved to the nearest scope around it that declares the name. Uses are
taken scope by scope in pre-order, and in a scope by first use; the first that no scope declares
ends the linking.
-/

namespace JayFrontEnd.ScopeTree

/-- The uses of names in linking order: the scope, the index in its list, and the use. -/
def localUses (t : ScopeTree) : List (ScopeId × Nat × LocalRef) :=
  t.walk.flatMap fun s => (t.localRefs s).zipIdx.map fun (r, i) => (s, i, r)

def setLocalStatus (t : ScopeTree) (s : ScopeId) (i : Nat) (status : RefStatus) : ScopeTree :=
  t.modifyScope s fun r => { r with localRefs := r.localRefs.modify i ({ · with status }) }

/-- Marks the uses up to the first that `t` does not declare. -/
def linkUses (t : ScopeTree) :
    List (ScopeId × Nat × LocalRef) → ScopeTree → Except Fault Unit × ScopeTree
  | [], marked => (.ok (), marked)
  | (s, i, r) :: uses, marked =>
    match t.declaring? s r.name with
    | some d => t.linkUses uses (marked.setLocalStatus s i (.resolved d))
    | none =>
      (.error (.unresolvedSymbol r.name r.position), marked.setLocalStatus s i .failed)

def linkLocal (t : ScopeTree) : Except Fault Unit × ScopeTree := t.linkUses t.localUses t

end JayFrontEnd.ScopeTree
