import JayFrontEnd.Proofs.Outcome
import JayFrontEnd.Proofs.Scope.Views

/-!
# Scope trees without positions

A scope tree keeps the positions of symbols and of uses, and never looks at them: each operation
does to the tree without positions what it does to the tree. So does linking, which finds the same
scopes whatever the positions are.
-/

namespace JayFrontEnd

def Symbol.erased (y : Symbol) : Symbol := { y with position := 0 }

def LocalRef.erased (r : LocalRef) : LocalRef := { r with position := 0 }

def RemoteRef.erased (r : RemoteRef) : RemoteRef := { r with position := 0 }

def Scope.erased (x : Scope) : Scope :=
  { x with localRefs := x.localRefs.map .erased, remoteRefs := x.remoteRefs.map .erased }

namespace ScopeTree

def erased (t : ScopeTree) : ScopeTree where
  scopes := t.scopes.map .erased
  symbols := t.symbols.map .erased

variable (t : ScopeTree) (s : ScopeId) (name : String)

@[simp] theorem length_erased : t.erased.scopes.length = t.scopes.length := List.length_map ..

@[simp] theorem scope?_erased : t.erased.scope? s = (t.scope? s).map Scope.erased :=
  List.getElem?_map ..

@[simp] theorem symbol?_erased (i : SymbolId) :
    t.erased.symbol? i = (t.symbol? i).map Symbol.erased :=
  List.getElem?_map ..

@[simp] theorem parent?_erased : t.erased.parent? s = t.parent? s := by
  rw [parent?, scope?_erased, Option.bind_map]
  rfl

@[simp] theorem declared?_erased : t.erased.declared? s name = t.declared? s name := by
  rw [declared?, scope?_erased, Option.bind_map]
  rfl

@[simp] theorem children_erased : t.erased.children s = t.children s := by
  rw [children, scope?_erased, Option.map_map]
  rfl

@[simp] theorem localRefs_erased :
    t.erased.localRefs s = (t.localRefs s).map LocalRef.erased := by
  rw [localRefs, scope?_erased, localRefs]
  cases t.scope? s <;> rfl

@[simp] theorem remoteRefs_erased :
    t.erased.remoteRefs s = (t.remoteRefs s).map RemoteRef.erased := by
  rw [remoteRefs, scope?_erased, remoteRefs]
  cases t.scope? s <;> rfl

/-! ## Searching -/

theorem ancestors_erased : t.erased.ancestors s = t.ancestors s := by
  have hchain : ∀ n s, t.erased.chain n s = t.chain n s := by
    intro n
    induction n with
    | zero => exact fun _ => rfl
    | succ n ih =>
      intro s
      rw [chain, chain, parent?_erased]
      cases t.parent? s with
      | none => rfl
      | some p => exact congrArg (s :: ·) (ih p)
  exact hchain s s

@[simp] theorem lookup?_erased : t.erased.lookup? s name = t.lookup? s name := by
  simp only [lookup?, ancestors_erased, declared?_erased]

@[simp] theorem declaring?_erased : t.erased.declaring? s name = t.declaring? s name := by
  simp only [declaring?, ancestors_erased, declared?_erased]

@[simp] theorem walk_erased : t.erased.walk = t.walk := by
  have hvisit : ∀ n stack, t.erased.visit n stack = t.visit n stack := by
    intro n
    induction n with
    | zero => exact fun _ => rfl
    | succ n ih =>
      intro stack
      cases stack with
      | nil => rfl
      | cons s stack => rw [visit, visit, children_erased, ih]
  rw [walk, hvisit, length_erased, walk]

/-! ## Operations -/

theorem modifyScope_erased {f g : Scope → Scope} (h : ∀ x, (f x).erased = g x.erased) :
    (t.modifyScope s f).erased = t.erased.modifyScope s g := by
  rw [erased, modifyScope, modifyScope, map_modify_comm h]
  rfl

theorem addChild_erased (kind : ScopeKind) : t.erased.addChild s name kind =
    ((t.addChild s name kind).1, (t.addChild s name kind).2.erased) := by
  have hmodify := t.modifyScope_erased s
    (f := fun p => { p with children := p.children ++ [t.scopes.length] })
    (g := fun p => { p with children := p.children ++ [t.scopes.length] }) fun _ => rfl
  rw [addChild, length_erased, ← hmodify]
  refine Prod.ext rfl ?_
  simp only [addChild, erased, List.map_append]
  rfl

theorem define_erased (kind : SymbolKind) (position : Nat) : t.erased.define s name kind 0 =
    (t.define s name kind position).map (Prod.map id erased) := by
  rw [define, define, declared?_erased]
  cases t.declared? s name with
  | some i => rfl
  | none =>
    have hmodify := t.modifyScope_erased s
      (f := fun r => { r with symbols := r.symbols ++ [(name, t.symbols.length)] })
      (g := fun r => { r with symbols := r.symbols ++ [(name, t.symbols.length)] }) fun _ => rfl
    have hlength : t.erased.symbols.length = t.symbols.length := List.length_map ..
    dsimp only
    rw [hlength, ← hmodify]
    simp only [erased, Except.map, Prod.map, List.map_append]
    rfl

theorem addLocalRef_erased (position : Nat) :
    (t.addLocalRef s name position).erased = t.erased.addLocalRef s name 0 := by
  have hany : (t.erased.localRefs s).any (·.name == name) =
      (t.localRefs s).any (·.name == name) := by
    rw [localRefs_erased, List.any_map]
    rfl
  rw [addLocalRef, addLocalRef, hany]
  split
  · rfl
  · refine t.modifyScope_erased s fun x => ?_
    simp only [Scope.erased, List.map_append]
    rfl

theorem addRemoteRef_erased (module : String) (position : Nat) :
    (t.addRemoteRef s module name position).erased = t.erased.addRemoteRef s module name 0 := by
  have hany : (t.erased.remoteRefs s).any (fun r => r.module == module && r.name == name) =
      (t.remoteRefs s).any fun r => r.module == module && r.name == name := by
    rw [remoteRefs_erased, List.any_map]
    rfl
  rw [addRemoteRef, addRemoteRef, hany]
  split
  · rfl
  · refine t.modifyScope_erased s fun x => ?_
    simp only [Scope.erased, List.map_append]
    rfl

theorem setKind_erased (i : SymbolId) (kind : SymbolKind) :
    (t.setKind i kind).erased = t.erased.setKind i kind := by
  have hsymbols := map_modify_comm (e := Symbol.erased) (f := fun y => { y with kind })
    (g := fun y => { y with kind }) (fun _ => rfl) t.symbols i
  exact congrArg (ScopeTree.mk (t.scopes.map Scope.erased)) hsymbols

theorem setLocalStatus_erased (i : Nat) (status : RefStatus) :
    (t.setLocalStatus s i status).erased = t.erased.setLocalStatus s i status := by
  refine t.modifyScope_erased s fun x => ?_
  have hrefs := map_modify_comm (e := LocalRef.erased) (f := fun r => { r with status })
    (g := fun r => { r with status }) (fun _ => rfl) x.localRefs i
  simp only [Scope.erased, hrefs]

/-! ## Linking -/

theorem localUses_erased :
    t.erased.localUses = t.localUses.map fun u => (u.1, u.2.1, u.2.2.erased) := by
  rw [localUses, walk_erased, localUses, List.map_flatMap]
  refine List.flatMap_congr fun s _ => ?_
  rw [localRefs_erased, List.zipIdx_map, List.map_map, List.map_map]
  rfl

/-- Linking does the same without positions: it succeeds or fails there too, and leaves the tree
with the same statuses. -/
theorem linkLocal_erased : t.erased.linkLocal.1.toOption = t.linkLocal.1.toOption ∧
    t.erased.linkLocal.2 = t.linkLocal.2.erased := by
  have huses : ∀ uses marked,
      (t.erased.linkUses (uses.map fun u => (u.1, u.2.1, u.2.2.erased)) marked.erased).1.toOption =
        (t.linkUses uses marked).1.toOption ∧
      (t.erased.linkUses (uses.map fun u => (u.1, u.2.1, u.2.2.erased)) marked.erased).2 =
        (t.linkUses uses marked).2.erased := by
    intro uses
    induction uses with
    | nil => exact fun _ => ⟨rfl, rfl⟩
    | cons u uses ih =>
      intro marked
      obtain ⟨s, i, r⟩ := u
      have hname : t.erased.declaring? s r.erased.name = t.declaring? s r.name :=
        t.declaring?_erased s r.name
      rw [List.map_cons, linkUses, linkUses, hname]
      cases t.declaring? s r.name with
      | some d =>
        dsimp only
        rw [← setLocalStatus_erased]
        exact ih _
      | none => exact ⟨rfl, (setLocalStatus_erased ..).symm⟩
  rw [linkLocal, localUses_erased]
  exact huses _ _

end ScopeTree

end JayFrontEnd
