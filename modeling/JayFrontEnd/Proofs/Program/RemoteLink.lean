import JayFrontEnd.Program.RemoteLink
import JayFrontEnd.Proofs.Outcome
import JayFrontEnd.Proofs.Scope.LocalLink

/-!
# Linking a module to others

What is found for the uses of other modules' names are marks, one for each use and right for it. So
once they are put, every such use is resolved to the module it names, which declares the name in its
own scope, and nothing else of the tree has changed.
-/

namespace JayFrontEnd

/-- The module is in the table and declares the name in its own scope. -/
def ModuleTable.Exports (t : ModuleTable) (module name : String) : Prop :=
  ∃ m, t.get? module = some m ∧ (m.scopes.declared? ScopeTree.root name).isSome

theorem ModuleTable.resolve_eq_ok {t : ModuleTable} {r : RemoteRef} {st : RefStatus} :
    t.resolve r = .ok st ↔ st = .resolvedRemote r.module ∧ t.Exports r.module r.name := by
  unfold resolve Exports
  cases hm : t.get? r.module with
  | none => exact ⟨fun h => (by cases h), fun ⟨_, _, h, _⟩ => by cases h⟩
  | some m =>
    cases hd : m.scopes.declared? ScopeTree.root r.name with
    | none =>
      simp only [hd]
      refine ⟨fun h => (by cases h), ?_⟩
      rintro ⟨-, _, ⟨⟩, h⟩
      rw [hd] at h
      cases h
    | some i =>
      simp only [hd]
      exact ⟨fun h => by cases h; exact ⟨rfl, m, rfl, hd ▸ rfl⟩, fun ⟨h, _⟩ => by rw [h]⟩

namespace ScopeTree

variable {t u : ScopeTree} {table : ModuleTable} {rs : List RemoteResolution} {s : ScopeId}

theorem WellFormed.mem_remoteUses_iff (ht : t.WellFormed) {i : Nat} {x : RemoteRef} :
    (s, i, x) ∈ t.remoteUses ↔ (t.remoteRefs s)[i]? = some x :=
  mem_flatMap_zipIdx.trans <| and_iff_right_of_imp fun hx =>
    ht.mem_walk (lt_of_mem_remoteRefs (List.mem_of_getElem? hx))

theorem linkRemote_eq_ok (h : t.linkRemote table = .ok rs) :
    List.Forall₂ (fun use r => r.scope = use.1 ∧ r.index = use.2.1 ∧
      table.resolve use.2.2 = .ok r.status) t.remoteUses rs := by
  refine (Except.mapM_eq_ok.1 h).imp ?_
  rintro ⟨q, i, x⟩ r hr
  obtain ⟨st, hst, hr⟩ := Except.bind_eq_ok.1 hr
  cases hr
  exact ⟨rfl, rfl, hst⟩

theorem applyRemote_eq_marked (t : ScopeTree) (rs : List RemoteResolution) :
    t.applyRemote rs =
      UseKind.remotes.marked t (rs.map fun r => (r.scope, r.index, r.status)) := by
  rw [UseKind.marked, List.foldl_map]
  rfl

/-- Apart from marks on uses of other modules' names, applying what was found leaves the tree as it
is. -/
theorem unmarked_applyRemote (t : ScopeTree) (rs : List RemoteResolution) :
    UseKind.remotes.unmarked (t.applyRemote rs) = UseKind.remotes.unmarked t := by
  rw [applyRemote_eq_marked, UseKind.unmarked_marked]

theorem SameDeclarations.applyRemote (t : ScopeTree) (rs : List RemoteResolution) :
    SameDeclarations t (t.applyRemote rs) :=
  UseKind.remotes.sameDeclarations_of_unmarked (t.unmarked_applyRemote rs).symm

theorem localRefs_of_unmarked (h : UseKind.remotes.unmarked u = UseKind.remotes.unmarked t)
    (s : ScopeId) : u.localRefs s = t.localRefs s := by
  have hunmarked : ∀ t : ScopeTree, (UseKind.remotes.unmarked t).localRefs s = t.localRefs s := by
    intro t
    rw [localRefs, UseKind.scope?_unmarked, Option.map_map]
    rfl
  rw [← hunmarked u, h, hunmarked]

/-- Every use of another module's name is resolved to that module. -/
def resolveRemote (t : ScopeTree) : ScopeTree :=
  t.applyRemote (t.remoteUses.map fun (s, i, r) => ⟨s, i, .resolvedRemote r.module⟩)

/-- If a module links to the others, what is found for its uses is what they say. -/
theorem eq_of_linkRemote (h : t.linkRemote table = .ok rs) :
    rs = t.remoteUses.map fun use => ⟨use.1, use.2.1, .resolvedRemote use.2.2.module⟩ := by
  refine (List.forall₂_eq_eq_eq ▸ List.forall₂_map_left_iff.2 ?_ : _ = rs).symm
  refine (linkRemote_eq_ok h).imp ?_
  rintro ⟨s, i, x⟩ ⟨_, _, status⟩ ⟨rfl, rfl, hresolve⟩
  have hstatus : status = .resolvedRemote x.module := (ModuleTable.resolve_eq_ok.1 hresolve).1
  rw [hstatus]

theorem applyRemote_eq_resolveRemote (h : t.linkRemote table = .ok rs) :
    t.applyRemote rs = t.resolveRemote :=
  congrArg t.applyRemote (eq_of_linkRemote h)

/-- What linking a module to those of a table changes: the statuses of remote uses. -/
structure RemotelyLinked (table : ModuleTable) (t u : ScopeTree) : Prop where
  declarations : SameDeclarations t u
  localRefs : ∀ s, u.localRefs s = t.localRefs s
  uses : ∀ s, (u.remoteRefs s).map (fun r => (r.module, r.name, r.position)) =
    (t.remoteRefs s).map fun r => (r.module, r.name, r.position)
  resolved : ∀ {s r}, r ∈ u.remoteRefs s →
    r.status = .resolvedRemote r.module ∧ table.Exports r.module r.name

theorem WellFormed.remotelyLinked (ht : t.WellFormed) (h : t.linkRemote table = .ok rs) :
    RemotelyLinked table t (t.applyRemote rs) := by
  have hrs := linkRemote_eq_ok h
  have hunmarked := t.unmarked_applyRemote rs
  refine ⟨.applyRemote t rs, localRefs_of_unmarked hunmarked,
    UseKind.remotes.map_refs_of_unmarked hunmarked fun _ _ => rfl, fun {s r} hr => ?_⟩
  rw [applyRemote_eq_marked] at hr
  refine UseKind.remotes.forall_marked
    (P := fun _ r => r.status = .resolvedRemote r.module ∧ table.Exports r.module r.name) ?_ ?_ hr
  · intro m hm x hx
    obtain ⟨r, hr, rfl⟩ := List.mem_map.1 hm
    obtain ⟨⟨q, i, y⟩, hy, hq, hi, hst⟩ := exists_of_mem_right hrs hr
    have hslot : (t.remoteRefs r.scope)[r.index]? = some y := by
      rw [hq, hi]
      exact ht.mem_remoteUses_iff.1 hy
    obtain rfl : y = x := Option.some.inj (hslot.symm.trans hx)
    exact ModuleTable.resolve_eq_ok.1 hst
  · intro q i x hx
    obtain ⟨r, hr, rfl, rfl, -⟩ := exists_of_mem_left hrs (ht.mem_remoteUses_iff.2 hx)
    exact .inl (mem_map_slotOf.2 ⟨r.status, List.mem_map.2 ⟨r, hr, rfl⟩⟩)

end ScopeTree

end JayFrontEnd
