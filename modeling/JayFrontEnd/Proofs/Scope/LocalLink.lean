import JayFrontEnd.Proofs.Outcome
import JayFrontEnd.Proofs.Scope.Marking
import JayFrontEnd.Proofs.Scope.Walk

/-!
# Linking within a module

Linking marks uses one after the other, each by its scope and its index there. The marks are those
of the uses before the first that no scope declares, and one for the failure. If there is no such
use, every use gets a mark, and the right one: it is resolved to the nearest scope that declares its
name, and nothing else of the tree has changed.
-/

namespace JayFrontEnd.ScopeTree

variable {t u : ScopeTree} {s : ScopeId}

/-- A list of uses with their scopes and indices has every use of every scope that is visited. -/
theorem mem_flatMap_zipIdx {ρ : Type} {refs : ScopeId → List ρ} {ss : List ScopeId} {i : Nat}
    {x : ρ} :
    (s, i, x) ∈ ss.flatMap (fun s => (refs s).zipIdx.map fun (r, i) => (s, i, r)) ↔
      s ∈ ss ∧ (refs s)[i]? = some x := by
  simp only [List.mem_flatMap, List.mem_map, Prod.exists, Prod.mk.injEq,
    List.mem_zipIdx_iff_getElem?]
  constructor
  · rintro ⟨q, hq, y, j, hy, rfl, rfl, rfl⟩
    exact ⟨hq, hy⟩
  · rintro ⟨hs, hx⟩
    exact ⟨s, hs, x, i, hx, rfl, rfl, rfl⟩

theorem WellFormed.mem_localUses_iff (ht : t.WellFormed) {i : Nat} {x : LocalRef} :
    (s, i, x) ∈ t.localUses ↔ (t.localRefs s)[i]? = some x :=
  mem_flatMap_zipIdx.trans <| and_iff_right_of_imp fun hx =>
    ht.mem_walk (lt_of_mem_localRefs (List.mem_of_getElem? hx))

/-! ## The marks of linking -/

/-- The mark that linking puts on a use, if some scope declares the name. -/
def localMark? (t : ScopeTree) (use : ScopeId × Nat × LocalRef) : Option Mark :=
  (t.declaring? use.1 use.2.2.name).map fun d => (use.1, use.2.1, .resolved d)

theorem ne_none_of_localMark? {use : ScopeId × Nat × LocalRef} {m : Mark}
    (h : t.localMark? use = some m) : t.declaring? use.1 use.2.2.name ≠ none := by
  obtain ⟨d, hd, -⟩ := Option.map_eq_some_iff.1 h
  exact hd ▸ Option.some_ne_none d

def linkMarks (t : ScopeTree) : List (ScopeId × Nat × LocalRef) → List Mark
  | [] => []
  | use :: uses =>
    match t.localMark? use with
    | some m => m :: t.linkMarks uses
    | none => [(use.1, use.2.1, .failed)]

theorem linkUses_snd (t : ScopeTree) (uses : List (ScopeId × Nat × LocalRef))
    (marked : ScopeTree) :
    (t.linkUses uses marked).2 = UseKind.locals.marked marked (t.linkMarks uses) := by
  induction uses generalizing marked with
  | nil => rfl
  | cons use uses ih =>
    obtain ⟨s, i, x⟩ := use
    rw [linkUses, linkMarks, localMark?]
    cases t.declaring? s x.name with
    | none => rfl
    | some d => exact ih _

/-- Linking goes through if all uses can be resolved, and else ends at the first that cannot. -/
theorem linkUses_cases (t : ScopeTree) (uses : List (ScopeId × Nat × LocalRef))
    (marked : ScopeTree) :
    (t.linkUses uses marked).1 = .ok () ∧
        List.Forall₂ (fun use m => t.localMark? use = some m) uses (t.linkMarks uses) ∨
      ∃ before s i x after marks, uses = before ++ (s, i, x) :: after ∧
        List.Forall₂ (fun use m => t.localMark? use = some m) before marks ∧
        t.declaring? s x.name = none ∧
        (t.linkUses uses marked).1 = .error (.unresolvedSymbol x.name x.position) ∧
        t.linkMarks uses = marks ++ [(s, i, .failed)] := by
  induction uses generalizing marked with
  | nil => exact .inl ⟨rfl, .nil⟩
  | cons use uses ih =>
    obtain ⟨s, i, x⟩ := use
    rw [linkUses, linkMarks]
    cases hd : t.declaring? s x.name with
    | none =>
      refine .inr ⟨[], s, i, x, uses, [], rfl, .nil, hd, rfl, ?_⟩
      simp [localMark?, hd]
    | some d =>
      have hm : t.localMark? (s, i, x) = some (s, i, .resolved d) := by simp [localMark?, hd]
      simp only [hm]
      rcases ih (marked.setLocalStatus s i (.resolved d)) with
        ⟨hok, hall⟩ | ⟨before, r, j, y, after, marks, rfl, hall, hnone, herr, hmarks⟩
      · exact .inl ⟨hok, .cons hm hall⟩
      · exact .inr ⟨(s, i, x) :: before, r, j, y, after, _ :: marks, rfl, .cons hm hall, hnone,
          herr, by rw [hmarks]; rfl⟩

theorem linkLocal_snd (t : ScopeTree) :
    t.linkLocal.2 = UseKind.locals.marked t (t.linkMarks t.localUses) :=
  t.linkUses_snd ..

/-- Apart from marks on uses of names, linking leaves the tree as it is. -/
theorem unmarked_linkLocal (t : ScopeTree) :
    UseKind.locals.unmarked t.linkLocal.2 = UseKind.locals.unmarked t := by
  rw [linkLocal_snd, UseKind.unmarked_marked]

theorem remoteRefs_of_unmarked (h : UseKind.locals.unmarked u = UseKind.locals.unmarked t)
    (s : ScopeId) : u.remoteRefs s = t.remoteRefs s := by
  have hunmarked : ∀ t : ScopeTree, (UseKind.locals.unmarked t).remoteRefs s = t.remoteRefs s := by
    intro t
    rw [remoteRefs, UseKind.scope?_unmarked, Option.map_map]
    rfl
  rw [← hunmarked u, h, hunmarked]

/-- What linking a module within itself changes: the statuses of local uses. -/
structure LocallyLinked (t u : ScopeTree) : Prop where
  declarations : SameDeclarations t u
  remoteRefs : ∀ s, u.remoteRefs s = t.remoteRefs s
  uses : ∀ s, (u.localRefs s).map (fun r => (r.name, r.position)) =
    (t.localRefs s).map fun r => (r.name, r.position)
  resolved : ∀ {s r}, r ∈ u.localRefs s → ∃ d, r.status = .resolved d ∧ u.Binds r.name s d

theorem WellFormed.locallyLinked (ht : t.WellFormed) (h : t.linkLocal = (.ok (), u)) :
    LocallyLinked t u := by
  obtain rfl : t.linkLocal.2 = u := by rw [h]
  have hsame := UseKind.locals.sameDeclarations_of_unmarked t.unmarked_linkLocal.symm
  refine ⟨hsame, remoteRefs_of_unmarked t.unmarked_linkLocal,
    UseKind.locals.map_refs_of_unmarked t.unmarked_linkLocal fun _ _ => rfl, fun {s r} hr => ?_⟩
  suffices ∃ d, r.status = .resolved d ∧ t.Binds r.name s d by
    obtain ⟨d, hd, hb⟩ := this
    exact ⟨d, hd, hb.of_sameDeclarations hsame⟩
  have hmarks : List.Forall₂ (fun use m => t.localMark? use = some m) t.localUses
      (t.linkMarks t.localUses) := by
    rcases t.linkUses_cases t.localUses t with ⟨-, hall⟩ | ⟨_, _, _, _, _, _, -, -, -, herr, -⟩
    · exact hall
    · cases (congrArg Prod.fst h).symm.trans herr
  rw [linkLocal_snd] at hr
  refine UseKind.locals.forall_marked
    (P := fun s r => ∃ d, r.status = .resolved d ∧ t.Binds r.name s d) ?_ ?_ hr
  · intro m hm x hx
    obtain ⟨⟨q, i, y⟩, hy, he⟩ := exists_of_mem_right hmarks hm
    obtain ⟨d, hd, rfl⟩ := Option.map_eq_some_iff.1 he
    obtain rfl : y = x := Option.some.inj ((ht.mem_localUses_iff.1 hy).symm.trans hx)
    exact ⟨d, rfl, ht.declaring?_eq_some_iff.1 hd⟩
  · intro q i x hx
    obtain ⟨m, hm, he⟩ := exists_of_mem_left hmarks (ht.mem_localUses_iff.2 hx)
    obtain ⟨d, -, rfl⟩ := Option.map_eq_some_iff.1 he
    exact .inl (mem_map_slotOf.2 ⟨_, hm⟩)

end JayFrontEnd.ScopeTree
