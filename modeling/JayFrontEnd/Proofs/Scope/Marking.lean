import JayFrontEnd.Proofs.Scope.Views

/-!
# Marking uses

A scope keeps uses of two kinds, of names and of other modules' names, and linking marks both in one
way: it puts a status on the use at some slot. `UseKind` is what the two kinds have in common.

A tree is what it is without the marks, together with the uses in its scopes (`eq_of_unmarked`).
Putting marks leaves the first as it is (`unmarked_marked`), and of the uses it changes those at the
marked slots (`getElem?_marked_of_mem`, `getElem?_marked_of_not_mem`). So a tree with a mark on
every use has lost the marks it had before, and the same marks put again change nothing.
-/

namespace JayFrontEnd

/-- A status for the use at some index in a scope. -/
abbrev Mark := ScopeId × Nat × RefStatus

/-- A scope, and an index among its uses. -/
abbrev Slot := ScopeId × Nat

def slotOf {α : Type} (x : ScopeId × Nat × α) : Slot := (x.1, x.2.1)

theorem mem_map_slotOf {α : Type} {xs : List (ScopeId × Nat × α)} {s : ScopeId} {i : Nat} :
    (s, i) ∈ xs.map slotOf ↔ ∃ a, (s, i, a) ∈ xs := by
  constructor
  · intro h
    obtain ⟨⟨s, i, a⟩, hx, he⟩ := List.mem_map.1 h
    cases he
    exact ⟨a, hx⟩
  · rintro ⟨a, hx⟩
    exact List.mem_map.2 ⟨_, hx, rfl⟩

/-- How a scope keeps uses of some kind, and how a use gets its status. -/
structure UseKind (ρ : Type) where
  get : Scope → List ρ
  set : List ρ → Scope → Scope
  mark : RefStatus → ρ → ρ
  get_set : ∀ l x, get (set l x) = l
  set_get : ∀ x, set (get x) x = x
  set_set : ∀ l l' x, set l (set l' x) = set l x
  parent_set : ∀ l x, (set l x).parent = x.parent
  children_set : ∀ l x, (set l x).children = x.children
  symbols_set : ∀ l x, (set l x).symbols = x.symbols
  mark_mark : ∀ st st' r, mark st (mark st' r) = mark st r

namespace UseKind

def locals : UseKind LocalRef where
  get := Scope.localRefs
  set l x := { x with localRefs := l }
  mark status r := { r with status }
  get_set _ _ := rfl
  set_get _ := rfl
  set_set _ _ _ := rfl
  parent_set _ _ := rfl
  children_set _ _ := rfl
  symbols_set _ _ := rfl
  mark_mark _ _ _ := rfl

def remotes : UseKind RemoteRef where
  get := Scope.remoteRefs
  set l x := { x with remoteRefs := l }
  mark status r := { r with status }
  get_set _ _ := rfl
  set_get _ := rfl
  set_set _ _ _ := rfl
  parent_set _ _ := rfl
  children_set _ _ := rfl
  symbols_set _ _ := rfl
  mark_mark _ _ _ := rfl

variable {ρ : Type} (k : UseKind ρ) {t u : ScopeTree} {s r : ScopeId} {i j : Nat} {x : ρ}

def edit (f : List ρ → List ρ) (x : Scope) : Scope := k.set (f (k.get x)) x

theorem edit_edit (f g : List ρ → List ρ) (x : Scope) :
    k.edit f (k.edit g x) = k.edit (fun l => f (g l)) x := by
  simp only [edit, k.get_set, k.set_set]

def refs (t : ScopeTree) (s : ScopeId) : List ρ := ((t.scope? s).map k.get).getD []

/-- Puts a mark on the use at its slot, if there is one. -/
def put (t : ScopeTree) (m : Mark) : ScopeTree :=
  t.modifyScope m.1 (k.edit (·.modify m.2.1 (k.mark m.2.2)))

def marked (t : ScopeTree) (marks : List Mark) : ScopeTree := marks.foldl k.put t

def reset (x : ρ) : ρ := k.mark .pending x

def unmarked (t : ScopeTree) : ScopeTree :=
  { t with scopes := t.scopes.map (k.edit (·.map k.reset)) }

/-! ## What stands at a slot -/

theorem refs_put (t : ScopeTree) (s : ScopeId) (i : Nat) (st : RefStatus) (r : ScopeId) :
    k.refs (k.put t (s, i, st)) r =
      if s = r then (k.refs t r).modify i (k.mark st) else k.refs t r := by
  unfold refs put
  rw [ScopeTree.scope?_modifyScope]
  split
  · next hs =>
    subst hs
    cases t.scope? s with
    | none => exact (List.modify_nil ..).symm
    | some x => exact k.get_set ..
  · rfl

theorem getElem?_put (t : ScopeTree) (m : Mark) :
    (k.refs (k.put t m) r)[j]? =
      if slotOf m = (r, j) then ((k.refs t r)[j]?).map (k.mark m.2.2) else (k.refs t r)[j]? := by
  obtain ⟨s, i, st⟩ := m
  rw [refs_put]
  simp only [slotOf, Prod.mk.injEq]
  by_cases hs : s = r
  · rw [if_pos hs, List.getElem?_modify]
    by_cases hi : i = j
    · simp [hs, hi]
    · simp [hi]
  · rw [if_neg hs, if_neg fun h => hs h.1]

theorem getElem?_marked_of_not_mem {marks : List Mark} (h : (r, j) ∉ marks.map slotOf) :
    (k.refs (k.marked t marks) r)[j]? = (k.refs t r)[j]? := by
  induction marks generalizing t with
  | nil => rfl
  | cons m marks ih =>
    show (k.refs (k.marked (k.put t m) marks) r)[j]? = _
    rw [ih (List.not_mem_of_not_mem_cons h), getElem?_put,
      if_neg (Ne.symm (List.ne_of_not_mem_cons h))]

theorem getElem?_marked_of_mem {marks : List Mark} (hnodup : (marks.map slotOf).Nodup)
    {st : RefStatus} (h : (r, j, st) ∈ marks) :
    (k.refs (k.marked t marks) r)[j]? = ((k.refs t r)[j]?).map (k.mark st) := by
  induction marks generalizing t with
  | nil => cases h
  | cons m marks ih =>
    obtain ⟨hm, hnodup⟩ := List.nodup_cons.1 hnodup
    show (k.refs (k.marked (k.put t m) marks) r)[j]? = _
    rcases List.mem_cons.1 h with rfl | h
    · exact (k.getElem?_marked_of_not_mem hm).trans ((k.getElem?_put t _).trans (if_pos rfl))
    · have hne : slotOf m ≠ (r, j) := fun he => hm (he ▸ mem_map_slotOf.2 ⟨st, h⟩)
      rw [ih hnodup h, getElem?_put, if_neg hne]

/-- If every mark is right for the use it is put on, and every use gets one or is right as it is,
then all uses are right in the end. -/
theorem forall_marked {P : ScopeId → ρ → Prop} {marks : List Mark}
    (right : ∀ m ∈ marks, ∀ x, (k.refs t m.1)[m.2.1]? = some x → P m.1 (k.mark m.2.2 x))
    (cover : ∀ s i x, (k.refs t s)[i]? = some x → (s, i) ∈ marks.map slotOf ∨ P s x)
    {y : ρ} (hy : y ∈ k.refs (k.marked t marks) s) : P s y := by
  induction marks generalizing t with
  | nil =>
    obtain ⟨i, hi⟩ := List.getElem?_of_mem hy
    exact (cover s i y hi).resolve_left List.not_mem_nil
  | cons m marks ih =>
    -- what stands at a slot after the first mark
    have hslot : ∀ {r j z}, (k.refs (k.put t m) r)[j]? = some z →
        ∃ x, (k.refs t r)[j]? = some x ∧
          (slotOf m = (r, j) ∧ z = k.mark m.2.2 x ∨ slotOf m ≠ (r, j) ∧ z = x) := by
      intro r j z hz
      rw [getElem?_put] at hz
      split at hz
      · next hm =>
        obtain ⟨x, hx, rfl⟩ := Option.map_eq_some_iff.1 hz
        exact ⟨x, hx, .inl ⟨hm, rfl⟩⟩
      · next hm => exact ⟨z, hz, .inr ⟨hm, rfl⟩⟩
    refine ih (t := k.put t m) (fun n hn z hz => ?_) (fun r j z hz => ?_) hy
    · -- a later mark on the same use replaces this one
      obtain ⟨x, hx, ⟨-, rfl⟩ | ⟨-, rfl⟩⟩ := hslot hz
      · rw [k.mark_mark]
        exact right n (List.mem_cons_of_mem _ hn) x hx
      · exact right n (List.mem_cons_of_mem _ hn) _ hx
    · obtain ⟨x, hx, ⟨hm, rfl⟩ | ⟨hm, rfl⟩⟩ := hslot hz
      · cases hm
        exact .inr (right m (List.mem_cons_self ..) x hx)
      · exact (cover r j _ hx).imp_left fun h => List.mem_of_ne_of_mem (Ne.symm hm) h

/-! ## What stays -/

theorem scope?_unmarked : (k.unmarked t).scope? s = (t.scope? s).map (k.edit (·.map k.reset)) :=
  List.getElem?_map ..

theorem reset_reset (x : ρ) : k.reset (k.reset x) = k.reset x := k.mark_mark ..

theorem unmarked_unmarked (t : ScopeTree) : k.unmarked (k.unmarked t) = k.unmarked t := by
  simp only [unmarked, List.map_map]
  congr 1
  refine List.map_congr_left fun x _ => ?_
  simp only [Function.comp_apply, edit_edit, List.map_map]
  exact congrArg (k.edit · x) (funext fun l => List.map_congr_left fun r _ => k.reset_reset r)

/-- What is done to a scope apart from its uses can as well be done without the marks. -/
theorem unmarked_modifyScope {f : Scope → Scope}
    (hf : ∀ x, k.edit (·.map k.reset) (f x) = f (k.edit (·.map k.reset) x)) (t : ScopeTree)
    (s : ScopeId) : k.unmarked (t.modifyScope s f) = (k.unmarked t).modifyScope s f :=
  congrArg (ScopeTree.mk · t.symbols) (ScopeTree.map_modify_comm hf ..)

theorem unmarked_put (t : ScopeTree) (m : Mark) : k.unmarked (k.put t m) = k.unmarked t := by
  unfold unmarked put ScopeTree.modifyScope
  refine congrArg (ScopeTree.mk · t.symbols) (ScopeTree.map_modify (fun x => ?_) ..)
  rw [edit_edit]
  exact congrArg (k.edit · x) (funext fun l => ScopeTree.map_modify (k.mark_mark _ _) ..)

theorem unmarked_marked (t : ScopeTree) (marks : List Mark) :
    k.unmarked (k.marked t marks) = k.unmarked t := by
  induction marks generalizing t with
  | nil => rfl
  | cons m marks ih => exact (ih _).trans (k.unmarked_put t m)

theorem sameDeclarations_unmarked (t : ScopeTree) :
    ScopeTree.SameDeclarations t (k.unmarked t) where
  length := List.length_map ..
  parent? r := by
    rw [ScopeTree.parent?, scope?_unmarked, Option.bind_map]
    exact congrArg (Option.bind _) (funext fun x => k.parent_set ..)
  children r := by
    rw [ScopeTree.children, scope?_unmarked, Option.map_map]
    exact congrArg (fun f => (Option.map f _).getD []) (funext fun x => k.children_set ..)
  declared? r name := by
    rw [ScopeTree.declared?, scope?_unmarked, Option.bind_map]
    exact congrArg (Option.bind _) (funext fun x => congrArg (List.lookup name) (k.symbols_set ..))
  symbols := rfl

theorem refs_unmarked (t : ScopeTree) (s : ScopeId) :
    k.refs (k.unmarked t) s = (k.refs t s).map k.reset := by
  rw [refs, scope?_unmarked, refs]
  cases t.scope? s with
  | none => rfl
  | some x => exact k.get_set ..

section SameUnmarked

variable (h : k.unmarked t = k.unmarked u)
include h

theorem sameDeclarations_of_unmarked : ScopeTree.SameDeclarations t u :=
  (k.sameDeclarations_unmarked t).trans (h ▸ (k.sameDeclarations_unmarked u).symm)

theorem map_reset_refs (s : ScopeId) : (k.refs t s).map k.reset = (k.refs u s).map k.reset := by
  rw [← refs_unmarked, ← refs_unmarked, h]

/-- Under a new mark it does not show which mark was there. -/
theorem map_mark_getElem? (st : RefStatus) :
    ((k.refs t s)[i]?).map (k.mark st) = ((k.refs u s)[i]?).map (k.mark st) := by
  have hslot := congrArg (·[i]?) (k.map_reset_refs h s)
  simp only [List.getElem?_map] at hslot
  have hmark : k.mark st = k.mark st ∘ k.reset := funext fun x => (k.mark_mark ..).symm
  rw [hmark, ← Option.map_map, hslot, Option.map_map]

/-- Trees that are the same but for marks, and have the same uses, are the same. -/
theorem eq_of_unmarked (hrefs : ∀ s, k.refs t s = k.refs u s) : t = u := by
  have hsymbols : (k.unmarked t).symbols = (k.unmarked u).symbols := by rw [h]
  change t.symbols = u.symbols at hsymbols
  have hscopes : t.scopes = u.scopes := by
    refine List.ext_getElem? fun s => ?_
    have hscope := congrArg (ScopeTree.scope? · s) h
    simp only [scope?_unmarked] at hscope
    have hget := hrefs s
    unfold refs at hget
    show t.scope? s = u.scope? s
    cases ht : t.scope? s with
    | none =>
      rw [ht] at hscope
      exact (Option.map_eq_none_iff.1 hscope.symm).symm
    | some x =>
      rw [ht] at hscope
      obtain ⟨y, hu, hxy⟩ := Option.map_eq_some_iff.1 hscope.symm
      rw [ht, hu] at hget
      -- the uses can be put back into the scope without its marks
      have hback : ∀ x, k.set (k.get x) (k.edit (·.map k.reset) x) = x := fun x => by
        rw [edit, k.set_set, k.set_get]
      rw [hu, ← hback x, ← hback y, hxy]
      exact congrArg (fun l => some (k.set l _)) hget
  cases t
  cases u
  cases hscopes
  cases hsymbols
  rfl

/-- If every use gets a mark, it does not matter which marks there were. -/
theorem marked_eq_marked {marks : List Mark} (hnodup : (marks.map slotOf).Nodup)
    (cover : ∀ {s i x}, (k.refs t s)[i]? = some x → (s, i) ∈ marks.map slotOf) :
    k.marked t marks = k.marked u marks := by
  refine k.eq_of_unmarked (by rw [unmarked_marked, unmarked_marked, h]) fun s => ?_
  refine List.ext_getElem? fun i => ?_
  by_cases hi : (s, i) ∈ marks.map slotOf
  · obtain ⟨st, hm⟩ := mem_map_slotOf.1 hi
    rw [k.getElem?_marked_of_mem hnodup hm, k.getElem?_marked_of_mem hnodup hm]
    exact k.map_mark_getElem? h st
  · rw [k.getElem?_marked_of_not_mem hi, k.getElem?_marked_of_not_mem hi]
    have ht : (k.refs t s)[i]? = none :=
      Option.eq_none_iff_forall_ne_some.2 fun _ hx => hi (cover hx)
    have hu := k.map_mark_getElem? h .pending (s := s) (i := i)
    rw [ht] at hu
    rw [ht, Option.map_eq_none_iff.1 hu.symm]

/-- What does not hang on marks is read from the uses alike. -/
theorem map_refs_of_unmarked {β : Type} {g : ρ → β} (hg : ∀ st x, g (k.mark st x) = g x)
    (s : ScopeId) : (k.refs t s).map g = (k.refs u s).map g := by
  have hreset : g = g ∘ k.reset := funext fun x => (hg ..).symm
  rw [hreset, ← List.map_map, k.map_reset_refs h, List.map_map]

end SameUnmarked

theorem marked_marked {marks : List Mark} (hnodup : (marks.map slotOf).Nodup) (t : ScopeTree) :
    k.marked (k.marked t marks) marks = k.marked t marks := by
  refine k.eq_of_unmarked (k.unmarked_marked ..) fun s => List.ext_getElem? fun i => ?_
  by_cases hi : (s, i) ∈ marks.map slotOf
  · obtain ⟨st, hm⟩ := mem_map_slotOf.1 hi
    rw [k.getElem?_marked_of_mem hnodup hm, k.getElem?_marked_of_mem hnodup hm, Option.map_map]
    exact congrArg (Option.map · _) (funext fun x => k.mark_mark ..)
  · rw [k.getElem?_marked_of_not_mem hi]

end UseKind

end JayFrontEnd
