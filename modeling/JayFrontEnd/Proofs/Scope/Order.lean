import JayFrontEnd.Proofs.Scope.LocalLink

/-!
# The order of linking

Linking takes scopes depth first, a scope before what is in it and children in the order they were
made, and in a scope its uses by first use. A walk visits scopes in this order, so the first use of
its list that is wrong is the first of all.
-/

namespace JayFrontEnd.ScopeTree

variable {t : ScopeTree} {r s : ScopeId}

def Precedes (t : ScopeTree) (a b : Slot) : Prop :=
  t.Before a.1 b.1 ∨ a.1 = b.1 ∧ a.2 < b.2

theorem Precedes.asymm {a b : Slot} (h : t.Precedes a b) : ¬ t.Precedes b a := by
  rintro (hba | ⟨heq, hba⟩) <;> rcases h with hab | ⟨heq', hab⟩
  · exact hab.asymm hba
  · exact (heq' ▸ hba).asymm (heq' ▸ hba)
  · exact (heq ▸ hab).asymm (heq ▸ hab)
  · exact Nat.lt_asymm hab hba

theorem Precedes.ne {a b : Slot} (h : t.Precedes a b) : a ≠ b := by
  rintro rfl
  exact h.asymm h

/-! ## First uses -/

section Uses

variable {ρ : Type} {refs : ScopeId → List ρ} {wrong : ScopeId → ρ → Prop} {i : Nat} {x : ρ}

/-- Of the uses that are wrong, the one at index `i` of scope `s` comes first. -/
structure FirstUse (t : ScopeTree) (refs : ScopeId → List ρ) (wrong : ScopeId → ρ → Prop)
    (s : ScopeId) (i : Nat) (x : ρ) : Prop where
  use : (refs s)[i]? = some x
  is_wrong : wrong s x
  first : ∀ {r : ScopeId} {j : Nat} {y : ρ}, (refs r)[j]? = some y → wrong r y →
    t.Before s r ∨ s = r ∧ i ≤ j

/-- There is one first use. -/
theorem FirstUse.unique {j : Nat} {y : ρ} (h : t.FirstUse refs wrong s i x)
    (h' : t.FirstUse refs wrong r j y) : x = y := by
  rcases h.first h'.use h'.is_wrong with hsr | ⟨rfl, hij⟩
  · rcases h'.first h.use h.is_wrong with hrs | ⟨rfl, -⟩
    · exact absurd hrs hsr.asymm
    · exact absurd hsr hsr.asymm
  · rcases h'.first h.use h.is_wrong with hrs | ⟨-, hji⟩
    · exact absurd hrs hrs.asymm
    · obtain rfl := Nat.le_antisymm hij hji
      exact Option.some.inj (h.use.symm.trans h'.use)

def uses (t : ScopeTree) (refs : ScopeId → List ρ) : List (ScopeId × Nat × ρ) :=
  t.walk.flatMap fun s => (refs s).zipIdx.map fun (r, i) => (s, i, r)

theorem WellFormed.uses_sorted (ht : t.WellFormed) (refs : ScopeId → List ρ) :
    (t.uses refs).Pairwise fun u v => t.Precedes (slotOf u) (slotOf v) := by
  refine List.pairwise_flatMap.2 ⟨fun s _ => ?_, ht.walk_sorted.imp fun hab u hu v hv => ?_⟩
  · rw [List.pairwise_map, List.pairwise_iff_getElem]
    intro i j hi hj hlt
    simp only [List.getElem_zipIdx, slotOf]
    exact .inr ⟨rfl, Nat.add_lt_add_left hlt 0⟩
  · obtain ⟨_, -, rfl⟩ := List.mem_map.1 hu
    obtain ⟨_, -, rfl⟩ := List.mem_map.1 hv
    exact .inl hab

/-- The first wrong one in the list of uses is the first of all. -/
theorem WellFormed.firstUse (ht : t.WellFormed) (hrefs : ∀ {s x}, x ∈ refs s → s < t.scopes.length)
    {before after : List (ScopeId × Nat × ρ)} (hsplit : t.uses refs = before ++ (s, i, x) :: after)
    (hbefore : ∀ use ∈ before, ¬ wrong use.1 use.2.2) (hx : wrong s x) :
    t.FirstUse refs wrong s i x := by
  have hsorted := ht.uses_sorted refs
  have hmem : (s, i, x) ∈ t.uses refs := by rw [hsplit]; simp
  refine ⟨(mem_flatMap_zipIdx.1 hmem).2, hx, fun {r j y} hy hwrong => ?_⟩
  have hr : (r, j, y) ∈ t.uses refs :=
    mem_flatMap_zipIdx.2 ⟨ht.mem_walk (hrefs (List.mem_of_getElem? hy)), hy⟩
  rw [hsplit] at hsorted hr
  rcases List.mem_append.1 hr with hr | hr
  · exact absurd hwrong (hbefore _ hr)
  · rcases List.mem_cons.1 hr with hr | hr
    · cases hr
      exact .inr ⟨rfl, Nat.le_refl _⟩
    · have hprecedes : t.Precedes (s, i) (r, j) :=
        (List.pairwise_cons.1 (List.pairwise_append.1 hsorted).2.1).1 _ hr
      exact hprecedes.imp_right fun h => ⟨h.1, Nat.le_of_lt h.2⟩

theorem WellFormed.nodup_slots (ht : t.WellFormed) (refs : ScopeId → List ρ) :
    ((t.uses refs).map slotOf).Nodup :=
  List.pairwise_map.2 ((ht.uses_sorted refs).imp Precedes.ne)

/-- Where uses are the same up to something, they are listed alike up to it. -/
theorem map_uses {u : ScopeTree} {refs' : ScopeId → List ρ} {g : ρ → ρ} (hwalk : u.walk = t.walk)
    (hrefs : ∀ s, (refs s).map g = (refs' s).map g) :
    (t.uses refs).map (fun use => (use.1, use.2.1, g use.2.2)) =
      (u.uses refs').map fun use => (use.1, use.2.1, g use.2.2) := by
  have hmap : ∀ (t : ScopeTree) (refs : ScopeId → List ρ), (t.uses refs).map
      (fun use => (use.1, use.2.1, g use.2.2)) = t.uses fun s => (refs s).map g := by
    intro t refs
    rw [uses, uses, List.map_flatMap]
    refine List.flatMap_congr fun s _ => ?_
    rw [List.zipIdx_map, List.map_map, List.map_map]
    rfl
  rw [hmap, hmap, uses, uses, hwalk]
  exact List.flatMap_congr fun s _ => by rw [hrefs]

end Uses

/-! ## The first use that cannot be resolved -/

/-- No scope around the use declares its name. -/
def Unbound (t : ScopeTree) (s : ScopeId) (r : LocalRef) : Prop := ¬ ∃ d, t.Binds r.name s d

theorem WellFormed.unbound_iff (ht : t.WellFormed) {r : LocalRef} :
    t.Unbound s r ↔ t.declaring? s r.name = none := by
  rw [Option.eq_none_iff_forall_ne_some]
  exact ⟨fun h d hd => h ⟨d, ht.declaring?_eq_some_iff.1 hd⟩,
    fun h ⟨d, hd⟩ => h d (ht.declaring?_eq_some_iff.2 hd)⟩

/-- A module links within itself if all its uses are bound, and else fails at the first that is
not. -/
theorem WellFormed.linkLocal_cases (ht : t.WellFormed) :
    (∃ u, t.linkLocal = (.ok (), u)) ∧ (∀ s, ∀ r ∈ t.localRefs s, ¬ t.Unbound s r) ∨
      ∃ u s i x, t.FirstUse t.localRefs t.Unbound s i x ∧
        t.linkLocal = (.error (.unresolvedSymbol x.name x.position), u) := by
  rcases t.linkUses_cases t.localUses t with
    ⟨hok, hmarks⟩ | ⟨before, s, i, x, after, marks, hsplit, hmarks, hnone, herr, -⟩
  · refine .inl ⟨⟨_, Prod.ext hok rfl⟩, fun s r hr hunbound => ?_⟩
    obtain ⟨i, hi⟩ := List.getElem?_of_mem hr
    obtain ⟨m, -, hm⟩ := exists_of_mem_left hmarks (ht.mem_localUses_iff.2 hi)
    exact ne_none_of_localMark? hm (ht.unbound_iff.1 hunbound)
  · refine .inr ⟨_, s, i, x, ht.firstUse lt_of_mem_localRefs hsplit (fun use huse hunbound => ?_)
      (ht.unbound_iff.2 hnone), Prod.ext herr rfl⟩
    obtain ⟨m, -, hm⟩ := exists_of_mem_left hmarks huse
    exact ne_none_of_localMark? hm (ht.unbound_iff.1 hunbound)

end JayFrontEnd.ScopeTree
