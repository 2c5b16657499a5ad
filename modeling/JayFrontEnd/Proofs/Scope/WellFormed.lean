import JayFrontEnd.Proofs.Scope.Views

/-!
# Well-formed scope trees

In a well-formed tree, scope zero is the only one without a parent, a parent has a smaller number
than its children and lists each of them, and a scope declares exactly the symbols that belong to
it. The tree of an empty module is well-formed, and every operation on an existing scope keeps it
so.
-/

namespace JayFrontEnd.ScopeTree

structure WellFormed (t : ScopeTree) : Prop where
  root_lt : root < t.scopes.length
  parent?_root : t.parent? root = none
  exists_parent : ∀ {s}, s ≠ root → s < t.scopes.length → ∃ p, t.parent? s = some p
  parent?_lt : ∀ {s p : Nat}, t.parent? s = some p → p < s
  mem_children : ∀ {p s}, s ∈ t.children p ↔ t.parent? s = some p
  children_sorted : ∀ p, (t.children p).Pairwise (· < ·)
  declared?_iff : ∀ {s name i}, t.declared? s name = some i ↔
    ∃ y, t.symbol? i = some y ∧ y.name = name ∧ y.scope = s

variable {t u : ScopeTree} {s p : ScopeId}

namespace WellFormed

theorem parent?_ofModule (module : String) (s : ScopeId) :
    (ScopeTree.ofModule module).parent? s = none := by
  rcases s with _ | s <;> rfl

theorem children_ofModule (module : String) (s : ScopeId) :
    (ScopeTree.ofModule module).children s = [] := by
  rcases s with _ | s <;> rfl

theorem declared?_ofModule (module name : String) (s : ScopeId) :
    (ScopeTree.ofModule module).declared? s name = none := by
  rcases s with _ | s <;> rfl

theorem ofModule (module : String) : (ScopeTree.ofModule module).WellFormed where
  root_lt := Nat.one_pos
  parent?_root := rfl
  exists_parent h hs := absurd (Nat.lt_one_iff.1 hs) h
  parent?_lt h := by rw [parent?_ofModule] at h; cases h
  mem_children := by simp [parent?_ofModule, children_ofModule]
  children_sorted p := by rw [children_ofModule]; exact .nil
  declared?_iff := by
    intro s name i
    rw [declared?_ofModule]
    simp [symbol?, ScopeTree.ofModule]

theorem of_sameDeclarations (h : t.WellFormed) (hu : SameDeclarations t u) : u.WellFormed where
  root_lt := hu.length ▸ h.root_lt
  parent?_root := (hu.parent? _).trans h.parent?_root
  exists_parent hs hlt := by rw [hu.parent?]; exact h.exists_parent hs (hu.length ▸ hlt)
  parent?_lt hp := h.parent?_lt (hu.parent? _ ▸ hp)
  mem_children := by simp only [hu.children, hu.parent?, h.mem_children, implies_true]
  children_sorted p := by rw [hu.children]; exact h.children_sorted p
  declared?_iff := by
    simp only [hu.declared?, symbol?, hu.symbols]
    exact h.declared?_iff

theorem addChild (h : t.WellFormed) (hp : p < t.scopes.length) (name : String) (kind : ScopeKind) :
    (t.addChild p name kind).2.WellFormed where
  root_lt := by rw [length_addChild]; exact Nat.lt_succ_of_lt h.root_lt
  parent?_root := by
    rw [parent?_addChild, if_neg (Nat.ne_of_lt h.root_lt)]
    exact h.parent?_root
  exists_parent {s} hs hlt := by
    rw [parent?_addChild]
    split
    · exact ⟨p, rfl⟩
    · next hne =>
      rw [length_addChild] at hlt
      exact h.exists_parent hs (Nat.lt_of_le_of_ne (Nat.le_of_lt_succ hlt) hne)
  parent?_lt {s q} hq := by
    rw [parent?_addChild] at hq
    split at hq
    · next hs => cases hq; exact hs ▸ hp
    · exact h.parent?_lt hq
  mem_children {q s} := by
    rw [children_addChild hp, parent?_addChild]
    have hold : s ∈ t.children q → s ≠ t.scopes.length := fun hm =>
      Nat.ne_of_lt (lt_of_parent? (h.mem_children.1 hm))
    by_cases hs : s = t.scopes.length
    · by_cases hq : q = p
      · simp [hs, hq]
      · rw [if_neg hq, if_pos hs]
        exact ⟨fun hm => absurd hs (hold hm), fun he => absurd (Option.some.inj he).symm hq⟩
    · rw [if_neg hs, ← h.mem_children]
      split <;> simp [hs]
  children_sorted q := by
    rw [children_addChild hp]
    split
    · refine List.pairwise_append.2 ⟨h.children_sorted q, List.pairwise_singleton .., ?_⟩
      intro a ha b hb
      rw [List.mem_singleton.1 hb]
      exact lt_of_parent? (h.mem_children.1 ha)
    · exact h.children_sorted q
  declared?_iff := by
    simp only [declared?_addChild]
    exact h.declared?_iff

theorem define (h : t.WellFormed) {name : String} {kind : SymbolKind} {position : Nat}
    {i : SymbolId} (hs : s < t.scopes.length) (hu : t.define s name kind position = .ok (i, u)) :
    u.WellFormed where
  root_lt := (length_of_define hu).symm ▸ h.root_lt
  parent?_root := (parent?_of_define hu).trans h.parent?_root
  exists_parent hs hlt := by
    rw [parent?_of_define hu]
    exact h.exists_parent hs (length_of_define hu ▸ hlt)
  parent?_lt hp := h.parent?_lt (parent?_of_define hu ▸ hp)
  mem_children := by
    simp only [children_of_define hu, parent?_of_define hu, h.mem_children, implies_true]
  children_sorted p := by rw [children_of_define hu]; exact h.children_sorted p
  declared?_iff {r n j} := by
    have hnone := (define_eq_ok hu).1
    rw [declared?_of_define hu hs, symbol?, symbols_of_define hu]
    rcases Nat.lt_trichotomy j t.symbols.length with hj | hj | hj
    · rw [List.getElem?_append_left hj, ← symbol?, ← h.declared?_iff]
      split
      · next hc =>
        obtain ⟨rfl, rfl⟩ := hc
        simp [hnone, Nat.ne_of_gt hj]
      · rfl
    · subst hj
      have hold : t.declared? r n ≠ some t.symbols.length := fun hd => by
        obtain ⟨y, hy, -⟩ := h.declared?_iff.1 hd
        simp [symbol?] at hy
      simp only [List.getElem?_concat_length, Option.some.injEq, exists_eq_left']
      split
      · next hc => simp [hc.1, hc.2]
      · next hc => exact ⟨fun hd => absurd hd hold, fun hd => absurd ⟨hd.2.symm, hd.1.symm⟩ hc⟩
    · have hnew : (t.symbols ++ [⟨name, kind, position, s⟩])[j]? = none :=
        List.getElem?_eq_none (by simpa using Nat.succ_le_of_lt hj)
      have hold : t.declared? r n ≠ some j := fun hd => by
        obtain ⟨y, hy, -⟩ := h.declared?_iff.1 hd
        simp [symbol?, List.getElem?_eq_none (Nat.le_of_lt hj)] at hy
      rw [hnew]
      split
      · simp [Nat.ne_of_lt hj]
      · simp [hold]

theorem setKind (h : t.WellFormed) (i : SymbolId) (kind : SymbolKind) :
    (t.setKind i kind).WellFormed where
  root_lt := h.root_lt
  parent?_root := h.parent?_root
  exists_parent := h.exists_parent
  parent?_lt := h.parent?_lt
  mem_children := h.mem_children
  children_sorted := h.children_sorted
  declared?_iff {s name j} := by
    show t.declared? s name = some j ↔ _
    rw [h.declared?_iff]
    simp only [symbol?, ScopeTree.setKind, List.getElem?_modify]
    split
    · cases t.symbols[j]? <;> simp
    · simp

end WellFormed

end JayFrontEnd.ScopeTree
