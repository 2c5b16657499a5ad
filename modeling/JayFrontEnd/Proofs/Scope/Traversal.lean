import JayFrontEnd.Proofs.Scope.Operation

/-!
# Going through a scope tree

Two loops go through a tree: one down from the root with a stack, one up from a scope by parents.
In a tree that has come about by operations, whichever scopes got children and in whatever order,
both end. The walk down comes to every scope once, and what lies in a scope makes one piece of it;
the way up leads to smaller and smaller numbers, and to the root.
-/

namespace JayFrontEnd.ScopeTree

variable {t : ScopeTree} {p q r s : ScopeId} {n : Nat}

/-! ## The way up -/

/-- The loop that goes from a scope to its parent, as long as there is one, passes these scopes. -/
inductive Climbs (t : ScopeTree) : ScopeId → List ScopeId → Prop where
  | top {s : ScopeId} : t.parent? s = none → Climbs t s [s]
  | up {s p : ScopeId} {as : List ScopeId} :
      t.parent? s = some p → Climbs t p as → Climbs t s (s :: as)

theorem WellFormed.climbs_ancestors (ht : t.WellFormed) (s : ScopeId) :
    t.Climbs s (t.ancestors s) := by
  induction s using ht.parent_induction with
  | top s hp =>
    rw [ancestors_of_no_parent hp]
    exact .top hp
  | inner s p hp ih =>
    rw [ht.ancestors_of_parent? hp]
    exact .up hp ih

theorem Climbs.le (ht : t.WellFormed) {as : List ScopeId} (h : t.Climbs s as) :
    ∀ a ∈ as, a ≤ s := by
  induction h with
  | top => simp
  | up hp _ ih =>
    refine List.forall_mem_cons.2 ⟨Nat.le_refl _, fun a ha => ?_⟩
    exact Nat.le_trans (ih a ha) (Nat.le_of_lt (ht.parent?_lt hp))

theorem Climbs.decreasing (ht : t.WellFormed) {as : List ScopeId} (h : t.Climbs s as) :
    as.Pairwise (· > ·) := by
  induction h with
  | top => exact List.pairwise_singleton ..
  | up hp h ih =>
    exact List.pairwise_cons.2
      ⟨fun a ha => Nat.lt_of_le_of_lt (h.le ht a ha) (ht.parent?_lt hp), ih⟩

theorem Climbs.getLast? (ht : t.WellFormed) {as : List ScopeId} (h : t.Climbs s as)
    (hs : s < t.scopes.length) : as.getLast? = some root := by
  induction h with
  | @top s hp =>
    by_cases hr : s = root
    · rw [hr]
      rfl
    · obtain ⟨p, hq⟩ := ht.exists_parent hr hs
      cases hp.symm.trans hq
  | up hp h ih =>
    have hlast := ih (Nat.lt_trans (ht.parent?_lt hp) hs)
    rw [List.getLast?_cons, hlast]
    rfl

/-! ## The way down -/

/-- The scopes in an order in which a scope comes right before all that lies in it, and what lies in
a scope comes before what lies in another that was made later in the same scope. -/
structure PreOrder (t : ScopeTree) (order : List ScopeId) : Prop where
  once : ∀ s, order.count s = if s < t.scopes.length then 1 else 0
  head : order.head? = some root
  segment : ∀ r, r < t.scopes.length → ∃ before inside after,
    order = before ++ r :: inside ++ after ∧ ∀ s, s ∈ inside ↔ t.Within r s ∧ s ≠ r
  siblings : ∀ p c d : Nat, t.parent? c = some p → t.parent? d = some p → c < d →
    ∀ x y, t.Within c x → t.Within d y → [x, y].Sublist order

/-- What a deep enough recursion makes of a scope is one piece of what it makes of a scope around
it. -/
theorem WellFormed.exists_segment (ht : t.WellFormed) (h : t.Within q r)
    (hr : r < t.scopes.length) (hn : t.scopes.length ≤ q + n) :
    ∃ m before after, t.scopes.length ≤ r + m ∧
      t.walkFrom n q = before ++ t.walkFrom m r ++ after := by
  induction n generalizing q with
  | zero =>
    have hle : q ≤ r := ht.le_of_within h
    exact absurd hr (Nat.not_lt_of_le (Nat.le_trans hn hle))
  | succ n ih =>
    rcases Relation.ReflTransGen.cases_head h with rfl | ⟨c, hc, hcr⟩
    · exact ⟨n + 1, [], [], hn, by simp⟩
    · have hlt := ht.parent?_lt hc
      obtain ⟨m, before, after, hm, hwalk⟩ := ih hcr (by omega)
      obtain ⟨cs, ds, hchildren⟩ := List.append_of_mem (ht.mem_children.2 hc)
      refine ⟨m, q :: (cs.flatMap (t.walkFrom n) ++ before), after ++ ds.flatMap (t.walkFrom n),
        hm, ?_⟩
      rw [walkFrom, hchildren, List.flatMap_append, List.flatMap_cons, hwalk]
      simp

theorem WellFormed.segment_walk (ht : t.WellFormed) {r : Nat} (hr : r < t.scopes.length) :
    ∃ before inside after, t.walk = before ++ r :: inside ++ after ∧
      ∀ s, s ∈ inside ↔ t.Within r s ∧ s ≠ r := by
  obtain ⟨m, before, after, hm, hwalk⟩ := ht.exists_segment (n := t.scopes.length)
    (ht.within_root hr) hr (Nat.le_add_left ..)
  obtain ⟨m, rfl⟩ : ∃ k, m = k + 1 := ⟨m - 1, by omega⟩
  have hnodup := ht.nodup_walkFrom (m + 1) r
  rw [walkFrom, List.nodup_cons] at hnodup
  refine ⟨before, _, after, ht.walk_eq.trans hwalk, fun s => ⟨fun hs => ?_, fun ⟨hs, hne⟩ => ?_⟩⟩
  · have hmem : s ∈ t.walkFrom (m + 1) r := List.mem_cons_of_mem r hs
    refine ⟨ht.within_of_mem_walkFrom hmem, ?_⟩
    rintro rfl
    exact hnodup.1 hs
  · have hmem : s ∈ t.walkFrom (m + 1) r :=
      ht.mem_walkFrom hs (Nat.lt_of_lt_of_le (hs.lt_length hr) hm)
    exact (List.mem_cons.1 hmem).resolve_left hne

/-- The paths of what lies in two scopes part where these were made. -/
theorem WellFormed.before_of_siblings (ht : t.WellFormed) {p c d x y : Nat}
    (hc : t.parent? c = some p) (hd : t.parent? d = some p) (hlt : c < d) (hx : t.Within c x)
    (hy : t.Within d y) : t.Before x y := by
  obtain ⟨xs, hxpath, -⟩ := ht.path_of_within hx
  obtain ⟨ys, hypath, -⟩ := ht.path_of_within hy
  rw [ht.path_of_parent? hc, List.append_assoc] at hxpath
  rw [ht.path_of_parent? hd, List.append_assoc] at hypath
  unfold Before
  rw [hxpath, hypath]
  exact List.append_left_lt (.rel hlt)

/-- In a sorted list, what comes before stands before. -/
theorem Before.sublist {x y : ScopeId} (h : t.Before x y) {order : List ScopeId}
    (hsorted : order.Pairwise t.Before) (hx : x ∈ order) (hy : y ∈ order) :
    [x, y].Sublist order := by
  obtain ⟨before, after, rfl⟩ := List.append_of_mem hx
  obtain ⟨-, -, hbefore⟩ := List.pairwise_append.1 hsorted
  rcases List.mem_append.1 hy with hy | hy
  · exact absurd h (hbefore y hy x (List.mem_cons_self ..)).asymm
  · rcases List.mem_cons.1 hy with rfl | hy
    · exact absurd h h.asymm
    · exact ((List.singleton_sublist.2 hy).cons_cons x).trans (List.sublist_append_right ..)

theorem WellFormed.preOrder_walk (ht : t.WellFormed) : t.PreOrder t.walk where
  once s := by
    have hnodup : t.walk.Nodup := ht.walk_eq ▸ ht.nodup_walkFrom ..
    split
    · next hs => exact List.count_eq_one_of_mem hnodup (ht.mem_walk hs)
    · next hs => exact List.count_eq_zero_of_not_mem fun hmem => hs (ht.lt_of_mem_walk hmem)
  head := by
    have hvisits := ht.visits_walk
    generalize t.walk = order at hvisits
    cases hvisits
    rfl
  segment r hr := ht.segment_walk hr
  siblings p c d hc hd hlt x y hx hy := by
    refine (ht.before_of_siblings hc hd hlt hx hy).sublist ht.walk_sorted ?_ ?_
    · exact ht.mem_walk (hx.lt_length (lt_of_parent? hc))
    · exact ht.mem_walk (hy.lt_length (lt_of_parent? hd))

/-! ## Both -/

/-- In a tree that has come about by operations, the walk ends and is a complete pre-order; and from
every scope the way up ends, with smaller and smaller numbers, at the root. -/
theorem traversals_of_built (h : t.Built) :
    t.Visits [root] t.walk ∧ t.PreOrder t.walk ∧
      ∀ s, s < t.scopes.length → t.Climbs s (t.ancestors s) ∧
        (t.ancestors s).Pairwise (· > ·) ∧ (t.ancestors s).getLast? = some root := by
  have ht := h.wellFormed
  refine ⟨ht.visits_walk, ht.preOrder_walk, fun s hs => ?_⟩
  have hclimbs := ht.climbs_ancestors s
  exact ⟨hclimbs, hclimbs.decreasing ht, hclimbs.getLast? ht hs⟩

/-- Two functions in a module, and then a block in the first of them. -/
def lateBlock : ScopeTree :=
  let t := ((ofModule "m").addChild root "f" .function).2
  ((t.addChild root "g" .function).2.addChild 1 "block" .block).2

theorem traversals_of_built_lateBlock : lateBlock.walk = [0, 1, 3, 2] ∧
    lateBlock.ancestors 3 = [3, 1, 0] ∧ lateBlock.PreOrder [0, 1, 3, 2] ∧
    lateBlock.Climbs 3 [3, 1, 0] := by
  have hbuilt := (((Built.ofModule "m").perform (.addChild root "f" .function) (by decide)).perform
    (.addChild root "g" .function) (by decide)).perform (.addChild 1 "block" .block) (by decide)
  obtain ⟨-, hwalk, hup⟩ := traversals_of_built hbuilt
  exact ⟨rfl, rfl, hwalk, (hup 3 (by decide)).1⟩

end JayFrontEnd.ScopeTree
