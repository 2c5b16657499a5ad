import JayFrontEnd.Proofs.Scope.Chain
import Mathlib.Data.List.Lex
import Mathlib.Data.List.Perm.Subperm

/-!
# Depth-first visits

A walk keeps the scopes it has yet to go to on a stack, and goes on until the stack is empty:
`Visits` is this loop. In a well-formed tree it does what the recursion `walkFrom` does, which goes
through the children of a scope one after the other. `Before` says which of two scopes comes first
without any walk, by their paths from the root. The recursion keeps to this order and so comes to no
scope twice, which is why the bound on the number of visits is never met.
-/

namespace JayFrontEnd.ScopeTree

def path (t : ScopeTree) (s : ScopeId) : List ScopeId := (t.ancestors s).reverse

/-- One scope comes before the other depth first: their paths are ordered like words, and children
by when they were made. -/
def Before (t : ScopeTree) (a b : ScopeId) : Prop := t.path a < t.path b

variable {t : ScopeTree} {p r s : ScopeId} {n : Nat}

theorem Before.asymm {a b : ScopeId} (h : t.Before a b) : ¬ t.Before b a := List.lt_asymm h

theorem Before.of_sameDeclarations {u : ScopeTree} {a b : ScopeId} (h : t.Before a b)
    (hu : SameDeclarations t u) : u.Before a b := by
  unfold Before path ancestors at *
  rwa [hu.chain, hu.chain]

theorem WellFormed.path_of_parent? (ht : t.WellFormed) (hp : t.parent? s = some p) :
    t.path s = t.path p ++ [s] := by
  rw [path, ht.ancestors_of_parent? hp, List.reverse_cons]
  rfl

/-- The way to a scope goes through the scopes around it, which have smaller numbers. -/
theorem WellFormed.path_of_within (ht : t.WellFormed) (h : t.Within p s) :
    ∃ rest, t.path s = t.path p ++ rest ∧ ∀ r ∈ rest, r ≤ s := by
  induction h with
  | refl => exact ⟨[], (List.append_nil _).symm, nofun⟩
  | @tail q s _ hq ih =>
    obtain ⟨rest, hpath, hrest⟩ := ih
    refine ⟨rest ++ [s], by rw [ht.path_of_parent? hq, hpath, List.append_assoc], ?_⟩
    refine List.forall_mem_append.2 ⟨fun r hr => ?_, by simp⟩
    exact Nat.le_trans (hrest r hr) (Nat.le_of_lt (ht.parent?_lt hq))

/-! ## The recursion -/

/-- A scope and what is in it, down to a depth of `n`, in pre-order. -/
def walkFrom (t : ScopeTree) : Nat → ScopeId → List ScopeId
  | 0, _ => []
  | n + 1, s => s :: (t.children s).flatMap (t.walkFrom n)

theorem WellFormed.within_of_mem_walkFrom (ht : t.WellFormed) (h : s ∈ t.walkFrom n r) :
    t.Within r s := by
  induction n generalizing r with
  | zero => cases h
  | succ n ih =>
    rcases List.mem_cons.1 h with rfl | h
    · exact .refl
    · obtain ⟨c, hc, hs⟩ := List.mem_flatMap.1 h
      exact .head (ht.mem_children.1 hc) (ih hs)

theorem WellFormed.walkFrom_sorted (ht : t.WellFormed) (n : Nat) (r : ScopeId) :
    (t.walkFrom n r).Pairwise t.Before := by
  induction n generalizing r with
  | zero => exact .nil
  | succ n ih =>
    have hchild : ∀ {c s}, c ∈ t.children r → s ∈ t.walkFrom n c →
        ∃ rest, t.path s = t.path r ++ c :: rest := by
      intro c s hc hs
      obtain ⟨rest, hrest, -⟩ := ht.path_of_within (ht.within_of_mem_walkFrom hs)
      rw [ht.path_of_parent? (ht.mem_children.1 hc), List.append_assoc] at hrest
      exact ⟨rest, hrest⟩
    refine List.pairwise_cons.2 ⟨fun s hs => ?_, List.pairwise_flatMap.2 ⟨fun c _ => ih c, ?_⟩⟩
    · obtain ⟨c, hc, hs⟩ := List.mem_flatMap.1 hs
      obtain ⟨rest, hrest⟩ := hchild hc hs
      have hlt : t.path r ++ [] < t.path r ++ c :: rest := List.append_left_lt .nil
      rwa [List.append_nil, ← hrest] at hlt
    · refine (ht.children_sorted r).imp_of_mem fun hc hd hlt a ha b hb => ?_
      obtain ⟨_, ha⟩ := hchild hc ha
      obtain ⟨_, hb⟩ := hchild hd hb
      unfold Before
      rw [ha, hb]
      exact List.append_left_lt (.rel hlt)

theorem WellFormed.mem_walkFrom (ht : t.WellFormed) {n r s : Nat} (h : t.Within r s)
    (hn : s < r + n) : s ∈ t.walkFrom n r := by
  induction n generalizing r with
  | zero => exact absurd (ht.le_of_within h) (Nat.not_le_of_gt hn)
  | succ n ih =>
    rcases Relation.ReflTransGen.cases_head h with rfl | ⟨c, hc, hcs⟩
    · exact List.mem_cons_self ..
    · have hlt := ht.parent?_lt hc
      refine List.mem_cons_of_mem _ (List.mem_flatMap.2 ⟨c, ht.mem_children.2 hc, ih hcs ?_⟩)
      omega

theorem Within.lt_length (h : t.Within r s) (hr : r < t.scopes.length) : s < t.scopes.length := by
  cases h with
  | refl => exact hr
  | tail _ hp => exact lt_of_parent? hp

theorem WellFormed.nodup_walkFrom (ht : t.WellFormed) (n : Nat) (r : ScopeId) :
    (t.walkFrom n r).Nodup :=
  (ht.walkFrom_sorted n r).imp fun h => by
    rintro rfl
    exact h.asymm h

/-! ## The loop -/

/-- The loop that takes the first scope from a stack and puts its children there instead, until
nothing is left, visits the scopes in the order given. -/
inductive Visits (t : ScopeTree) : List ScopeId → List ScopeId → Prop where
  | done : Visits t [] []
  | step {s : ScopeId} {stack order : List ScopeId} :
      Visits t (t.children s ++ stack) order → Visits t (s :: stack) (s :: order)

/-- A bound on the number of visits that the loop does not exceed makes no difference. -/
theorem Visits.visit_eq {stack order : List ScopeId} (h : t.Visits stack order)
    (hn : order.length ≤ n) : t.visit n stack = order := by
  induction h generalizing n with
  | done => cases n <;> rfl
  | step _ ih =>
    obtain ⟨n, rfl⟩ : ∃ m, n = m + 1 := ⟨n - 1, by rw [List.length_cons] at hn; omega⟩
    rw [visit, ih (Nat.le_of_succ_le_succ hn)]

/-- With scopes on the stack, what the recursion makes of the first comes first. -/
theorem WellFormed.visits_walkFrom (ht : t.WellFormed) {r : Nat} (hr : r < t.scopes.length)
    (hn : t.scopes.length ≤ r + n) {stack order : List ScopeId} (h : t.Visits stack order) :
    t.Visits (r :: stack) (t.walkFrom n r ++ order) := by
  induction n generalizing r stack order with
  | zero => exact absurd hr (Nat.not_lt_of_le hn)
  | succ n ih =>
    have hchildren : ∀ cs : List ScopeId, (∀ c ∈ cs, t.parent? c = some r) →
        t.Visits (cs ++ stack) (cs.flatMap (t.walkFrom n) ++ order) := by
      intro cs hcs
      induction cs with
      | nil => exact h
      | cons c cs ihcs =>
        obtain ⟨hc, hcs⟩ := List.forall_mem_cons.1 hcs
        have hlt := ht.parent?_lt hc
        rw [List.flatMap_cons, List.append_assoc]
        exact ih (lt_of_parent? hc) (by omega) (ihcs hcs)
    exact .step (hchildren _ fun c hc => ht.mem_children.1 hc)

/-- The loop ends, and the walk is what it visits. -/
theorem WellFormed.visits_walk (ht : t.WellFormed) : t.Visits [root] t.walk := by
  have hvisits := ht.visits_walkFrom (n := t.scopes.length) ht.root_lt (Nat.le_add_left ..) .done
  rw [List.append_nil] at hvisits
  have hlength : (t.walkFrom t.scopes.length root).length ≤ t.scopes.length := by
    have hsub : t.walkFrom t.scopes.length root ⊆ List.range t.scopes.length := fun s hs =>
      List.mem_range.2 ((ht.within_of_mem_walkFrom hs).lt_length ht.root_lt)
    simpa using (List.subperm_of_subset (ht.nodup_walkFrom _ _) hsub).length_le
  rw [walk, hvisits.visit_eq hlength]
  exact hvisits

theorem Visits.unique {stack order order' : List ScopeId} (h : t.Visits stack order)
    (h' : t.Visits stack order') : order = order' := by
  induction h generalizing order' with
  | done => cases h'; rfl
  | step _ ih =>
    cases h' with
    | step h' => rw [ih h']

theorem WellFormed.walk_eq (ht : t.WellFormed) : t.walk = t.walkFrom t.scopes.length root := by
  have hvisits := ht.visits_walkFrom (n := t.scopes.length) ht.root_lt (Nat.le_add_left ..) .done
  rw [List.append_nil] at hvisits
  exact ht.visits_walk.unique hvisits

theorem WellFormed.mem_walk (ht : t.WellFormed) {s : ScopeId} (hs : s < t.scopes.length) :
    s ∈ t.walk :=
  ht.walk_eq ▸ ht.mem_walkFrom (ht.within_root hs) (by simpa [root] using hs)

theorem WellFormed.lt_of_mem_walk (ht : t.WellFormed) (h : s ∈ t.walk) : s < t.scopes.length :=
  (ht.within_of_mem_walkFrom (ht.walk_eq ▸ h)).lt_length ht.root_lt

/-- The walk of a tree is depth first. -/
theorem WellFormed.walk_sorted (ht : t.WellFormed) : t.walk.Pairwise t.Before :=
  ht.walk_eq ▸ ht.walkFrom_sorted _ _

end JayFrontEnd.ScopeTree
