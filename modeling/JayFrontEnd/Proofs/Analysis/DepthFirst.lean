import JayFrontEnd.Proofs.Analysis.Follow
import JayFrontEnd.Proofs.Scope.Order
import Mathlib.Data.List.Sort

/-!
# Scopes are made depth first

An analyzer makes a scope inside the current one, and the scope made last lies in the current one.
So a new scope is made in one of the scopes around the last, which is how a depth-first walk goes
on: it visits the scopes of an analysis by number.
-/

namespace JayFrontEnd

namespace ScopeTree

variable {t u : ScopeTree} {p r s : ScopeId}

/-- Each scope is made in one of the scopes around the one made before. -/
structure DepthFirst (t : ScopeTree) : Prop where
  within : ∀ {s p : Nat}, t.parent? s = some p → t.Within p (s - 1)

theorem Within.of_parent?_eq (h : t.Within p s) (hu : ∀ r, u.parent? r = t.parent? r) :
    u.Within p s := by
  induction h with
  | refl => exact .refl
  | tail _ hp ih => exact .tail ih ((hu _).trans hp)

theorem DepthFirst.of_parent?_eq (h : t.DepthFirst) (hu : ∀ r, u.parent? r = t.parent? r) :
    u.DepthFirst :=
  ⟨fun hp => (h.within ((hu _).symm.trans hp)).of_parent?_eq hu⟩

theorem DepthFirst.ofModule (module : String) : (ScopeTree.ofModule module).DepthFirst where
  within hp := by
    rw [WellFormed.parent?_ofModule] at hp
    cases hp

theorem DepthFirst.addChild (h : t.DepthFirst) (hs : t.Within s (t.scopes.length - 1))
    (name : String) (kind : ScopeKind) : (t.addChild s name kind).2.DepthFirst where
  within hp := by
    rw [parent?_addChild] at hp
    split at hp
    · next hr =>
      cases hp
      exact hr ▸ (Grows.addChild s kind).within hs
    · exact (Grows.addChild s kind).within (h.within hp)

/-! ## Walks -/

theorem DepthFirst.before_succ (h : t.DepthFirst) (ht : t.WellFormed) {s : Nat}
    (hs : s + 1 < t.scopes.length) : t.Before s (s + 1) := by
  obtain ⟨p, hp⟩ := ht.exists_parent (Nat.succ_ne_zero s) hs
  obtain ⟨rest, hpath, hrest⟩ := ht.path_of_within (h.within hp)
  rw [Nat.succ_sub_one] at hpath hrest
  unfold Before
  rw [ht.path_of_parent? hp, hpath]
  refine List.append_left_lt ?_
  cases rest with
  | nil => exact .nil
  | cons r rest => exact .rel (Nat.lt_succ_of_le (hrest r (List.mem_cons_self ..)))

theorem DepthFirst.before (h : t.DepthFirst) (ht : t.WellFormed) {r s : Nat} (hrs : r < s)
    (hs : s < t.scopes.length) : t.Before r s := by
  induction s with
  | zero => cases hrs
  | succ s ih =>
    have hlast := h.before_succ ht hs
    rcases Nat.lt_succ_iff_lt_or_eq.1 hrs with hlt | rfl
    · exact List.lt_trans (ih hlt (Nat.lt_of_succ_lt hs)) hlast
    · exact hlast

theorem DepthFirst.walk_eq (h : t.DepthFirst) (ht : t.WellFormed) :
    t.walk = List.range t.scopes.length := by
  have hlt : ∀ s ∈ t.walk, s < t.scopes.length := fun s hs => ht.lt_of_mem_walk hs
  have hsorted : t.walk.Pairwise (· < ·) := by
    refine ht.walk_sorted.imp_of_mem fun {a b} ha hb hab => ?_
    refine Nat.lt_of_not_le fun hba => ?_
    rcases Nat.lt_or_eq_of_le hba with hba | rfl
    · exact hab.asymm (h.before ht hba (hlt a ha))
    · exact hab.asymm hab
  refine List.Pairwise.eq_of_mem_iff hsorted List.pairwise_lt_range fun s => ?_
  rw [List.mem_range]
  exact ⟨hlt s, ht.mem_walk⟩

end ScopeTree

namespace Analyzer

variable {a b : Analyzer}

/-- The scopes are made depth first, and the last one lies in the current one. -/
structure DepthFirst (a : Analyzer) : Prop where
  scopes : a.scopes.DepthFirst
  last : a.scopes.Within a.current (a.scopes.scopes.length - 1)

theorem DepthFirst.stay (h : a.DepthFirst) (hp : ∀ r, b.scopes.parent? r = a.scopes.parent? r)
    (hlength : b.scopes.scopes.length = a.scopes.scopes.length) (hc : b.current = a.current) :
    b.DepthFirst where
  scopes := h.scopes.of_parent?_eq hp
  last := by
    rw [hlength, hc]
    exact h.last.of_parent?_eq hp

/-- The step lemma. -/
theorem DepthFirst.step (h : a.DepthFirst) {e : Event} (hb : a.step e = .ok b) : b.DepthFirst := by
  cases e with
  | enter name kind =>
    cases hb
    refine ⟨h.scopes.addChild h.last name kind, ?_⟩
    show ScopeTree.Within _ a.scopes.scopes.length _
    rw [show (a.enterScope name kind).scopes.scopes.length = a.scopes.scopes.length + 1 from
      ScopeTree.length_addChild]
    exact .refl
  | leave =>
    cases hb
    unfold Analyzer.exitScope
    split
    · next p hp => exact ⟨h.scopes, .head hp h.last⟩
    · exact h
  | declare n kind =>
    obtain ⟨i, scopes, hdefine, rfl⟩ := register_eq_ok hb
    exact h.stay (fun _ => ScopeTree.parent?_of_define hdefine)
      (ScopeTree.length_of_define hdefine) rfl
  | use n =>
    cases hb
    have hsame := ScopeTree.SameDeclarations.addLocalRef (t := a.scopes) (s := a.current) n.textD
      n.position
    exact h.stay hsame.parent? hsame.length rfl
  | useRemote m n =>
    cases hb
    have hsame := ScopeTree.SameDeclarations.addRemoteRef (t := a.scopes) (s := a.current) m.textD
      n.textD n.position
    exact h.stay hsame.parent? hsame.length rfl
  | assign n value =>
    obtain rfl | ⟨t, i, y, -, -, -, rfl⟩ := assign_eq_ok hb
    · exact h
    · exact h.stay (fun _ => rfl) rfl rfl
  | refuse fault => cases hb

/-- The run lemma. -/
theorem DepthFirst.follow (h : a.DepthFirst) {es : List Event} (hb : a.follow es = .ok b) :
    b.DepthFirst := by
  induction es generalizing a with
  | nil => cases hb; exact h
  | cons e es ih =>
    obtain ⟨c, hc, hb⟩ := follow_cons_eq_ok hb
    exact ih (h.step hc) hb

theorem DepthFirst.ofModule (module : String) (source : Source) :
    (Analyzer.ofModule module source).DepthFirst := ⟨.ofModule module, .refl⟩

end Analyzer

end JayFrontEnd
