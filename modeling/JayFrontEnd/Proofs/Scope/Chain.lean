import JayFrontEnd.Proofs.Scope.WellFormed
import Mathlib.Data.List.Basic
import Mathlib.Logic.Relation

/-!
# From a scope to the root

`Binds t name s d` says that `d` is the first scope on the way from `s` to the root that declares
`name`. In a well-formed tree this is what `declaring?` finds, `lookup?` finds the symbol that `d`
has for the name, and every scope lies in the root.
-/

namespace JayFrontEnd.ScopeTree

/-- Scope `s` lies in scope `r`, or is `r`. -/
def Within (t : ScopeTree) : ScopeId → ScopeId → Prop :=
  Relation.ReflTransGen fun p s => t.parent? s = some p

theorem Within.of_sameDeclarations {t u : ScopeTree} {r s : ScopeId} (h : t.Within r s)
    (hu : SameDeclarations t u) : u.Within r s := by
  induction h with
  | refl => exact .refl
  | tail _ hp ih => exact .tail ih ((hu.parent? _).trans hp)

/-- Seen from scope `s`, the nearest scope that declares the name is `d`. -/
inductive Binds (t : ScopeTree) (name : String) : ScopeId → ScopeId → Prop where
  | here {s : ScopeId} {i : SymbolId} : t.declared? s name = some i → Binds t name s s
  | outer {s p d : ScopeId} : t.declared? s name = none → t.parent? s = some p →
      Binds t name p d → Binds t name s d

namespace Binds

variable {t u : ScopeTree} {name : String} {s d e : ScopeId}

theorem declares (h : t.Binds name s d) : ∃ i, t.declared? d name = some i := by
  induction h with
  | here hi => exact ⟨_, hi⟩
  | outer _ _ _ ih => exact ih

theorem unique (h : t.Binds name s d) (h' : t.Binds name s e) : d = e := by
  induction h with
  | here hi =>
    cases h' with
    | here _ => rfl
    | outer hn _ _ => rw [hn] at hi; cases hi
  | outer hn hp _ ih =>
    cases h' with
    | here hi => rw [hn] at hi; cases hi
    | outer _ hq hb => rw [hp] at hq; cases hq; exact ih hb

theorem of_sameDeclarations (hu : SameDeclarations t u) (h : t.Binds name s d) :
    u.Binds name s d := by
  induction h with
  | here hi => exact .here ((hu.declared? _ _).trans hi)
  | outer hn hp _ ih => exact .outer ((hu.declared? _ _).trans hn) ((hu.parent? _).trans hp) ih

theorem within (h : t.Binds name s d) : t.Within d s := by
  induction h with
  | here _ => exact .refl
  | outer _ hp _ ih => exact .tail ih hp

end Binds

variable {t : ScopeTree}

theorem WellFormed.chain_eq (ht : t.WellFormed) {m n s : Nat} (hm : s ≤ m) (hn : s ≤ n) :
    t.chain m s = t.chain n s := by
  induction m generalizing n s with
  | zero =>
    obtain rfl : s = root := Nat.le_zero.1 hm
    cases n with
    | zero => rfl
    | succ n => simp only [chain, ht.parent?_root]
  | succ m ih =>
    cases n with
    | zero =>
      obtain rfl : s = root := Nat.le_zero.1 hn
      simp only [chain, ht.parent?_root]
    | succ n =>
      simp only [chain]
      cases hp : t.parent? s with
      | none => rfl
      | some p =>
        have hlt := ht.parent?_lt hp
        simp only
        rw [ih (n := n) (by omega) (by omega)]

theorem WellFormed.ancestors_of_parent? (ht : t.WellFormed) {s p : Nat}
    (hp : t.parent? s = some p) : t.ancestors s = s :: t.ancestors p := by
  have hlt := ht.parent?_lt hp
  obtain ⟨n, rfl⟩ : ∃ n, s = n + 1 := ⟨s - 1, by omega⟩
  simp only [ancestors, chain, hp]
  rw [ht.chain_eq (by omega) (Nat.le_refl p)]

theorem ancestors_of_no_parent {s : ScopeId} (hp : t.parent? s = none) : t.ancestors s = [s] := by
  cases s with
  | zero => rfl
  | succ s => simp only [ancestors, chain, hp]

/-- What is true of a scope without a parent, and of a scope if it is true of its parent, is true of
all scopes. -/
theorem WellFormed.parent_induction (ht : t.WellFormed) {P : ScopeId → Prop}
    (top : ∀ s, t.parent? s = none → P s) (inner : ∀ s p, t.parent? s = some p → P p → P s)
    (s : ScopeId) : P s := by
  induction s using Nat.strongRecOn with
  | ind s ih =>
    cases hp : t.parent? s with
    | none => exact top s hp
    | some p => exact inner s p hp (ih p (ht.parent?_lt hp))

theorem WellFormed.declaring?_eq_some_iff (ht : t.WellFormed) {s d : ScopeId} {name : String} :
    t.declaring? s name = some d ↔ t.Binds name s d := by
  induction s using ht.parent_induction with
  | top s hp =>
    rw [declaring?, ancestors_of_no_parent hp]
    cases hi : t.declared? s name with
    | none =>
      simp only [List.find?_singleton, hi, Option.isSome_none]
      refine ⟨fun h => by simp at h, fun h => ?_⟩
      cases h with
      | here hj => rw [hi] at hj; cases hj
      | outer _ hq _ => rw [hp] at hq; cases hq
    | some i =>
      simp only [List.find?_singleton, hi, Option.isSome_some]
      refine ⟨fun h => ?_, fun h => ?_⟩
      · obtain rfl : s = d := by simpa using h
        exact .here hi
      · simpa using h.unique (.here hi) |>.symm
  | inner s p hp ih =>
    rw [declaring?, ht.ancestors_of_parent? hp, List.find?_cons]
    cases hi : t.declared? s name with
    | none =>
      simp only [Option.isSome_none]
      refine ih.trans ⟨fun h => .outer hi hp h, fun h => ?_⟩
      cases h with
      | here hj => rw [hi] at hj; cases hj
      | outer _ hq hb => rw [hp] at hq; cases hq; exact hb
    | some i =>
      simp only [Option.isSome_some, Option.some.injEq]
      exact ⟨fun h => h ▸ .here hi, fun h => h.unique (.here hi) |>.symm⟩

/-- The nearest symbol of a name is the one of the nearest scope that declares it. -/
theorem lookup?_eq_bind (t : ScopeTree) (s : ScopeId) (name : String) :
    t.lookup? s name = (t.declaring? s name).bind (t.declared? · name) := by
  unfold lookup? declaring?
  induction t.ancestors s with
  | nil => rfl
  | cons a as ih =>
    rw [List.findSome?_cons, List.find?_cons]
    cases hi : t.declared? a name with
    | none => simpa using ih
    | some i => simp [hi]

theorem WellFormed.lookup?_eq_some_iff (ht : t.WellFormed) {s : ScopeId} {name : String}
    {i : SymbolId} :
    t.lookup? s name = some i ↔ ∃ d, t.Binds name s d ∧ t.declared? d name = some i := by
  simp only [lookup?_eq_bind, Option.bind_eq_some_iff, ht.declaring?_eq_some_iff]

theorem SameDeclarations.chain {t u : ScopeTree} (h : SameDeclarations t u) (n : Nat)
    (s : ScopeId) : u.chain n s = t.chain n s := by
  induction n generalizing s with
  | zero => rfl
  | succ n ih => simp only [ScopeTree.chain, h.parent?, ih]

theorem SameDeclarations.lookup? {t u : ScopeTree} (h : SameDeclarations t u) (s : ScopeId)
    (name : String) : u.lookup? s name = t.lookup? s name := by
  simp only [ScopeTree.lookup?, ancestors, h.chain, h.declared?]

theorem SameDeclarations.declaring? {t u : ScopeTree} (h : SameDeclarations t u) (s : ScopeId)
    (name : String) : u.declaring? s name = t.declaring? s name := by
  simp only [ScopeTree.declaring?, ancestors, h.chain, h.declared?]

theorem SameDeclarations.walk {t u : ScopeTree} (h : SameDeclarations t u) : u.walk = t.walk := by
  have hvisit : ∀ n stack, u.visit n stack = t.visit n stack := by
    intro n
    induction n with
    | zero => exact fun _ => rfl
    | succ n ih =>
      intro stack
      cases stack with
      | nil => rfl
      | cons s stack => rw [visit, visit, h.children, ih]
  rw [ScopeTree.walk, hvisit, h.length, ScopeTree.walk]

/-! ## Scopes inside one another -/

theorem WellFormed.le_of_within (ht : t.WellFormed) {r s : ScopeId} (h : t.Within r s) : r ≤ s := by
  induction h with
  | refl => exact Nat.le_refl _
  | tail _ hp ih => exact Nat.le_trans ih (Nat.le_of_lt (ht.parent?_lt hp))

theorem WellFormed.within_root (ht : t.WellFormed) {s : ScopeId} (hs : s < t.scopes.length) :
    t.Within root s := by
  induction s using ht.parent_induction with
  | top s hp =>
    by_cases hr : s = root
    · subst hr; exact .refl
    · obtain ⟨p, hq⟩ := ht.exists_parent hr hs
      rw [hp] at hq; cases hq
  | inner s p hp ih => exact .tail (ih (Nat.lt_trans (ht.parent?_lt hp) hs)) hp

end JayFrontEnd.ScopeTree
