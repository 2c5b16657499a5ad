import JayFrontEnd.Proofs.Scope.LocalLink
import JayFrontEnd.Proofs.Scope.Order
import Mathlib.Logic.Equiv.Basic

/-!
# Scopes under other numbers

`Renumbers σ t u` says that `u` has the scopes of `t` under the numbers that `σ` gives them: a scope
lies in the same scope, declares the same names and uses the same names. The way from a scope to the
root is then the same, and so is what linking finds on it.
-/

namespace JayFrontEnd.ScopeTree

/-- Under the new numbers a scope has the same parent, declared names and used names. -/
structure Renumbers (σ : Equiv.Perm ScopeId) (t u : ScopeTree) : Prop where
  parent? : ∀ s, u.parent? (σ s) = (t.parent? s).map σ
  declared? : ∀ s name, (u.declared? (σ s) name).isSome = (t.declared? s name).isSome
  uses : ∀ s name, name ∈ (u.localRefs (σ s)).map LocalRef.name ↔
    name ∈ (t.localRefs s).map LocalRef.name

/-- Under the new numbers each scope uses the same names, and they are resolved to the same
scopes. -/
structure ResolvesAlike (σ : Equiv.Perm ScopeId) (t u : ScopeTree) : Prop where
  uses : ∀ s name, name ∈ (u.localRefs (σ s)).map LocalRef.name ↔
    name ∈ (t.localRefs s).map LocalRef.name
  resolved : ∀ s, ∀ r ∈ t.localRefs s, ∃ d, r.status = .resolved d ∧
    ∀ q ∈ u.localRefs (σ s), q.name = r.name → q.status = .resolved (σ d)

variable {σ : Equiv.Perm ScopeId} {t u v w : ScopeTree} {s d : ScopeId} {name : String}

theorem LocallyLinked.names_eq (h : LocallyLinked t u) (s : ScopeId) :
    (u.localRefs s).map LocalRef.name = (t.localRefs s).map LocalRef.name := by
  have hfst := congrArg (List.map Prod.fst) (h.uses s)
  rwa [List.map_map, List.map_map] at hfst

namespace Renumbers

theorem symm (h : Renumbers σ t u) : Renumbers σ.symm u t where
  parent? s := by
    have hp := h.parent? (σ.symm s)
    rw [σ.apply_symm_apply] at hp
    rw [hp, Option.map_map]
    simp
  declared? s name := by
    have hd := h.declared? (σ.symm s) name
    rw [σ.apply_symm_apply] at hd
    exact hd.symm
  uses s name := by
    have hu := h.uses (σ.symm s) name
    rw [σ.apply_symm_apply] at hu
    exact hu.symm

theorem binds (h : Renumbers σ t u) (hb : t.Binds name s d) : u.Binds name (σ s) (σ d) := by
  induction hb with
  | @here s i hi =>
    have hsome : (u.declared? (σ s) name).isSome = true := by rw [h.declared?, hi]; rfl
    obtain ⟨j, hj⟩ := Option.isSome_iff_exists.1 hsome
    exact .here hj
  | @outer s p d hn hp _ ih =>
    refine .outer ?_ (by rw [h.parent?, hp]; rfl) ih
    rw [← Option.not_isSome_iff_eq_none, h.declared?, hn]
    exact Bool.false_ne_true

/-- If all names are bound in one of the trees, they are in the other. -/
theorem forall_bound (h : Renumbers σ t u) (ht : ∀ s, ∀ r ∈ t.localRefs s, ¬ t.Unbound s r) :
    ∀ s, ∀ r ∈ u.localRefs s, ¬ u.Unbound s r := by
  intro s r hr hunbound
  have hs := h.uses (σ.symm s) r.name
  rw [σ.apply_symm_apply] at hs
  obtain ⟨x, hx, hname⟩ := List.mem_map.1 (hs.1 (List.mem_map_of_mem hr))
  refine ht _ x hx fun ⟨d, hd⟩ => hunbound ⟨σ d, ?_⟩
  simpa only [hname, σ.apply_symm_apply] using h.binds hd

/-- Linking succeeds on both trees or on neither. -/
theorem linkLocal_ok (h : Renumbers σ t u) (ht : t.WellFormed) (hu : u.WellFormed)
    (hok : ∃ v, t.linkLocal = (.ok (), v)) : ∃ w, u.linkLocal = (.ok (), w) := by
  obtain ⟨v, hv⟩ := hok
  rcases ht.linkLocal_cases with ⟨-, hall⟩ | ⟨_, _, _, _, -, herror⟩
  · rcases hu.linkLocal_cases with ⟨hok, -⟩ | ⟨_, s, i, x, hfirst, -⟩
    · exact hok
    · exact absurd hfirst.is_wrong (h.forall_bound hall s x (List.mem_of_getElem? hfirst.use))
  · cases hv.symm.trans herror

/-- When it does, names are resolved to the same scopes. -/
theorem resolvesAlike (h : Renumbers σ t u) (hv : LocallyLinked t v) (hw : LocallyLinked u w) :
    ResolvesAlike σ v w where
  uses s name := by rw [hv.names_eq, hw.names_eq, h.uses]
  resolved s r hr := by
    obtain ⟨d, hd, hbinds⟩ := hv.resolved hr
    refine ⟨d, hd, fun q hq hname => ?_⟩
    obtain ⟨e, he, hbinds'⟩ := hw.resolved hq
    have hhere := h.binds (hbinds.of_sameDeclarations hv.declarations.symm)
    rw [hname] at hbinds'
    rw [he, hbinds'.unique (hhere.of_sameDeclarations hw.declarations)]

end Renumbers

end JayFrontEnd.ScopeTree
