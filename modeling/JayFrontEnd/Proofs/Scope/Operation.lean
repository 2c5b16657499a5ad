import JayFrontEnd.Proofs.Program.RemoteLink
import JayFrontEnd.Proofs.Scope.Order
import Mathlib.Data.List.Nodup

/-!
# Operations on a scope tree

What can be done with a scope tree, one operation at a time: scopes and names are added, uses are
kept, and linking marks them. An operation names scopes by their numbers. As long as these are
numbers of scopes the tree has, it stays well-formed, and no scope comes to have a name twice, be it
as a declaration or as a use. `Consistent` spells out what that means for the tree as a whole.
-/

namespace JayFrontEnd

/-- No name is declared twice, and of each name there is one use. -/
structure Scope.Distinct (x : Scope) : Prop where
  names : (x.symbols.map (·.1)).Nodup
  localRefs : (x.localRefs.map (·.name)).Nodup
  remoteRefs : (x.remoteRefs.map fun r => (r.module, r.name)).Nodup

namespace ScopeTree

inductive Operation where
  | addChild (parent : ScopeId) (name : String) (kind : ScopeKind)
  | define (s : ScopeId) (name : String) (kind : SymbolKind) (position : Nat)
  | addLocalRef (s : ScopeId) (name : String) (position : Nat)
  | addRemoteRef (s : ScopeId) (module name : String) (position : Nat)
  | linkLocal
  | applyRemote (rs : List RemoteResolution)

namespace Operation

/-- The tree after an operation. Linking may fail half-way, and leaves what it has marked. -/
def perform : Operation → ScopeTree → ScopeTree
  | addChild parent name kind, t => (t.addChild parent name kind).2
  | define s name kind position, t =>
    match t.define s name kind position with
    | .ok (_, u) => u
    | .error _ => t
  | addLocalRef s name position, t => t.addLocalRef s name position
  | addRemoteRef s module name position, t => t.addRemoteRef s module name position
  | linkLocal, t => t.linkLocal.2
  | applyRemote rs, t => t.applyRemote rs

def named : Operation → List ScopeId
  | addChild s _ _ | define s _ _ _ | addLocalRef s _ _ | addRemoteRef s _ _ _ => [s]
  | linkLocal => []
  | applyRemote rs => rs.map (·.scope)

/-- All scopes that the operation names are ones of the tree. -/
def Fits (op : Operation) (t : ScopeTree) : Prop := ∀ s ∈ op.named, s < t.scopes.length

instance (op : Operation) (t : ScopeTree) : Decidable (op.Fits t) :=
  inferInstanceAs (Decidable (∀ s ∈ op.named, s < t.scopes.length))

end Operation

variable {t u : ScopeTree} {s p : ScopeId} {f : Scope → Scope}

/-! ## Names and uses stay distinct -/

def Distinct (t : ScopeTree) : Prop := ∀ s x, t.scope? s = some x → x.Distinct

namespace Distinct

theorem ofModule (module : String) : (ScopeTree.ofModule module).Distinct := by
  intro s x hx
  rcases s with _ | s
  · cases hx
    exact ⟨.nil, .nil, .nil⟩
  · cases hx

/-- The step lemma: one scope changes, and does not come to have a name twice. -/
theorem modifyScope (h : t.Distinct)
    (hf : ∀ x, t.scope? s = some x → x.Distinct → (f x).Distinct) :
    (t.modifyScope s f).Distinct := by
  intro r y hy
  rw [scope?_modifyScope] at hy
  split at hy
  · next hs =>
    subst hs
    obtain ⟨x, hx, rfl⟩ := Option.map_eq_some_iff.1 hy
    exact hf x hx (h s x hx)
  · exact h r y hy

theorem addChild (h : t.Distinct) (name : String) (kind : ScopeKind) :
    (t.addChild p name kind).2.Distinct := by
  intro r y hy
  by_cases hr : r = t.scopes.length
  · subst hr
    rw [scope?_addChild_new] at hy
    cases hy
    exact ⟨.nil, .nil, .nil⟩
  · rw [scope?_addChild hr] at hy
    refine modifyScope h ?_ r y hy
    exact fun x _ hx => ⟨hx.names, hx.localRefs, hx.remoteRefs⟩

theorem define (h : t.Distinct) {name : String} {kind : SymbolKind} {position : Nat} {i : SymbolId}
    (hu : t.define s name kind position = .ok (i, u)) : u.Distinct := by
  obtain ⟨hnone, -, rfl⟩ := define_eq_ok hu
  refine h.modifyScope fun x hscope hx => ⟨?_, hx.localRefs, hx.remoteRefs⟩
  have hnew : x.symbols.lookup name = none := by simpa [declared?, hscope] using hnone
  have hfresh : ∀ y ∈ x.symbols, y.1 ≠ name := by
    intro y hy hname
    have := List.lookup_eq_none_iff.1 hnew y hy
    simp [hname] at this
  rw [List.map_append, List.nodup_append]
  refine ⟨hx.names, List.nodup_singleton _, fun n hn m hm => ?_⟩
  obtain ⟨y, hy, rfl⟩ := List.mem_map.1 hn
  rw [List.mem_singleton.1 hm]
  exact hfresh y hy

theorem addLocalRef (h : t.Distinct) (name : String) (position : Nat) :
    (t.addLocalRef s name position).Distinct := by
  unfold ScopeTree.addLocalRef
  split
  · exact h
  · next hany =>
    refine h.modifyScope fun x hscope hx => ⟨hx.names, ?_, hx.remoteRefs⟩
    have hfresh : ∀ r ∈ x.localRefs, r.name ≠ name := by
      simpa [ScopeTree.localRefs, hscope] using hany
    simpa [List.nodup_append, hx.localRefs] using hfresh

theorem addRemoteRef (h : t.Distinct) (module name : String) (position : Nat) :
    (t.addRemoteRef s module name position).Distinct := by
  unfold ScopeTree.addRemoteRef
  split
  · exact h
  · next hany =>
    refine h.modifyScope fun x hscope hx => ⟨hx.names, hx.localRefs, ?_⟩
    have hfresh : ∀ r ∈ x.remoteRefs, r.module = module → r.name ≠ name := by
      simpa [ScopeTree.remoteRefs, hscope] using hany
    simpa [List.nodup_append, hx.remoteRefs] using hfresh

/-- A status tells nothing of the name it is for. -/
theorem setLocalStatus (h : t.Distinct) (i : Nat) (status : RefStatus) :
    (t.setLocalStatus s i status).Distinct := by
  refine h.modifyScope fun x _ hx => ⟨hx.names, ?_, hx.remoteRefs⟩
  have hnames := map_modify (g := LocalRef.name) (f := ({ · with status })) (fun _ => rfl)
    x.localRefs i
  exact hnames ▸ hx.localRefs

theorem setRemoteStatus (h : t.Distinct) (r : RemoteResolution) :
    (t.setRemoteStatus r).Distinct := by
  refine h.modifyScope fun x _ hx => ⟨hx.names, hx.localRefs, ?_⟩
  have hnames := map_modify (g := fun u : RemoteRef => (u.module, u.name))
    (f := ({ · with status := r.status })) (fun _ => rfl) x.remoteRefs r.index
  exact hnames ▸ hx.remoteRefs

theorem setKind (h : t.Distinct) (i : SymbolId) (kind : SymbolKind) :
    (t.setKind i kind).Distinct := h

end Distinct

/-! ## Operations -/

theorem SameDeclarations.linkLocal (t : ScopeTree) : SameDeclarations t t.linkLocal.2 :=
  UseKind.locals.sameDeclarations_of_unmarked t.unmarked_linkLocal.symm

theorem Distinct.linkLocal (h : t.Distinct) : t.linkLocal.2.Distinct := by
  rw [linkLocal_snd]
  exact List.foldlRecOn _ _ h fun _ hu m _ => hu.setLocalStatus m.2.1 m.2.2

theorem Distinct.applyRemote (h : t.Distinct) (rs : List RemoteResolution) :
    (t.applyRemote rs).Distinct :=
  List.foldlRecOn _ _ h fun _ hu r _ => hu.setRemoteStatus r

/-- Well-formed, and without a name twice in a scope. -/
structure Sound (t : ScopeTree) : Prop where
  wellFormed : t.WellFormed
  distinct : t.Distinct

theorem Sound.ofModule (module : String) : (ScopeTree.ofModule module).Sound :=
  ⟨.ofModule module, .ofModule module⟩

theorem Sound.setLocalStatus (h : t.Sound) (i : Nat) (status : RefStatus) :
    (t.setLocalStatus s i status).Sound :=
  ⟨h.wellFormed.of_sameDeclarations (.setLocalStatus ..), h.distinct.setLocalStatus i status⟩

/-- The step lemma. -/
theorem Sound.perform (h : t.Sound) {op : Operation} (hop : op.Fits t) : (op.perform t).Sound := by
  cases op with
  | addChild p name kind =>
    exact ⟨h.wellFormed.addChild (hop p (List.mem_singleton_self p)) name kind,
      h.distinct.addChild name kind⟩
  | define s name kind position =>
    simp only [Operation.perform]
    split
    · next hu =>
      exact ⟨h.wellFormed.define (hop s (List.mem_singleton_self s)) hu, h.distinct.define hu⟩
    · exact h
  | addLocalRef s name position =>
    exact ⟨h.wellFormed.of_sameDeclarations (.addLocalRef ..),
      h.distinct.addLocalRef name position⟩
  | addRemoteRef s module name position =>
    exact ⟨h.wellFormed.of_sameDeclarations (.addRemoteRef ..),
      h.distinct.addRemoteRef module name position⟩
  | linkLocal => exact ⟨h.wellFormed.of_sameDeclarations (.linkLocal t), h.distinct.linkLocal⟩
  | applyRemote rs =>
    exact ⟨h.wellFormed.of_sameDeclarations (.applyRemote t rs), h.distinct.applyRemote rs⟩

theorem length_le_perform (op : Operation) (t : ScopeTree) :
    t.scopes.length ≤ (op.perform t).scopes.length := by
  cases op with
  | addChild p name kind =>
    show _ ≤ (t.addChild p name kind).2.scopes.length
    rw [length_addChild]
    omega
  | define s name kind position =>
    simp only [Operation.perform]
    split
    · next hu => exact Nat.le_of_eq (length_of_define hu).symm
    · exact Nat.le_refl _
  | addLocalRef s name position =>
    exact Nat.le_of_eq (SameDeclarations.addLocalRef ..).length.symm
  | addRemoteRef s module name position =>
    exact Nat.le_of_eq (SameDeclarations.addRemoteRef ..).length.symm
  | linkLocal => exact Nat.le_of_eq (SameDeclarations.linkLocal t).length.symm
  | applyRemote rs => exact Nat.le_of_eq (SameDeclarations.applyRemote t rs).length.symm

/-- The trees there can be: those that come about by operations on scopes they have, by changes of
symbols, and by marks of any kind. -/
inductive Built : ScopeTree → Prop where
  | ofModule (module : String) : Built (.ofModule module)
  | perform {t : ScopeTree} (op : Operation) : Built t → op.Fits t → Built (op.perform t)
  | setKind {t : ScopeTree} (i : SymbolId) (kind : SymbolKind) : Built t → Built (t.setKind i kind)
  | setLocalStatus {t : ScopeTree} (s : ScopeId) (i : Nat) (status : RefStatus) : Built t →
      Built (t.setLocalStatus s i status)

/-- The run lemma. -/
theorem Built.sound (h : t.Built) : t.Sound := by
  induction h with
  | ofModule module => exact .ofModule module
  | perform op _ hop ih => exact ih.perform hop
  | setKind i kind _ ih => exact ⟨ih.wellFormed.setKind i kind, ih.distinct.setKind i kind⟩
  | setLocalStatus s i status _ ih => exact ih.setLocalStatus i status

theorem Built.wellFormed (h : t.Built) : t.WellFormed := h.sound.wellFormed

theorem Built.define (h : t.Built) (hs : s < t.scopes.length) {name : String} {kind : SymbolKind}
    {position : Nat} {i : SymbolId} (hu : t.define s name kind position = .ok (i, u)) :
    u.Built := by
  have hperform : (Operation.define s name kind position).perform t = u := by
    simp only [Operation.perform, hu]
  have hfits : (Operation.define s name kind position).Fits t := fun r hr =>
    List.mem_singleton.1 hr ▸ hs
  exact hperform ▸ h.perform _ hfits

theorem Built.linkLocal (h : t.Built) : t.linkLocal.2.Built :=
  h.perform .linkLocal fun _ hs => absurd hs List.not_mem_nil

/-! ## The tree as a whole -/

/-- How the scopes, their children and names, and the symbols of a tree fit together. -/
structure Consistent (t : ScopeTree) : Prop where
  /-- Scope zero, and no other, has no parent. -/
  parentless_iff : ∀ s, s < t.scopes.length ∧ t.parent? s = none ↔ s = root
  /-- Every other scope comes after its parent, which lists it once; no other scope lists it. -/
  listed_once : ∀ s, s < t.scopes.length → s ≠ root → ∃ p : Nat, t.parent? s = some p ∧ p < s ∧
    (t.children p).count s = 1 ∧ ∀ q, s ∈ t.children q → q = p
  children_sorted : ∀ p, (t.children p).Pairwise (· < ·)
  lt_of_child : ∀ p s, s ∈ t.children p → s < t.scopes.length
  declared?_iff : ∀ s name i, t.declared? s name = some i ↔
    ∃ y, t.symbol? i = some y ∧ y.name = name ∧ y.scope = s
  declared_once : ∀ i, i < t.symbols.length →
    ∃! s, s < t.scopes.length ∧ ∃ name, t.declared? s name = some i
  distinct : ∀ s x, t.scope? s = some x → x.Distinct

theorem Sound.consistent (h : t.Sound) : t.Consistent where
  parentless_iff s := by
    constructor
    · rintro ⟨hs, hp⟩
      by_cases hr : s = root
      · exact hr
      · obtain ⟨p, hq⟩ := h.wellFormed.exists_parent hr hs
        rw [hp] at hq
        cases hq
    · rintro rfl
      exact ⟨h.wellFormed.root_lt, h.wellFormed.parent?_root⟩
  listed_once s hs hr := by
    obtain ⟨p, hp⟩ := h.wellFormed.exists_parent hr hs
    have hnodup : (t.children p).Nodup := (h.wellFormed.children_sorted p).imp Nat.ne_of_lt
    refine ⟨p, hp, h.wellFormed.parent?_lt hp,
      List.count_eq_one_of_mem hnodup (h.wellFormed.mem_children.2 hp), fun q hq => ?_⟩
    exact Option.some.inj ((h.wellFormed.mem_children.1 hq).symm.trans hp)
  children_sorted := h.wellFormed.children_sorted
  lt_of_child p s hs := lt_of_parent? (h.wellFormed.mem_children.1 hs)
  declared?_iff s name i := h.wellFormed.declared?_iff
  declared_once i hi := by
    have hy : t.symbol? i = some t.symbols[i] := List.getElem?_eq_getElem hi
    have hd : t.declared? t.symbols[i].scope t.symbols[i].name = some i :=
      h.wellFormed.declared?_iff.2 ⟨_, hy, rfl, rfl⟩
    refine ⟨t.symbols[i].scope, ⟨?_, _, hd⟩, ?_⟩
    · obtain ⟨x, hx, -⟩ := Option.bind_eq_some_iff.1 hd
      exact lt_of_scope? hx
    · rintro s ⟨-, name, hs⟩
      obtain ⟨z, hz, -, rfl⟩ := h.wellFormed.declared?_iff.1 hs
      rw [Option.some.inj (hy.symm.trans hz)]
  distinct := h.distinct

end ScopeTree

end JayFrontEnd
