import JayFrontEnd.Scope.LocalLink
import JayFrontEnd.Program.RemoteLink

/-!
# What the operations on a scope tree change

A scope tree is read through six views: the number of scopes, `parent?`, `children`, `declared?`,
`localRefs` and `remoteRefs`, and through its symbols. The lemmas here say what each operation does
to each view. `SameDeclarations` relates trees that differ in uses and their statuses alone, as they
do before and after linking.
-/

namespace JayFrontEnd.ScopeTree

variable {t u : ScopeTree} {s r p : ScopeId} {f : Scope → Scope}

theorem scope?_eq_none (h : t.scopes.length ≤ s) : t.scope? s = none :=
  List.getElem?_eq_none h

theorem scope?_isSome : (t.scope? s).isSome ↔ s < t.scopes.length := by
  simp [scope?]

theorem lt_of_scope? {x : Scope} (h : t.scope? s = some x) : s < t.scopes.length :=
  scope?_isSome.1 (by rw [h]; rfl)

theorem lt_of_parent? (h : t.parent? s = some p) : s < t.scopes.length := by
  obtain ⟨x, hx, -⟩ := Option.bind_eq_some_iff.1 h
  exact lt_of_scope? hx

theorem lt_of_mem_localRefs {x : LocalRef} (h : x ∈ t.localRefs s) : s < t.scopes.length := by
  rcases Nat.lt_or_ge s t.scopes.length with hs | hs
  · exact hs
  · simp [localRefs, scope?_eq_none hs] at h

theorem lt_of_mem_remoteRefs {x : RemoteRef} (h : x ∈ t.remoteRefs s) : s < t.scopes.length := by
  rcases Nat.lt_or_ge s t.scopes.length with hs | hs
  · exact hs
  · simp [remoteRefs, scope?_eq_none hs] at h

/-! ## Changing one scope -/

theorem map_modify {α β : Type} {g : α → β} {f : α → α} (hf : ∀ x, g (f x) = g x) (xs : List α)
    (i : Nat) : (xs.modify i f).map g = xs.map g := by
  refine List.ext_getElem? fun j => ?_
  rw [List.getElem?_map, List.getElem?_map, List.getElem?_modify]
  cases xs[j]? with
  | none => rfl
  | some x => split <;> simp [hf]

/-- What is changed before or after a map that the changes go through. -/
theorem map_modify_comm {α β : Type} {e : α → β} {f : α → α} {g : β → β}
    (h : ∀ x, e (f x) = g (e x)) (xs : List α) (i : Nat) :
    (xs.modify i f).map e = (xs.map e).modify i g := by
  refine List.ext_getElem? fun j => ?_
  simp only [List.getElem?_map, List.getElem?_modify]
  split <;> cases xs[j]? <;> simp [h]

@[simp] theorem length_modifyScope : (t.modifyScope s f).scopes.length = t.scopes.length := by
  simp [modifyScope]

theorem scope?_modifyScope :
    (t.modifyScope s f).scope? r = if s = r then (t.scope? r).map f else t.scope? r := by
  simp only [scope?, modifyScope, List.getElem?_modify]
  split <;> simp

/-- What is read of one scope stays the same if the change keeps it. -/
theorem read_modifyScope {β : Type} {v : Option Scope → β}
    (hv : ∀ x, v (some (f x)) = v (some x)) :
    v ((t.modifyScope s f).scope? r) = v (t.scope? r) := by
  rw [scope?_modifyScope]
  split
  · cases t.scope? r with
    | none => rfl
    | some x => exact hv x
  · rfl

theorem parent?_modifyScope (hf : ∀ x, (f x).parent = x.parent) :
    (t.modifyScope s f).parent? r = t.parent? r :=
  read_modifyScope (v := fun o : Option Scope => o.bind (·.parent)) hf

theorem children_modifyScope (hf : ∀ x, (f x).children = x.children) :
    (t.modifyScope s f).children r = t.children r :=
  read_modifyScope (v := fun o : Option Scope => (o.map Scope.children).getD []) hf

theorem declared?_modifyScope {name : String} (hf : ∀ x, (f x).symbols = x.symbols) :
    (t.modifyScope s f).declared? r name = t.declared? r name :=
  read_modifyScope (v := fun o : Option Scope => o.bind (·.symbols.lookup name))
    fun x => congrArg (List.lookup name) (hf x)

theorem localRefs_modifyScope (hf : ∀ x, (f x).localRefs = x.localRefs) :
    (t.modifyScope s f).localRefs r = t.localRefs r :=
  read_modifyScope (v := fun o : Option Scope => (o.map Scope.localRefs).getD []) hf

theorem remoteRefs_modifyScope (hf : ∀ x, (f x).remoteRefs = x.remoteRefs) :
    (t.modifyScope s f).remoteRefs r = t.remoteRefs r :=
  read_modifyScope (v := fun o : Option Scope => (o.map Scope.remoteRefs).getD []) hf

/-- The uses of a scope after a change to the uses of one scope. -/
theorem localRefs_modifyScope_uses {g : List LocalRef → List LocalRef}
    (hg : t.scopes.length ≤ s → g [] = []) :
    (t.modifyScope s fun x => { x with localRefs := g x.localRefs }).localRefs r =
      if s = r then g (t.localRefs r) else t.localRefs r := by
  unfold localRefs
  rw [scope?_modifyScope]
  split
  · next hs =>
    subst hs
    cases hx : t.scope? s with
    | none => exact (hg (List.getElem?_eq_none_iff.1 hx)).symm
    | some x => rfl
  · rfl

theorem remoteRefs_modifyScope_uses {g : List RemoteRef → List RemoteRef}
    (hg : t.scopes.length ≤ s → g [] = []) :
    (t.modifyScope s fun x => { x with remoteRefs := g x.remoteRefs }).remoteRefs r =
      if s = r then g (t.remoteRefs r) else t.remoteRefs r := by
  unfold remoteRefs
  rw [scope?_modifyScope]
  split
  · next hs =>
    subst hs
    cases hx : t.scope? s with
    | none => exact (hg (List.getElem?_eq_none_iff.1 hx)).symm
    | some x => rfl
  · rfl

/-! ## Adding a scope -/

section addChild

variable {parent : ScopeId} {name : String} {kind : ScopeKind}

@[simp] theorem length_addChild :
    (t.addChild parent name kind).2.scopes.length = t.scopes.length + 1 := by
  simp [addChild]

@[simp] theorem addChild_fst : (t.addChild parent name kind).1 = t.scopes.length := rfl

theorem scope?_addChild (h : r ≠ t.scopes.length) :
    (t.addChild parent name kind).2.scope? r =
      (t.modifyScope parent fun x => { x with children := x.children ++ [t.scopes.length] }).scope?
        r := by
  simp only [addChild, scope?]
  rcases Nat.lt_or_ge r t.scopes.length with hr | hr
  · rw [List.getElem?_append_left (by simpa using hr)]
  · have hr' : t.scopes.length < r := Nat.lt_of_le_of_ne hr (Ne.symm h)
    rw [List.getElem?_eq_none (by simpa using Nat.succ_le_of_lt hr'),
      List.getElem?_eq_none (by simpa using hr)]

theorem scope?_addChild_new :
    (t.addChild parent name kind).2.scope? t.scopes.length =
      some { name, kind, parent := some parent } := by
  simp [addChild, scope?, modifyScope]

/-- What is read of one scope, apart from its children, is nothing new if a fresh scope has none of
it. -/
theorem read_addChild {β : Type} {v : Option Scope → β}
    (hv : ∀ x cs, v (some { x with children := cs }) = v (some x))
    (hnew : v (some { name, kind, parent := some parent }) = v none) :
    v ((t.addChild parent name kind).2.scope? r) = v (t.scope? r) := by
  by_cases hr : r = t.scopes.length
  · subst hr
    rw [scope?_addChild_new, hnew, scope?_eq_none (Nat.le_refl _)]
  · rw [scope?_addChild hr]
    exact read_modifyScope fun x => hv x _

theorem declared?_addChild {n : String} :
    (t.addChild parent name kind).2.declared? r n = t.declared? r n :=
  read_addChild (v := fun o : Option Scope => o.bind (·.symbols.lookup n)) (fun _ _ => rfl) rfl

theorem localRefs_addChild : (t.addChild parent name kind).2.localRefs r = t.localRefs r :=
  read_addChild (v := fun o : Option Scope => (o.map Scope.localRefs).getD []) (fun _ _ => rfl) rfl

theorem remoteRefs_addChild : (t.addChild parent name kind).2.remoteRefs r = t.remoteRefs r :=
  read_addChild (v := fun o : Option Scope => (o.map Scope.remoteRefs).getD []) (fun _ _ => rfl) rfl

theorem parent?_addChild :
    (t.addChild parent name kind).2.parent? r =
      if r = t.scopes.length then some parent else t.parent? r := by
  split
  · next hr => subst hr; simp [parent?, scope?_addChild_new]
  · next hr =>
    unfold parent?
    rw [scope?_addChild hr]
    exact parent?_modifyScope fun _ => rfl

theorem children_addChild (h : parent < t.scopes.length) :
    (t.addChild parent name kind).2.children r =
      if r = parent then t.children r ++ [t.scopes.length] else t.children r := by
  by_cases hr : r = t.scopes.length
  · subst hr
    rw [if_neg (Nat.ne_of_gt h)]
    simp [children, scope?_addChild_new, scope?_eq_none (Nat.le_refl t.scopes.length)]
  · unfold children
    rw [scope?_addChild hr, scope?_modifyScope]
    by_cases hp : r = parent
    · subst hp
      obtain ⟨x, hx⟩ := Option.isSome_iff_exists.1 (scope?_isSome.2 h)
      simp [hx]
    · rw [if_neg (Ne.symm hp), if_neg hp]

end addChild

/-! ## Declaring a name -/

section define

variable {name : String} {kind : SymbolKind} {position : Nat} {i : SymbolId}

theorem lookup_append_singleton {l : List (String × SymbolId)} {n : String}
    (h : l.lookup name = none) :
    (l ++ [(name, i)]).lookup n = if n = name then some i else l.lookup n := by
  rw [List.lookup_append]
  by_cases hn : n = name
  · subst hn; simp [h]
  · simp [hn, List.lookup_cons, beq_eq_false_iff_ne.2 hn]

/-- Declaring a name succeeds if the scope does not have it, and then changes the tree like this. -/
theorem define_eq_ok (h : t.define s name kind position = .ok (i, u)) :
    t.declared? s name = none ∧ i = t.symbols.length ∧
      u = { t.modifyScope s fun x => { x with symbols := x.symbols ++ [(name, i)] } with
        symbols := t.symbols ++ [⟨name, kind, position, s⟩] } := by
  unfold define at h
  split at h
  · cases h
  · next hn =>
    cases h
    exact ⟨hn, rfl, rfl⟩

theorem define_eq_error (h : t.define s name kind position = .error i) :
    t.declared? s name = some i := by
  unfold define at h
  split at h
  · next hi => cases h; exact hi
  · cases h

variable (h : t.define s name kind position = .ok (i, u))
include h

theorem length_of_define : u.scopes.length = t.scopes.length := by
  obtain ⟨-, -, rfl⟩ := define_eq_ok h
  exact length_modifyScope

theorem parent?_of_define : u.parent? r = t.parent? r := by
  obtain ⟨-, -, rfl⟩ := define_eq_ok h
  exact parent?_modifyScope fun _ => rfl

theorem children_of_define : u.children r = t.children r := by
  obtain ⟨-, -, rfl⟩ := define_eq_ok h
  exact children_modifyScope fun _ => rfl

theorem localRefs_of_define : u.localRefs r = t.localRefs r := by
  obtain ⟨-, -, rfl⟩ := define_eq_ok h
  exact localRefs_modifyScope fun _ => rfl

theorem remoteRefs_of_define : u.remoteRefs r = t.remoteRefs r := by
  obtain ⟨-, -, rfl⟩ := define_eq_ok h
  exact remoteRefs_modifyScope fun _ => rfl

theorem symbols_of_define : u.symbols = t.symbols ++ [⟨name, kind, position, s⟩] := by
  obtain ⟨-, -, rfl⟩ := define_eq_ok h
  rfl

theorem declared?_of_define {n : String} (hs : s < t.scopes.length) :
    u.declared? r n = if r = s ∧ n = name then some t.symbols.length else t.declared? r n := by
  obtain ⟨hn, rfl, rfl⟩ := define_eq_ok h
  show (((t.modifyScope s _).scope? r).bind _) = _
  rw [scope?_modifyScope]
  by_cases hr : r = s
  · subst hr
    obtain ⟨x, hx⟩ := Option.isSome_iff_exists.1 (scope?_isSome.2 hs)
    have hx' : x.symbols.lookup name = none := by simpa [declared?, hx] using hn
    simp [declared?, hx, lookup_append_singleton hx']
  · rw [if_neg (Ne.symm hr), if_neg (fun hc => hr hc.1)]
    rfl

end define

theorem symbol?_setKind {i j : SymbolId} {kind : SymbolKind} :
    (t.setKind i kind).symbol? j =
      (t.symbol? j).map fun y => if i = j then { y with kind } else y := by
  simp only [symbol?, setKind, List.getElem?_modify]
  rfl

/-! ## Keeping a use -/

theorem localRefs_addLocalRef {name : String} {position : Nat} (hs : s < t.scopes.length) :
    (t.addLocalRef s name position).localRefs r =
      if s = r ∧ ∀ x ∈ t.localRefs s, x.name ≠ name then
        t.localRefs r ++ [⟨name, position, .pending⟩]
      else t.localRefs r := by
  unfold addLocalRef
  split
  · next h =>
    obtain ⟨x, hx, hn⟩ := List.any_eq_true.1 h
    rw [if_neg fun hc => hc.2 x hx (beq_iff_eq.1 hn)]
  · next h =>
    rw [localRefs_modifyScope_uses (g := (· ++ [LocalRef.mk name position .pending]))
      fun hle => absurd hs (Nat.not_lt_of_le hle)]
    have hall : ∀ x ∈ t.localRefs s, x.name ≠ name := by simpa using h
    simp only [eq_true hall, and_true]

theorem exists_localRef_addLocalRef {name : String} {position : Nat} (hs : s < t.scopes.length) :
    ∃ x ∈ (t.addLocalRef s name position).localRefs s, x.name = name := by
  rw [localRefs_addLocalRef hs]
  by_cases h : ∀ x ∈ t.localRefs s, x.name ≠ name
  · rw [if_pos ⟨rfl, h⟩]
    exact ⟨_, List.mem_append_right _ (List.mem_singleton_self _), rfl⟩
  · rw [if_neg fun hc => h hc.2]
    simpa using h

theorem remoteRefs_addRemoteRef {module name : String} {position : Nat}
    (hs : s < t.scopes.length) :
    (t.addRemoteRef s module name position).remoteRefs r =
      if s = r ∧ ∀ x ∈ t.remoteRefs s, ¬(x.module = module ∧ x.name = name) then
        t.remoteRefs r ++ [⟨module, name, position, .pending⟩]
      else t.remoteRefs r := by
  unfold addRemoteRef
  split
  · next h =>
    obtain ⟨x, hx, hn⟩ := List.any_eq_true.1 h
    rw [if_neg fun hc => hc.2 x hx (by simpa using hn)]
  · next h =>
    rw [remoteRefs_modifyScope_uses (g := (· ++ [RemoteRef.mk module name position .pending]))
      fun hle => absurd hs (Nat.not_lt_of_le hle)]
    have hall : ∀ x ∈ t.remoteRefs s, ¬(x.module = module ∧ x.name = name) := by simpa using h
    simp only [eq_true hall, and_true]

theorem remoteRefs_addLocalRef {name : String} {position : Nat} :
    (t.addLocalRef s name position).remoteRefs r = t.remoteRefs r := by
  unfold addLocalRef
  split
  · rfl
  · exact remoteRefs_modifyScope fun _ => rfl

theorem localRefs_addRemoteRef {module name : String} {position : Nat} :
    (t.addRemoteRef s module name position).localRefs r = t.localRefs r := by
  unfold addRemoteRef
  split
  · rfl
  · exact localRefs_modifyScope fun _ => rfl

/-! ## Changes that leave the declarations alone -/

/-- The trees have the same scopes, the same names declared in them, and the same symbols. -/
structure SameDeclarations (t u : ScopeTree) : Prop where
  length : u.scopes.length = t.scopes.length
  parent? : ∀ r, u.parent? r = t.parent? r
  children : ∀ r, u.children r = t.children r
  declared? : ∀ r name, u.declared? r name = t.declared? r name
  symbols : u.symbols = t.symbols

namespace SameDeclarations

theorem refl (t : ScopeTree) : SameDeclarations t t :=
  ⟨rfl, fun _ => rfl, fun _ => rfl, fun _ _ => rfl, rfl⟩

theorem trans {t u w : ScopeTree} (h : SameDeclarations t u) (h' : SameDeclarations u w) :
    SameDeclarations t w where
  length := h'.length.trans h.length
  parent? r := (h'.parent? r).trans (h.parent? r)
  children r := (h'.children r).trans (h.children r)
  declared? r name := (h'.declared? r name).trans (h.declared? r name)
  symbols := h'.symbols.trans h.symbols

theorem symm {t u : ScopeTree} (h : SameDeclarations t u) : SameDeclarations u t where
  length := h.length.symm
  parent? r := (h.parent? r).symm
  children r := (h.children r).symm
  declared? r name := (h.declared? r name).symm
  symbols := h.symbols.symm

theorem modifyScope (hp : ∀ x, (f x).parent = x.parent) (hc : ∀ x, (f x).children = x.children)
    (hs : ∀ x, (f x).symbols = x.symbols) : SameDeclarations t (t.modifyScope s f) where
  length := length_modifyScope
  parent? _ := parent?_modifyScope hp
  children _ := children_modifyScope hc
  declared? _ _ := declared?_modifyScope hs
  symbols := rfl

theorem addLocalRef (name : String) (position : Nat) :
    SameDeclarations t (t.addLocalRef s name position) := by
  unfold ScopeTree.addLocalRef
  split
  · exact refl t
  · exact modifyScope (fun _ => rfl) (fun _ => rfl) fun _ => rfl

theorem addRemoteRef (module name : String) (position : Nat) :
    SameDeclarations t (t.addRemoteRef s module name position) := by
  unfold ScopeTree.addRemoteRef
  split
  · exact refl t
  · exact modifyScope (fun _ => rfl) (fun _ => rfl) fun _ => rfl

theorem setLocalStatus (i : Nat) (status : RefStatus) :
    SameDeclarations t (t.setLocalStatus s i status) :=
  modifyScope (fun _ => rfl) (fun _ => rfl) fun _ => rfl

end SameDeclarations

end JayFrontEnd.ScopeTree
