import JayFrontEnd.Proofs.Scope.Growth

/-!
# Nothing is taken away

`ExtendsTo` says what of a scope tree stays as it is. Scopes and symbols keep their numbers, a scope
gets more at the end of what it lists, and a symbol changes in nothing but an unknown type. It holds
of any two trees of which one comes from the other by adding things, whether or not they are
well-formed.
-/

namespace JayFrontEnd

structure Scope.ExtendsTo (x y : Scope) : Prop where
  name : y.name = x.name
  kind : y.kind = x.kind
  parent : y.parent = x.parent
  children : x.children <+: y.children
  symbols : x.symbols <+: y.symbols
  localRefs : x.localRefs <+: y.localRefs
  remoteRefs : x.remoteRefs <+: y.remoteRefs

namespace Scope.ExtendsTo

variable {x y z : Scope}

theorem refl (x : Scope) : x.ExtendsTo x where
  name := rfl
  kind := rfl
  parent := rfl
  children := List.prefix_rfl
  symbols := List.prefix_rfl
  localRefs := List.prefix_rfl
  remoteRefs := List.prefix_rfl

theorem trans (h : x.ExtendsTo y) (h' : y.ExtendsTo z) : x.ExtendsTo z where
  name := h'.name.trans h.name
  kind := h'.kind.trans h.kind
  parent := h'.parent.trans h.parent
  children := h.children.trans h'.children
  symbols := h.symbols.trans h'.symbols
  localRefs := h.localRefs.trans h'.localRefs
  remoteRefs := h.remoteRefs.trans h'.remoteRefs

end Scope.ExtendsTo

namespace ScopeTree

structure ExtendsTo (t u : ScopeTree) : Prop where
  scope? : ∀ {s x}, t.scope? s = some x → ∃ y, u.scope? s = some y ∧ x.ExtendsTo y
  symbol? : ∀ {i y}, t.symbol? i = some y →
    ∃ k, y.kind.SettlesTo k ∧ u.symbol? i = some { y with kind := k }

namespace ExtendsTo

variable {t u w : ScopeTree} {s : ScopeId} {f : Scope → Scope} {name : String} {position : Nat}

theorem refl (t : ScopeTree) : t.ExtendsTo t where
  scope? hx := ⟨_, hx, .refl _⟩
  symbol? hy := ⟨_, .same _, hy⟩

theorem trans (h : t.ExtendsTo u) (h' : u.ExtendsTo w) : t.ExtendsTo w where
  scope? hx := by
    obtain ⟨y, hy, hxy⟩ := h.scope? hx
    obtain ⟨z, hz, hyz⟩ := h'.scope? hy
    exact ⟨z, hz, hxy.trans hyz⟩
  symbol? hy := by
    obtain ⟨k, hk, hz⟩ := h.symbol? hy
    obtain ⟨l, hl, hw⟩ := h'.symbol? hz
    exact ⟨l, hk.trans hl, hw⟩

theorem modifyScope (hf : ∀ x : Scope, x.ExtendsTo (f x)) : t.ExtendsTo (t.modifyScope s f) where
  scope? {r x} hx := by
    rw [scope?_modifyScope, hx]
    split
    · exact ⟨_, rfl, hf x⟩
    · exact ⟨_, rfl, .refl x⟩
  symbol? hy := ⟨_, .same _, hy⟩

theorem addChild (p : ScopeId) (kind : ScopeKind) : t.ExtendsTo (t.addChild p name kind).2 where
  scope? {r x} hx := by
    have hr : r ≠ t.scopes.length := fun hr => by
      rw [hr, scope?_eq_none (Nat.le_refl _)] at hx
      cases hx
    have hlisted : t.ExtendsTo
        (t.modifyScope p fun x => { x with children := x.children ++ [t.scopes.length] }) :=
      .modifyScope fun x => { Scope.ExtendsTo.refl x with children := List.prefix_append .. }
    rw [scope?_addChild hr]
    exact hlisted.scope? hx
  symbol? hy := ⟨_, .same _, hy⟩

theorem define {kind : SymbolKind} {i : SymbolId}
    (h : t.define s name kind position = .ok (i, u)) : t.ExtendsTo u := by
  obtain ⟨-, -, rfl⟩ := define_eq_ok h
  have hlisted : t.ExtendsTo
      (t.modifyScope s fun x => { x with symbols := x.symbols ++ [(name, i)] }) :=
    .modifyScope fun x => { Scope.ExtendsTo.refl x with symbols := List.prefix_append .. }
  refine ⟨fun hx => hlisted.scope? hx, fun hy => ⟨_, .same _, ?_⟩⟩
  exact (List.getElem?_append_left (List.getElem?_eq_some_iff.1 hy).1).trans hy

theorem addLocalRef : t.ExtendsTo (t.addLocalRef s name position) := by
  unfold ScopeTree.addLocalRef
  split
  · exact .refl t
  · exact .modifyScope fun x => { Scope.ExtendsTo.refl x with localRefs := List.prefix_append .. }

theorem addRemoteRef {module : String} : t.ExtendsTo (t.addRemoteRef s module name position) := by
  unfold ScopeTree.addRemoteRef
  split
  · exact .refl t
  · exact .modifyScope fun x => { Scope.ExtendsTo.refl x with remoteRefs := List.prefix_append .. }

theorem setKind {i : SymbolId} {y : Symbol} (hi : t.symbol? i = some y)
    (hy : y.kind = .variable none) (type : PrimitiveType) :
    t.ExtendsTo (t.setKind i (.variable (some type))) where
  scope? hx := ⟨_, hx, .refl _⟩
  symbol? hz := (Grows.setKind hi hy type).symbol? hz

end ExtendsTo

end ScopeTree

end JayFrontEnd
