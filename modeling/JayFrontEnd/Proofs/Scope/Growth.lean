import JayFrontEnd.Proofs.Scope.Chain

/-!
# How a scope tree grows

While a module is analysed its tree only grows: scopes keep their parents, declared names keep their
symbols, a symbol changes in nothing but an unknown type that becomes known, and the uses of a scope
get more at the end. So the scope that a name is bound to in the end, if it has the name already, is
the one the name is bound to now.
-/

namespace JayFrontEnd

/-- Nothing changes, or a variable of unknown type gets a type. -/
inductive SymbolKind.SettlesTo : SymbolKind → SymbolKind → Prop where
  | same (k : SymbolKind) : SettlesTo k k
  | typed (t : PrimitiveType) : SettlesTo (.variable none) (.variable (some t))

theorem SymbolKind.SettlesTo.trans {j k l : SymbolKind} (h : j.SettlesTo k) (h' : k.SettlesTo l) :
    j.SettlesTo l := by
  cases h with
  | same => exact h'
  | typed t => cases h'; exact .typed t

theorem SymbolKind.SettlesTo.of_typed {t : PrimitiveType} {k : SymbolKind}
    (h : SymbolKind.SettlesTo (.variable (some t)) k) : k = .variable (some t) := by
  cases h; rfl

namespace ScopeTree

structure Grows (t u : ScopeTree) : Prop where
  length_le : t.scopes.length ≤ u.scopes.length
  parent? : ∀ {s}, s < t.scopes.length → u.parent? s = t.parent? s
  declared? : ∀ {s name i}, t.declared? s name = some i → u.declared? s name = some i
  symbol? : ∀ {i y}, t.symbol? i = some y →
    ∃ k, y.kind.SettlesTo k ∧ u.symbol? i = some { y with kind := k }
  localRefs : ∀ s, t.localRefs s <+: u.localRefs s
  remoteRefs : ∀ s, t.remoteRefs s <+: u.remoteRefs s

variable {t u w : ScopeTree} {s : ScopeId} {name : String}

namespace Grows

theorem refl (t : ScopeTree) : t.Grows t where
  length_le := Nat.le_refl _
  parent? _ := rfl
  declared? h := h
  symbol? h := ⟨_, .same _, h⟩
  localRefs _ := List.prefix_rfl
  remoteRefs _ := List.prefix_rfl

theorem trans (h : t.Grows u) (h' : u.Grows w) : t.Grows w where
  length_le := Nat.le_trans h.length_le h'.length_le
  parent? hs := (h'.parent? (Nat.lt_of_lt_of_le hs h.length_le)).trans (h.parent? hs)
  declared? hi := h'.declared? (h.declared? hi)
  symbol? hy := by
    obtain ⟨k, hk, hz⟩ := h.symbol? hy
    obtain ⟨l, hl, hw⟩ := h'.symbol? hz
    exact ⟨l, hk.trans hl, hw⟩
  localRefs s := (h.localRefs s).trans (h'.localRefs s)
  remoteRefs s := (h.remoteRefs s).trans (h'.remoteRefs s)

theorem addChild (p : ScopeId) (kind : ScopeKind) : t.Grows (t.addChild p name kind).2 where
  length_le := by simp
  parent? hs := by rw [parent?_addChild, if_neg (Nat.ne_of_lt hs)]
  declared? hi := declared?_addChild.trans hi
  symbol? h := ⟨_, .same _, h⟩
  localRefs _ := localRefs_addChild.symm ▸ List.prefix_rfl
  remoteRefs _ := remoteRefs_addChild.symm ▸ List.prefix_rfl

theorem define {kind : SymbolKind} {position : Nat} {i : SymbolId} (hs : s < t.scopes.length)
    (h : t.define s name kind position = .ok (i, u)) : t.Grows u where
  length_le := Nat.le_of_eq (length_of_define h).symm
  parent? _ := parent?_of_define h
  declared? {r n j} hj := by
    rw [declared?_of_define h hs]
    split
    · next hc =>
      rw [hc.1, hc.2, (define_eq_ok h).1] at hj
      cases hj
    · exact hj
  symbol? {j y} hy := by
    refine ⟨_, .same _, ?_⟩
    rw [ScopeTree.symbol?, symbols_of_define h,
      List.getElem?_append_left (List.getElem?_eq_some_iff.1 hy).1]
    exact hy
  localRefs _ := (localRefs_of_define h).symm ▸ List.prefix_rfl
  remoteRefs _ := (remoteRefs_of_define h).symm ▸ List.prefix_rfl

theorem setKind {i : SymbolId} {y : Symbol} (hi : t.symbol? i = some y)
    (hy : y.kind = .variable none) (type : PrimitiveType) :
    t.Grows (t.setKind i (.variable (some type))) where
  length_le := Nat.le_refl _
  parent? _ := rfl
  declared? h := h
  symbol? {j z} hz := by
    rw [symbol?_setKind, hz]
    by_cases hj : i = j
    · subst hj
      obtain rfl : y = z := Option.some.inj (hi.symm.trans hz)
      exact ⟨_, by rw [hy]; exact .typed type, by simp⟩
    · exact ⟨_, .same _, by simp [hj]⟩
  localRefs _ := List.prefix_rfl
  remoteRefs _ := List.prefix_rfl

theorem of_sameDeclarations (h : SameDeclarations t u)
    (hl : ∀ s, t.localRefs s <+: u.localRefs s) (hr : ∀ s, t.remoteRefs s <+: u.remoteRefs s) :
    t.Grows u where
  length_le := Nat.le_of_eq h.length.symm
  parent? _ := h.parent? _
  declared? hi := (h.declared? ..).trans hi
  symbol? hy := ⟨_, .same _, by rw [ScopeTree.symbol?, h.symbols]; exact hy⟩
  localRefs := hl
  remoteRefs := hr

theorem addLocalRef (hs : s < t.scopes.length) (position : Nat) :
    t.Grows (t.addLocalRef s name position) := by
  refine of_sameDeclarations (.addLocalRef ..) (fun r => ?_) fun r =>
    remoteRefs_addLocalRef.symm ▸ List.prefix_rfl
  rw [localRefs_addLocalRef hs]
  split
  · exact List.prefix_append ..
  · exact List.prefix_rfl

theorem addRemoteRef (hs : s < t.scopes.length) (module : String) (position : Nat) :
    t.Grows (t.addRemoteRef s module name position) := by
  refine of_sameDeclarations (.addRemoteRef ..) (fun r =>
    localRefs_addRemoteRef.symm ▸ List.prefix_rfl) fun r => ?_
  rw [remoteRefs_addRemoteRef hs]
  split
  · exact List.prefix_append ..
  · exact List.prefix_rfl

/-- A name that is bound to a scope in the end is bound to it now, if that scope has the name now.
-/
theorem binds (h : t.Grows u) (ht : t.WellFormed) {d : ScopeId} (hs : s < t.scopes.length)
    (hb : u.Binds name s d) (hd : (t.declared? d name).isSome) : t.Binds name s d := by
  induction hb with
  | here _ =>
    obtain ⟨i, hi⟩ := Option.isSome_iff_exists.1 hd
    exact .here hi
  | @outer s p d hn hp _ ih =>
    have hp' : t.parent? s = some p := (h.parent? hs).symm.trans hp
    have hn' : t.declared? s name = none := by
      cases hi : t.declared? s name with
      | none => rfl
      | some i => rw [h.declared? hi] at hn; cases hn
    exact .outer hn' hp' (ih (Nat.lt_trans (ht.parent?_lt hp') hs) hd)

theorem within (h : t.Grows u) {d : ScopeId} (hd : t.Within d s) : u.Within d s := by
  induction hd with
  | refl => exact .refl
  | tail _ hp ih => exact .tail ih ((h.parent? (lt_of_parent? hp)).trans hp)

/-- A name may come to be bound to a nearer scope, but only to one that has not had it so far. -/
theorem binds_later (h : t.Grows u) (ht : t.WellFormed) {d e : ScopeId} (hs : s < t.scopes.length)
    (hb : t.Binds name s e) (hb' : u.Binds name s d) :
    u.Within e d ∧ (e = d ↔ (t.declared? d name).isSome) := by
  refine ⟨?_, fun he => ?_, fun hd => hb.unique (h.binds ht hs hb' hd)⟩
  · induction hb with
    | here hi =>
      rw [hb'.unique (.here (h.declared? hi))]
      exact .refl
    | @outer s p e hn hp hb ih =>
      have hps : p < t.scopes.length := Nat.lt_trans (ht.parent?_lt hp) hs
      cases hb' with
      | here _ => exact h.within (.tail hb.within hp)
      | outer _ hq hb' =>
        rw [h.parent? hs, hp] at hq
        cases hq
        exact ih hps hb'
  · obtain ⟨i, hi⟩ := hb.declares
    rw [← he, hi]
    rfl

end Grows

end ScopeTree

end JayFrontEnd
