import JayFrontEnd.Proofs.Analysis.Event

/-!
# What following events keeps

An analyzer is well-formed if its tree is and its current scope exists. Every operation keeps it
well-formed and lets the tree grow; so does every event, and so does every list of events that is
followed to its end.
-/

namespace JayFrontEnd.Analyzer

open ScopeTree

structure WellFormed (a : Analyzer) : Prop where
  scopes : a.scopes.WellFormed
  current_lt : a.current < a.scopes.scopes.length

theorem WellFormed.ofModule (module : String) (source : Source) :
    (Analyzer.ofModule module source).WellFormed :=
  ⟨.ofModule module, Nat.one_pos⟩

/-- One analyzer comes from another, well-formed one. -/
structure Advances (a b : Analyzer) : Prop where
  wellFormed : b.WellFormed
  grows : a.scopes.Grows b.scopes

variable {a b c : Analyzer}

theorem Advances.refl (h : a.WellFormed) : a.Advances a := ⟨h, .refl _⟩

theorem Advances.trans (h : a.Advances b) (h' : b.Advances c) : a.Advances c :=
  ⟨h'.wellFormed, h.grows.trans h'.grows⟩

/-! ## The operations -/

theorem WellFormed.enterScope (h : a.WellFormed) (name : String) (kind : ScopeKind) :
    a.Advances (a.enterScope name kind) where
  wellFormed := ⟨h.scopes.addChild h.current_lt name kind, by simp [Analyzer.enterScope]⟩
  grows := .addChild ..

theorem WellFormed.exitScope (h : a.WellFormed) : a.Advances a.exitScope := by
  unfold Analyzer.exitScope
  split
  · next p hp =>
    exact ⟨⟨h.scopes, Nat.lt_trans (h.scopes.parent?_lt hp) h.current_lt⟩, .refl _⟩
  · exact .refl h

/-- Work in a new scope that comes back to it leaves it for the scope it was entered from. -/
theorem WellFormed.exitScope_of_enterScope (h : a.WellFormed) {name : String} {kind : ScopeKind}
    (hb : (a.enterScope name kind).Advances b) (hc : b.current = (a.enterScope name kind).current) :
    b.exitScope = { b with current := a.current } := by
  have hp : b.scopes.parent? b.current = some a.current := by
    rw [hc, hb.grows.parent? (h.enterScope name kind).wellFormed.current_lt]
    show (a.scopes.addChild a.current name kind).2.parent? a.scopes.scopes.length = _
    rw [ScopeTree.parent?_addChild, if_pos rfl]
  simp only [Analyzer.exitScope, hp]

theorem register_eq_ok {name : String} {kind : SymbolKind} {position : Nat}
    (h : a.register name kind position = .ok b) :
    ∃ i scopes, a.scopes.define a.current name kind position = .ok (i, scopes) ∧
      b = { a with scopes } := by
  unfold register at h
  split at h
  · next i scopes hd => cases h; exact ⟨i, scopes, hd, rfl⟩
  · cases h

theorem WellFormed.register (h : a.WellFormed) {name : String} {kind : SymbolKind} {position : Nat}
    (hb : a.register name kind position = .ok b) : a.Advances b := by
  obtain ⟨i, scopes, hd, rfl⟩ := register_eq_ok hb
  refine ⟨⟨h.scopes.define h.current_lt hd, ?_⟩, .define h.current_lt hd⟩
  exact (length_of_define hd).symm ▸ h.current_lt

theorem WellFormed.of_sameDeclarations (h : a.WellFormed) {scopes : ScopeTree}
    (hs : SameDeclarations a.scopes scopes) : { a with scopes }.WellFormed :=
  ⟨h.scopes.of_sameDeclarations hs, hs.length.symm ▸ h.current_lt⟩

theorem WellFormed.expectLocal (h : a.WellFormed) (name : String) (position : Nat) :
    a.Advances (a.expectLocal name position) :=
  ⟨h.of_sameDeclarations (.addLocalRef ..), .addLocalRef h.current_lt _⟩

theorem WellFormed.expectRemote (h : a.WellFormed) (module name : String) (position : Nat) :
    a.Advances (a.expectRemote module name position) :=
  ⟨h.of_sameDeclarations (.addRemoteRef ..), .addRemoteRef h.current_lt ..⟩

theorem visible?_eq_some_iff {name : String} {i : SymbolId} {y : Symbol} :
    a.visible? name = some (i, y) ↔
      a.scopes.lookup? a.current name = some i ∧ a.scopes.symbol? i = some y := by
  unfold visible?
  cases hi : a.scopes.lookup? a.current name with
  | none => simp
  | some j =>
    cases hy : a.scopes.symbol? j with
    | none => simp [hy]; rintro rfl; simp [hy]
    | some z => simp [hy]; rintro rfl; simp [hy]

/-- An assignment that succeeds changes nothing, or fixes the type of the nearest variable. -/
theorem assign_eq_ok {name : String} {type : Option PrimitiveType} {position : Nat}
    (h : a.assign name type position = .ok b) :
    b = a ∨ ∃ t i y, type = some t ∧ a.visible? name = some (i, y) ∧ y.kind = .variable none ∧
      b = { a with scopes := a.scopes.setKind i (.variable (some t)) } := by
  unfold assign at h
  split at h
  · next t i n p s hv => cases h; exact .inr ⟨t, i, _, rfl, hv, rfl, rfl⟩
  · split at h
    · cases h; exact .inl rfl
    · cases h
  · cases h; exact .inl rfl

theorem WellFormed.assign (h : a.WellFormed) {name : String} {type : Option PrimitiveType}
    {position : Nat} (hb : a.assign name type position = .ok b) : a.Advances b := by
  obtain rfl | ⟨t, i, y, -, hv, hy, rfl⟩ := assign_eq_ok hb
  · exact .refl h
  · exact ⟨⟨h.scopes.setKind .., h.current_lt⟩, .setKind (visible?_eq_some_iff.1 hv).2 hy t⟩

/-! ## Events -/

/-- The step lemma: an event keeps an analyzer well-formed and lets its tree grow. -/
theorem WellFormed.step (h : a.WellFormed) {e : Event} (hb : a.step e = .ok b) : a.Advances b := by
  cases e with
  | enter name kind => cases hb; exact h.enterScope name kind
  | leave => cases hb; exact h.exitScope
  | declare n kind => exact h.register hb
  | use n => cases hb; exact h.expectLocal ..
  | useRemote module n => cases hb; exact h.expectRemote ..
  | assign n value => exact h.assign hb
  | refuse fault => cases hb

theorem follow_cons (e : Event) (es : List Event) :
    a.follow (e :: es) = (a.step e).bind fun b => b.follow es := rfl

theorem follow_append (es fs : List Event) :
    a.follow (es ++ fs) = (a.follow es).bind fun b => b.follow fs := List.foldlM_append ..

theorem follow_cons_eq_ok {e : Event} {es : List Event} (h : a.follow (e :: es) = .ok c) :
    ∃ b, a.step e = .ok b ∧ b.follow es = .ok c := by
  rw [follow_cons] at h
  cases hb : a.step e with
  | error f => rw [hb] at h; cases h
  | ok b => rw [hb] at h; exact ⟨b, rfl, h⟩

theorem follow_append_eq_ok {es fs : List Event} (h : a.follow (es ++ fs) = .ok c) :
    ∃ b, a.follow es = .ok b ∧ b.follow fs = .ok c := by
  rw [follow_append] at h
  cases hb : a.follow es with
  | error f => rw [hb] at h; cases h
  | ok b => rw [hb] at h; exact ⟨b, rfl, h⟩

/-- The run lemma. -/
theorem WellFormed.follow (h : a.WellFormed) {es : List Event} (hb : a.follow es = .ok b) :
    a.Advances b := by
  induction es generalizing a with
  | nil => cases hb; exact .refl h
  | cons e es ih =>
    obtain ⟨c, hc, hb⟩ := follow_cons_eq_ok hb
    exact (h.step hc).trans (ih (h.step hc).wellFormed hb)

end JayFrontEnd.Analyzer
