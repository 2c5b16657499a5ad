import JayFrontEnd.Proofs.Analysis.LexicalStructure

/-!
# Names are declared in the order of the text

The events of a tree declare names in the order in which the tree has them, up to where the analysis
is refused. So an analyzer has met the names that stand before those still to come, and where a name
is declared again its first declaration stands before.
-/

namespace JayFrontEnd

open Finding

namespace Event

def declaresAt? : Event → Option Nat
  | declare n _ => some n.position
  | _ => none

def declarations (es : List Event) : List Nat := es.filterMap declaresAt?

variable {es fs : List Event}

@[simp] theorem declarations_append :
    declarations (es ++ fs) = declarations es ++ declarations fs := List.filterMap_append

theorem declarations_of_isUse (h : ∀ e ∈ es, e.isUse = true) : declarations es = [] := by
  refine List.filterMap_eq_nil_iff.2 fun e he => ?_
  have := h e he
  cases e <;> first | rfl | cases this

theorem declarations_inScope (name : String) (kind : ScopeKind) :
    declarations (enter name kind :: es ++ [leave]) = declarations es := by
  show declarations (es ++ [leave]) = _
  rw [declarations_append]
  exact List.append_nil _

theorem declarations_whenOk {α : Type} {x : Except Fault α} {es : α → List Event} {ps : List Nat}
    (h : ∀ y, x = .ok y → (declarations (es y)).Sublist ps) :
    (declarations (whenOk x es)).Sublist ps := by
  cases x with
  | ok y => exact h y rfl
  | error fault => exact List.nil_sublist ps

/-! ## Statements -/

theorem declarations_value (name value : Node) : declarations (ofValue name value) = [] := by
  rw [ofValue, declarations_append, declarations_of_isUse (isUse_of_mem.1 value)]
  rfl

theorem declarations_assignment (n : Node) : declarations (ofAssignment n) = [] := by
  refine List.sublist_nil.1 (declarations_whenOk fun name _ => ?_)
  refine declarations_whenOk fun value _ => ?_
  show (declarations (ofValue name.1 value.1)).Sublist []
  rw [declarations_value]

theorem declarations_variableDecl (n : Node) :
    (declarations (ofVariableDecl n)).Sublist ((n.part "name").map Node.position) := by
  refine declarations_whenOk fun ⟨name, hname⟩ _ => declarations_whenOk fun type _ => ?_
  rw [Node.part_eq hname]
  refine .cons_cons _ (List.sublist_nil.2 ?_)
  cases n.field? "value" with
  | none => rfl
  | some value => exact declarations_value name value

theorem declarations_params (params : List (Node × PrimitiveType)) :
    declarations (params.map fun p => .declare p.1 (.variable (some p.2))) =
      params.map (·.1.position) := by
  rw [declarations, List.filterMap_map]
  exact congrFun List.filterMap_eq_map params

/-- The names that are declared in a tree's statement are among those it has, in their order. -/
theorem declarations_functionDecl {n : Node} (ht : NodeTag.ofName? n.kind = some .functionDecl)
    (ih : ∀ body, n.field? "body" = some body → ∀ s next,
      (declarations (ofStatements body.items)).Sublist (places (Node.recordAll s next body.items)))
    (s next : ScopeId) :
    (declarations (ofStatement n)).Sublist (places (n.record s next)) := by
  have hopens : n.opensScope = true := by rw [Node.opensScope, ht]
  rw [Analysis.ofStatement_functionDecl ht, Node.record_of_opensScope hopens, places_append,
    places_mentions, places_cons_scope, places_append, places_mentions, Node.mentions,
    Node.parameters, Node.innerStatements, ht]
  refine declarations_whenOk fun name _ => declarations_whenOk fun body _ => ?_
  obtain ⟨name, hname⟩ := name
  obtain ⟨body, hbody⟩ := body
  refine declarations_whenOk fun params hparams => declarations_whenOk fun returns _ => ?_
  have hparameters : Mention.places ((params.map (·.1)).map .declared) =
      declarations (params.map fun p => .declare p.1 (.variable (some p.2))) := by
    simp [Mention.places, Mention.name, declarations_params, Function.comp_def]
  dsimp only
  rw [Node.part_eq hname, hbody, ← map_params hparams, hparameters]
  show (name.position :: declarations (enter name.textD .function :: _ ++ [leave])).Sublist
    (name.position :: (declarations _ ++ places _))
  rw [declarations_inScope, declarations_append]
  exact .cons_cons _ (.append (.refl _) (ih body hbody next (next + 1)))

theorem declarations_statement :
    (∀ n s next, (declarations (ofStatement n)).Sublist (places (Node.record s next n))) ∧
      ∀ ns s next,
        (declarations (ofStatements ns)).Sublist (places (Node.recordAll s next ns)) := by
  refine Node.statement_induction ?_ ?_ ?_ ?_ ?_ ?_ ?_ ?_
  · intro n ht s next
    rw [ofStatement, ht, Node.record_of_not_opensScope (by rw [Node.opensScope, ht]),
      places_mentions, Node.mentions, ht, Mention.places_append]
    refine .trans ?_ (List.sublist_append_left ..)
    simpa [Mention.places, Mention.name, Function.comp_def] using declarations_variableDecl n
  · exact fun n ht ih => declarations_functionDecl ht ih
  · intro n ht s next
    rw [ofStatement, ht]
    exact declarations_assignment n ▸ List.nil_sublist _
  · intro n ht s next
    rw [ofStatement, ht]
    exact declarations_of_isUse (isUse_of_mem.2.1 n) ▸ List.nil_sublist _
  · intro n ht ih s next
    rw [ofStatement, ht, Node.record_of_opensScope (by rw [Node.opensScope, ht]), places_append,
      places_cons_scope, places_append, Node.innerStatements, ht]
    refine .trans ?_ (List.sublist_append_right ..)
    refine .trans ?_ (List.sublist_append_right ..)
    dsimp only
    rw [declarations_inScope]
    exact ih next (next + 1)
  · intro n hother s next
    rw [ofStatement_other hother]
    exact List.nil_sublist _
  · intro s next
    rw [ofStatements]
    exact List.nil_sublist _
  · intro n ns ihn ihs s next
    rw [ofStatements, declarations_append, Node.recordAll_cons, places_append]
    exact (ihn s next).append (ihs s _)

end Event

/-! ## Analyzers -/

namespace Analyzer

variable {ts : List Token} {a b : Analyzer} {e : Event} {es : List Event}

/-- The step lemma: the symbols stand where names have been declared. -/
theorem positions_of_step (h : a.step e = .ok b) : b.scopes.symbols.map Symbol.position =
    a.scopes.symbols.map Symbol.position ++ Event.declarations [e] := by
  cases e with
  | enter name kind => cases h; exact (List.append_nil _).symm
  | leave =>
    cases h
    unfold Analyzer.exitScope
    split <;> exact (List.append_nil _).symm
  | declare n kind =>
    obtain ⟨i, scopes, hdefine, rfl⟩ := register_eq_ok h
    rw [ScopeTree.symbols_of_define hdefine, List.map_append]
    rfl
  | use n =>
    cases h
    show List.map _ (ScopeTree.addLocalRef ..).symbols = _
    rw [(ScopeTree.SameDeclarations.addLocalRef ..).symbols]
    exact (List.append_nil _).symm
  | useRemote module n =>
    cases h
    show List.map _ (ScopeTree.addRemoteRef ..).symbols = _
    rw [(ScopeTree.SameDeclarations.addRemoteRef ..).symbols]
    exact (List.append_nil _).symm
  | assign n value =>
    obtain rfl | ⟨t, i, y, -, -, -, rfl⟩ := assign_eq_ok h
    · exact (List.append_nil _).symm
    · have hpositions := ScopeTree.map_modify (g := Symbol.position)
        (f := fun y => { y with kind := .variable (some t) }) (fun _ => rfl) a.scopes.symbols i
      exact hpositions.trans (List.append_nil _).symm
  | refuse fault => cases h

/-- The run lemma: the names still to come stand behind those that have been declared, so a name
that is there already stood first before. -/
theorem WellFormed.first_lt (ha : a.WellFormed) (hes : ∀ e ∈ es, e.Located ts)
    (hsorted : (a.scopes.symbols.map Symbol.position ++ Event.declarations es).Pairwise (· < ·))
    {name link : String} {offset first : Nat}
    (h : a.follow es = .error (.duplicateSymbol name offset first link)) : first < offset := by
  induction es generalizing a with
  | nil => cases h
  | cons e es ih =>
    obtain ⟨he, hes⟩ := List.forall_mem_cons.1 hes
    rw [follow_cons] at h
    cases hstep : a.step e with
    | ok c =>
      rw [hstep] at h
      refine ih (ha.step hstep).wellFormed hes ?_ h
      rwa [positions_of_step hstep, List.append_assoc, ← Event.declarations_append]
    | error fault =>
      rw [hstep] at h
      cases h
      cases e with
      | declare n kind =>
        obtain ⟨i, y, hy, -, -, hfault⟩ := ha.register_eq_error hstep
        simp only [duplicate, hy] at hfault
        cases hfault
        refine (List.pairwise_append.1 hsorted).2.2 _ ?_ _ (List.mem_cons_self ..)
        exact List.mem_map_of_mem (List.mem_of_getElem? hy)
      | assign n value =>
        obtain ⟨_, _, hfault⟩ := assign_eq_error hstep
        cases hfault
      | refuse fault =>
        obtain ⟨_, _, rfl, -⟩ := he
        cases hstep
      | _ => cases hstep

end Analyzer

end JayFrontEnd
