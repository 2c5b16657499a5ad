import JayFrontEnd.Proofs.Analysis.Faults
import JayFrontEnd.Proofs.Erasure
import JayFrontEnd.Proofs.Scope.Erasure

/-!
# Analysis without positions

The events of a tree without positions are those of the tree, and an analyzer without positions
follows them as far. So what an analysis records, and whether it is refused, hangs on the tree
without its positions.
-/

namespace JayFrontEnd

def Fault.erased : Fault → Fault
  | .unexpectedInput _ => .unexpectedInput 0
  | .parse problem _ => .parse problem 0
  | .duplicateSymbol name .. => .duplicateSymbol name 0 0 ""
  | .unresolvedSymbol name _ => .unresolvedSymbol name 0
  | .unknownModule module _ => .unknownModule module 0
  | .unresolvedRemoteSymbol module name _ => .unresolvedRemoteSymbol module name 0
  | .typeMismatch expected found _ => .typeMismatch expected found 0
  | .unknownType name _ => .unknownType name 0
  | .moduleLoad module _ problem => .moduleLoad module none problem
  | .grammar problem => .grammar problem
  | .positionOutOfRange _ => .positionOutOfRange 0

def Event.erased : Event → Event
  | enter name kind => enter name kind
  | leave => leave
  | declare n kind => declare n.erased kind
  | use n => use n.erased
  | useRemote module n => useRemote module.erased n.erased
  | assign n value => assign n.erased value.erased
  | refuse fault => refuse fault.erased

/-! ## Events -/

section Events

variable {α β γ δ : Type}

/-- What is got from the one without positions is related to what is got from the other, or what is
missing is the same. -/
def ErasesTo (R : α → β → Prop) (x : Except Fault α) (y : Except Fault β) : Prop :=
  (∃ a b, x = .ok a ∧ y = .ok b ∧ R a b) ∨ ∃ fault, x = .error fault ∧ y = .error fault.erased

namespace ErasesTo

variable {R : α → β → Prop} {S : γ → δ → Prop} {x : Except Fault α} {y : Except Fault β}

theorem bind {f : α → Except Fault γ} {g : β → Except Fault δ} (h : ErasesTo R x y)
    (hf : ∀ a b, R a b → ErasesTo S (f a) (g b)) : ErasesTo S (x >>= f) (y >>= g) := by
  obtain ⟨a, b, rfl, rfl, hab⟩ | ⟨fault, rfl, rfl⟩ := h
  · exact hf a b hab
  · exact .inr ⟨fault, rfl, rfl⟩

theorem whenOk {es : α → List Event} {fs : β → List Event} (h : ErasesTo R x y)
    (hes : ∀ a b, R a b → fs b = (es a).map Event.erased) :
    Event.whenOk y fs = (Event.whenOk x es).map Event.erased := by
  obtain ⟨a, b, rfl, rfl, hab⟩ | ⟨fault, rfl, rfl⟩ := h
  · exact hes a b hab
  · rfl

theorem require (n : Node) (name : String) :
    ErasesTo (fun m m' => m'.1 = m.1.erased) (n.require name) (n.erased.require name) := by
  rcases Option.eq_none_or_eq_some (n.field? name) with h | ⟨m, h⟩
  · have h' : n.erased.field? name = none := by rw [n.field?_erased, h]; rfl
    have hmissing : ∀ {m : Node}, m.field? name = none →
        m.require name = .error (.grammar (.missingField m.kind name)) := by
      intro m hm
      unfold Node.require
      revert hm
      generalize m.field? name = o
      rintro rfl
      rfl
    refine .inr ⟨_, hmissing h, ?_⟩
    rw [hmissing h', n.kind_erased]
    rfl
  · have h' : n.erased.field? name = some m.erased := by rw [n.field?_erased, h]; rfl
    exact .inl ⟨_, _, Node.require_eq_ok h, Node.require_eq_ok h', rfl⟩

theorem declaredType (n : Node) :
    ErasesTo (fun t t' => t' = t) (Event.declaredType n) (Event.declaredType n.erased) := by
  unfold Event.declaredType Analyzer.resolveType
  rw [n.textD_erased]
  split
  · exact .inl ⟨_, _, rfl, rfl, rfl⟩
  · exact .inr ⟨_, rfl, by rw [n.position_erased]; rfl⟩

theorem declaredType? (o : Option Node) :
    ErasesTo (fun t t' => t' = t) (Event.declaredType? o)
      (Event.declaredType? (o.map Node.erased)) := by
  cases o with
  | none => exact .inl ⟨_, _, rfl, rfl, rfl⟩
  | some n =>
    rw [Option.map_some, Event.declaredType?, Event.declaredType?, map_eq_pure_bind,
      map_eq_pure_bind]
    exact (declaredType n).bind fun t t' h => .inl ⟨_, _, rfl, rfl, congrArg some h⟩

theorem params (ps : List Node) :
    ErasesTo (fun xs xs' => xs' = xs.map (Prod.map Node.erased id)) (Event.params ps)
      (Event.params (ps.map Node.erased)) := by
  induction ps with
  | nil => exact .inl ⟨_, _, rfl, rfl, rfl⟩
  | cons p ps ih =>
    rw [List.map_cons, Event.params, Event.params]
    refine (require p "name").bind fun name name' hname => ?_
    refine (require p "type").bind fun type type' htype => ?_
    obtain ⟨_, _⟩ := name'
    obtain ⟨_, _⟩ := type'
    cases hname
    cases htype
    refine (declaredType type.1).bind fun t _ ht => ih.bind fun xs _ hxs => ?_
    exact .inl ⟨_, _, rfl, rfl, by rw [ht, hxs]; rfl⟩

end ErasesTo

end Events

namespace Event

theorem ofExpression_erased :
    (∀ n : Node, ofExpression n.erased = (ofExpression n).map erased) ∧
      (∀ n : Node, ofCall n.erased = (ofCall n).map erased) ∧
      ∀ ns : List Node, ofExpressions (ns.map Node.erased) = (ofExpressions ns).map erased := by
  refine Node.expression_induction ?_ ?_ ?_ ?_ ?_ ?_ ?_
  · intro n tag ht hop ihl ihr
    rw [ofExpression_operator ht hop, ofExpression_operator (n.kind_erased ▸ ht) hop]
    refine (ErasesTo.require n "lhs").whenOk fun ⟨l, hl⟩ l' hl' => ?_
    rw [List.map_append, hl', ihl l hl]
    refine congrArg (_ ++ ·) ((ErasesTo.require n "rhs").whenOk fun ⟨r, hr⟩ r' hr' => ?_)
    rw [hr', ihr r hr]
  · intro n ht ih
    rw [ofExpression_call ht, ofExpression_call (n.kind_erased ▸ ht), ih]
  · intro n tag ht hop hc
    rw [ofExpression_other ht hop hc, ofExpression_other (n.kind_erased ▸ ht) hop hc]
    rfl
  · intro n ht
    rw [ofExpression_leaf ht, ofExpression_leaf (n.kind_erased ▸ ht), n.kind_erased]
    split <;> rfl
  · intro n ih
    rw [ofCall, ofCall]
    refine (ErasesTo.require n "name").whenOk fun name name' hname => ?_
    have hargs : ofExpressions n.erased.arguments = (ofExpressions n.arguments).map erased := by
      unfold Node.arguments
      rw [n.field?_erased]
      cases hf : n.field? "args" with
      | none =>
        simp only [Option.map_none, Option.getD_none, ofExpressions]
        rfl
      | some args =>
        simp only [Option.map_some, Option.getD_some, Node.items_erased]
        exact ih args hf
    rw [List.map_cons, hargs, hname, n.field?_erased]
    cases n.field? "module" <;> rfl
  · rw [List.map_nil, ofExpressions]
    rfl
  · intro n ns ihn ihs
    rw [List.map_cons, ofExpressions, ofExpressions, List.map_append, ihn, ihs]

theorem ofValue_erased (name value : Node) :
    ofValue name.erased value.erased = (ofValue name value).map erased := by
  rw [ofValue, ofValue, List.map_append, ofExpression_erased.1]
  rfl

theorem ofVariableDecl_erased (n : Node) :
    ofVariableDecl n.erased = (ofVariableDecl n).map erased := by
  refine (ErasesTo.require n "name").whenOk fun name name' hname => ?_
  dsimp only
  rw [n.field?_erased]
  refine (ErasesTo.declaredType? _).whenOk fun type type' htype => ?_
  rw [List.map_cons, hname, htype, n.field?_erased]
  cases n.field? "value" with
  | none => rfl
  | some value => exact congrArg (_ :: ·) (ofValue_erased ..)

theorem ofAssignment_erased (n : Node) : ofAssignment n.erased = (ofAssignment n).map erased := by
  refine (ErasesTo.require n "name").whenOk fun name name' hname => ?_
  refine (ErasesTo.require n "value").whenOk fun value value' hvalue => ?_
  dsimp only
  rw [hname, hvalue, List.map_cons, ofValue_erased]
  rfl

theorem ofFunctionDecl_erased {n : Node} (ht : NodeTag.ofName? n.kind = some .functionDecl)
    (ih : ∀ body, n.field? "body" = some body →
      ofStatements (body.items.map Node.erased) = (ofStatements body.items).map erased) :
    ofStatement n.erased = (ofStatement n).map erased := by
  rw [Analysis.ofStatement_functionDecl ht, Analysis.ofStatement_functionDecl (n.kind_erased ▸ ht)]
  refine (ErasesTo.require n "name").whenOk fun name name' hname => ?_
  refine (ErasesTo.require n "body").whenOk fun ⟨body, hbody⟩ body' hbody' => ?_
  have hparams : ((n.erased.field? "params").map (·.items)).getD [] =
      (((n.field? "params").map (·.items)).getD []).map Node.erased := by
    rw [n.field?_erased]
    cases n.field? "params" with
    | none => rfl
    | some ps => exact ps.items_erased
  rw [hparams, n.field?_erased]
  refine (ErasesTo.params _).whenOk fun params params' hparams' => ?_
  refine (ErasesTo.declaredType? _).whenOk fun returns returns' hreturns => ?_
  rw [hname, hbody', hparams', hreturns, Node.textD_erased, Node.items_erased, ih body hbody]
  simp [erased, Function.comp_def]

theorem ofStatement_erased :
    (∀ n : Node, ofStatement n.erased = (ofStatement n).map erased) ∧
      ∀ ns : List Node, ofStatements (ns.map Node.erased) = (ofStatements ns).map erased := by
  refine Node.statement_induction ?_ ?_ ?_ ?_ ?_ ?_ ?_ ?_
  · intro n ht
    rw [ofStatement, ofStatement, n.kind_erased, ht]
    exact ofVariableDecl_erased n
  · intro n ht ih
    exact ofFunctionDecl_erased ht ih
  · intro n ht
    rw [ofStatement, ofStatement, n.kind_erased, ht]
    exact ofAssignment_erased n
  · intro n ht
    rw [ofStatement, ofStatement, n.kind_erased, ht]
    exact ofExpression_erased.2.1 n
  · intro n ht ih
    rw [ofStatement, ofStatement, n.kind_erased, ht]
    dsimp only
    rw [n.items_erased, ih]
    simp [erased]
  · intro n hother
    rw [ofStatement_other hother, ofStatement_other (n.kind_erased ▸ hother)]
    rfl
  · rw [List.map_nil, ofStatements]
    rfl
  · intro n ns ihn ihs
    rw [List.map_cons, ofStatements, ofStatements, List.map_append, ihn, ihs]

end Event

theorem Node.events_erased (tree : Node) : tree.erased.events = tree.events.map Event.erased := by
  rw [events, tree.items_erased, Event.ofStatement_erased.2]
  rfl

theorem Node.typeIn_erased (known : String → Option PrimitiveType) (n : Node) :
    n.erased.typeIn known = n.typeIn known := by
  refine (Node.expression_induction (E := fun n => n.erased.typeIn known = n.typeIn known)
    (C := fun _ => True) (A := fun _ => True) ?_ ?_ ?_ ?_ (fun _ _ => trivial) trivial
    fun _ _ _ _ => trivial).1 n
  · intro n tag ht hop ihl ihr
    rw [typeIn_operator known ht hop, typeIn_operator known (n.kind_erased ▸ ht) hop,
      n.field?_erased, n.field?_erased, Option.bind_map, Option.bind_map]
    refine congr (congrArg _ ?_) ?_
    · cases hl : n.field? "lhs" with
      | none => rfl
      | some l => exact ihl l hl
    · cases hr : n.field? "rhs" with
      | none => rfl
      | some r => exact ihr r hr
  · intro n ht _
    rw [typeIn_tagged known ht rfl, typeIn_tagged known (n.kind_erased ▸ ht) rfl]
  · intro n tag ht hop _
    rw [typeIn_tagged known ht hop, typeIn_tagged known (n.kind_erased ▸ ht) hop]
  · intro n ht
    rw [typeIn_leaf known ht, typeIn_leaf known (n.kind_erased ▸ ht), n.kind_erased,
      n.textD_erased]

/-! ## Analyzers -/

namespace Analyzer

/-- The analyzer without positions and without the text that they are about. -/
def erased (a : Analyzer) : Analyzer := { a with source := {}, scopes := a.scopes.erased }

variable (a : Analyzer)

theorem visible?_erased (name : String) :
    a.erased.visible? name = (a.visible? name).map (Prod.map id Symbol.erased) := by
  unfold visible?
  have hlookup : a.erased.scopes.lookup? a.erased.current name =
      a.scopes.lookup? a.current name := a.scopes.lookup?_erased ..
  rw [hlookup]
  cases a.scopes.lookup? a.current name with
  | none => rfl
  | some i =>
    have hsymbol : a.erased.scopes.symbol? i = (a.scopes.symbol? i).map Symbol.erased :=
      a.scopes.symbol?_erased i
    simp only [bind, Option.bind_some, hsymbol]
    cases a.scopes.symbol? i <;> rfl

theorem variableType?_erased : a.erased.variableType? = a.variableType? := by
  funext name
  rw [variableType?, variableType?, visible?_erased, Option.bind_map]
  rfl

theorem exitScope_erased : a.erased.exitScope = a.exitScope.erased := by
  have hparent : a.erased.scopes.parent? a.erased.current = a.scopes.parent? a.current :=
    a.scopes.parent?_erased _
  unfold exitScope
  rw [hparent]
  cases a.scopes.parent? a.current <;> rfl

theorem register_erased (name : String) (kind : SymbolKind) (position : Nat) :
    (a.erased.register name kind 0).toOption =
      (a.register name kind position).toOption.map erased := by
  have hdefine : a.erased.scopes.define a.erased.current name kind 0 =
      (a.scopes.define a.current name kind position).map (Prod.map id ScopeTree.erased) :=
    a.scopes.define_erased ..
  unfold register
  rw [hdefine]
  cases a.scopes.define a.current name kind position <;> rfl

theorem assign_erased (name : String) (type : Option PrimitiveType) (position : Nat) :
    (a.erased.assign name type 0).toOption = (a.assign name type position).toOption.map erased := by
  unfold assign
  rw [visible?_erased]
  cases type with
  | none => rfl
  | some found =>
    rcases a.visible? name with _ | ⟨i, y, (_ | expected) | _, p, s⟩
    · rfl
    · have hset := a.scopes.setKind_erased i (.variable (some found))
      exact congrArg (fun scopes => some { a.erased with scopes }) hset.symm
    · show Except.toOption (if found = expected then _ else _) =
        (Except.toOption (if found = expected then _ else _)).map erased
      split <;> rfl
    · rfl

/-- The step lemma: an event does the same without positions. -/
theorem step_erased (e : Event) :
    (a.erased.step e.erased).toOption = (a.step e).toOption.map erased := by
  cases e with
  | enter name kind =>
    have hadd := a.scopes.addChild_erased a.current name kind
    exact congrArg (fun x => some { a.erased with scopes := x.2, current := x.1 }) hadd
  | leave => exact congrArg some a.exitScope_erased
  | declare n kind =>
    rw [Event.erased, step, step, n.textD_erased, n.position_erased]
    exact a.register_erased ..
  | use n =>
    rw [Event.erased, step, step, n.textD_erased, n.position_erased]
    have huse := a.scopes.addLocalRef_erased a.current n.textD n.position
    exact congrArg (fun scopes => some { a.erased with scopes }) huse.symm
  | useRemote module n =>
    rw [Event.erased, step, step, module.textD_erased, n.textD_erased, n.position_erased]
    have huse := a.scopes.addRemoteRef_erased a.current n.textD module.textD n.position
    exact congrArg (fun scopes => some { a.erased with scopes }) huse.symm
  | assign n value =>
    rw [Event.erased, step, step, n.textD_erased, value.position_erased, value.typeIn_erased,
      variableType?_erased]
    exact a.assign_erased ..
  | refuse fault => rfl

/-- The run lemma. -/
theorem follow_erased (es : List Event) :
    (a.erased.follow (es.map Event.erased)).toOption = (a.follow es).toOption.map erased := by
  induction es generalizing a with
  | nil => rfl
  | cons e es ih =>
    have hstep := a.step_erased e
    rw [List.map_cons, follow_cons, follow_cons]
    cases hc : a.erased.step e.erased <;> cases hb : a.step e <;> rw [hc, hb] at hstep
    · rfl
    · cases hstep
    · cases hstep
    · next c b =>
      obtain rfl : c = b.erased := Option.some.inj hstep
      exact ih b

end Analyzer

end JayFrontEnd
