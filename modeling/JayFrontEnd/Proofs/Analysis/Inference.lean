import JayFrontEnd.Proofs.Analysis.Faults
import JayFrontEnd.Proofs.Analysis.Record
import JayFrontEnd.Proofs.Grammar.Terms

/-!
# What an expression tells

Inference comes to an end on the tree of every expression. It notes, in the current scope, the names
that stand among the tokens, and it gives a type if and only if all operands have it, however the
operators are nested. `Inferred` says so of a phrase in an expression, for any analyzer, and the
induction that proves it goes along the tree of the phrase.
-/

namespace JayFrontEnd

open Analysis

/-! ## Noting uses -/

/-- Those that are not like any known one, each the first of its like. -/
def fresh {α : Type} (like : α → α → Bool) (known xs : List α) : List α :=
  (xs.filter fun x => !known.any (like x)).eraseDupsBy like

theorem fresh_append {α : Type} (like : α → α → Bool) (known xs ys : List α) :
    known ++ fresh like known (xs ++ ys) =
      known ++ fresh like known xs ++ fresh like (known ++ fresh like known xs) ys := by
  unfold fresh
  simp only [← foldl_addNew, List.foldl_append]

theorem fresh_singleton {α : Type} (like : α → α → Bool) (known : List α) (x : α) :
    fresh like known [x] = if known.any (like x) then [] else [x] := by
  cases h : known.any (like x) <;> simp [fresh, h, List.eraseDupsBy_cons]

@[simp] theorem fresh_nil {α : Type} (like : α → α → Bool) (known : List α) :
    fresh like known [] = [] := rfl

theorem ScopeTree.modifyScope_congr {t : ScopeTree} {s : ScopeId} {f g : Scope → Scope}
    (h : ∀ x, t.scope? s = some x → f x = g x) : t.modifyScope s f = t.modifyScope s g := by
  refine congrArg (fun scopes => { t with scopes }) (List.ext_getElem? fun r => ?_)
  rw [List.getElem?_modify, List.getElem?_modify]
  split
  · next hr =>
    subst hr
    cases hx : t.scopes[s]? with
    | none => rfl
    | some x => exact congrArg some (h x hx)
  · rfl

theorem ScopeTree.modifyScope_id (t : ScopeTree) (s : ScopeId) : t.modifyScope s id = t := by
  rw [modifyScope, List.modify_id]

def Scope.noting (ms : List Mention) (x : Scope) : Scope :=
  { x with
    localRefs := x.localRefs ++ fresh LocalRef.same x.localRefs (ms.filterMap Mention.localRef?)
    remoteRefs :=
      x.remoteRefs ++ fresh RemoteRef.same x.remoteRefs (ms.filterMap Mention.remoteRef?) }

/-- The analyzer with uses noted in its current scope. -/
def Analyzer.noting (a : Analyzer) (ms : List Mention) : Analyzer :=
  { a with scopes := a.scopes.modifyScope a.current (·.noting ms) }

namespace Analyzer

variable (a : Analyzer)

theorem noting_nil : a.noting [] = a := by
  have hid : (Scope.noting []) = id := by
    funext x
    simp [Scope.noting, fresh]
  rw [noting, hid, ScopeTree.modifyScope_id]

theorem noting_noting (ms ms' : List Mention) :
    (a.noting ms).noting ms' = a.noting (ms ++ ms') := by
  have hcomp : Scope.noting ms' ∘ Scope.noting ms = Scope.noting (ms ++ ms') := by
    funext x
    simp only [Scope.noting, Function.comp_apply, List.filterMap_append, fresh_append]
  simp only [noting, ScopeTree.modifyScope, List.modify_modify_eq, hcomp]

theorem expectLocal_eq (n : Node) : a.expectLocal n.textD n.position = a.noting [.used n] := by
  refine congrArg (fun scopes => { a with scopes }) ?_
  have hnoting : ∀ x, a.scopes.scope? a.current = some x → x.noting [.used n] =
      if (a.scopes.localRefs a.current).any (·.name == n.textD) then x
      else { x with
        localRefs := x.localRefs ++ [{ name := n.textD, position := n.position }] } := by
    intro x hx
    have hlike : LocalRef.same ⟨n.textD, n.position, .pending⟩ = fun y => y.name == n.textD :=
      funext fun _ => BEq.comm
    simp only [ScopeTree.localRefs, hx, Option.map_some, Option.getD_some, Scope.noting,
      List.filterMap_cons, List.filterMap_nil, Mention.localRef?, Mention.remoteRef?, fresh_nil,
      fresh_singleton, hlike, List.append_nil]
    split <;> simp only [List.append_nil]
  rw [ScopeTree.modifyScope_congr hnoting, ScopeTree.addLocalRef]
  split
  · exact (ScopeTree.modifyScope_id ..).symm
  · rfl

theorem expectRemote_eq (m n : Node) :
    a.expectRemote m.textD n.textD n.position = a.noting [.called m n] := by
  refine congrArg (fun scopes => { a with scopes }) ?_
  have hnoting : ∀ x, a.scopes.scope? a.current = some x → x.noting [.called m n] =
      if (a.scopes.remoteRefs a.current).any fun r => r.module == m.textD && r.name == n.textD
      then x
      else { x with remoteRefs := x.remoteRefs ++
        [{ module := m.textD, name := n.textD, position := n.position }] } := by
    intro x hx
    have hlike : RemoteRef.same ⟨m.textD, n.textD, n.position, .pending⟩ =
        fun y => y.module == m.textD && y.name == n.textD :=
      funext fun _ => congrArg₂ and BEq.comm BEq.comm
    simp only [ScopeTree.remoteRefs, hx, Option.map_some, Option.getD_some, Scope.noting,
      List.filterMap_cons, List.filterMap_nil, Mention.localRef?, Mention.remoteRef?, fresh_nil,
      fresh_singleton, hlike, List.append_nil]
    split <;> simp only [List.append_nil]
  rw [ScopeTree.modifyScope_congr hnoting, ScopeTree.addRemoteRef]
  split
  · exact (ScopeTree.modifyScope_id ..).symm
  · rfl

theorem variableType?_noting (ms : List Mention) :
    (a.noting ms).variableType? = a.variableType? := by
  have hsame : ScopeTree.SameDeclarations a.scopes (a.noting ms).scopes :=
    .modifyScope (fun _ => rfl) (fun _ => rfl) fun _ => rfl
  funext name
  simp only [variableType?, visible?_of_sameDeclarations hsame rfl]

end Analyzer

/-! ## Operands -/

namespace Node

/-- The operands of an expression, from left to right. -/
def operands (n : Node) : List Node :=
  match NodeTag.ofName? n.kind with
  | some tag =>
    if tag.isOperator then
      ((n.part "lhs").attach.flatMap fun ⟨l, _⟩ => l.operands) ++
        (n.part "rhs").attach.flatMap fun ⟨r, _⟩ => r.operands
    else [n]
  | none => [n]
termination_by sizeOf n
decreasing_by
  · exact sizeOf_lt_of_mem_part ‹_›
  · exact sizeOf_lt_of_mem_part ‹_›

variable {n l r : Node} {tag : NodeTag}

theorem operands_operator (ht : NodeTag.ofName? n.kind = some tag) (hop : tag.isOperator = true)
    (hl : n.field? "lhs" = some l) (hr : n.field? "rhs" = some r) :
    n.operands = l.operands ++ r.operands := by
  rw [operands, ht]
  simp only [hop, if_true, List.flatMap_subtype, List.unattach_attach, part_eq hl, part_eq hr,
    List.flatMap_singleton]

theorem operands_other (hn : ∀ tag ∈ NodeTag.ofName? n.kind, tag.isOperator = false) :
    n.operands = [n] := by
  rw [operands]
  split
  · next tag ht => rw [hn tag ht, if_neg Bool.false_ne_true]
  · rfl

end Node

theorem operatorType_eq_some_iff {l r : Option PrimitiveType} {T : PrimitiveType} :
    operatorType l r = some T ↔ l = some T ∧ r = some T := by
  cases l with
  | none => simp [operatorType]
  | some l =>
    cases r with
    | none => simp [operatorType]
    | some r =>
      simp only [operatorType]
      split
      · next h => simp [h]
      · next h =>
        refine iff_of_false nofun fun hc => h ?_
        rw [Option.some.inj hc.1, Option.some.inj hc.2]

/-! ## The names among tokens -/

/-- The names that are used among the tokens of an expression, where a name behind another one and
a dot is that of another module. -/
def usesIn : List Token → List Mention
  | t :: d :: f :: ts =>
    if t.kind = TokenKind.identifier.name then
      if d.kind = TokenKind.dot.name then .called (.ofToken t) (.ofToken f) :: usesIn ts
      else .used (.ofToken t) :: usesIn (d :: f :: ts)
    else usesIn (d :: f :: ts)
  | t :: ts =>
    if t.kind = TokenKind.identifier.name then .used (.ofToken t) :: usesIn ts else usesIn ts
  | [] => []

/-- No dot comes first. -/
def Undotted (v : List Token) : Prop := ∀ t ∈ v.head?, t.kind ≠ TokenKind.dot.name

theorem usesIn_other {t : Token} {k : TokenKind} (ht : t.Is k) (hk : k ≠ .identifier)
    (v : List Token) : usesIn (t :: v) = usesIn v := by
  have hne : ¬ t.kind = TokenKind.identifier.name := fun h =>
    hk (TokenKind.name_injective (ht.symm.trans h))
  match v with
  | [] | [_] => rw [usesIn, if_neg hne]; nofun
  | _ :: _ :: _ => rw [usesIn, if_neg hne]

theorem usesIn_name {t : Token} (ht : t.Is .identifier) {v : List Token} (hv : Undotted v) :
    usesIn (t :: v) = .used (.ofToken t) :: usesIn v := by
  have hkind : t.kind = TokenKind.identifier.name := ht
  match v with
  | [] | [_] => rw [usesIn, if_pos hkind]; nofun
  | d :: _ :: _ => rw [usesIn, if_pos hkind, if_neg (hv d rfl)]

theorem usesIn_member {t d f : Token} (ht : t.Is .identifier) (hd : d.Is .dot) (v : List Token) :
    usesIn (t :: d :: f :: v) = .called (.ofToken t) (.ofToken f) :: usesIn v := by
  have hkind : t.kind = TokenKind.identifier.name := ht
  have hdot : d.kind = TokenKind.dot.name := hd
  rw [usesIn, if_pos hkind, if_pos hdot]

theorem undotted_cons {t : Token} {k : TokenKind} (ht : t.Is k) (hk : k ≠ .dot) (v : List Token) :
    Undotted (t :: v) := by
  rintro _ ⟨⟩ h
  exact hk (TokenKind.name_injective (ht.symm.trans h))

theorem Undotted.append {v u : List Token} (hv : Undotted v) (hu : Undotted u) :
    Undotted (v ++ u) := by
  cases v with
  | nil => exact hu
  | cons t v => exact hv

/-! ## Phrases -/

section Phrases

variable {w v : List Token} {n l r : Node} {ns : List Node} {tag : NodeTag}

theorem tag_ofToken {t : Token} {k : TokenKind} (ht : t.Is k) :
    NodeTag.ofName? (Node.ofToken t).kind = none :=
  (congrArg NodeTag.ofName? ht).trans (ofName?_tokenKind k)

theorem kind_ofToken {t : Token} {k : TokenKind} (ht : t.Is k) :
    TokenKind.ofName? (Node.ofToken t).kind = some k := by
  refine (congrArg TokenKind.ofName? ht).trans ?_
  cases k <;> decide

/-- What comes of inferring some expressions one after another: the names among the tokens are
noted. -/
structure AllInferred (w : List Token) (ns : List Node) : Prop where
  result : ∀ a, inferAll ns a = (.ok (), a.noting (ns.flatMap Node.namesIn))
  uses : ∀ v, Undotted v → usesIn (w ++ v) = ns.flatMap Node.namesIn ++ usesIn v

/-- What comes of inferring one expression, and its operands are names and literals among the
tokens, or calls. -/
structure Inferred (w : List Token) (n : Node) : Prop where
  result : ∀ a, infer n a = (.ok (n.typeIn a.variableType?), a.noting n.namesIn)
  uses : ∀ v, Undotted v → usesIn (w ++ v) = n.namesIn ++ usesIn v
  type : ∀ {known T}, n.typeIn known = some T ↔ ∀ o ∈ n.operands, o.typeIn known = some T
  operands : ∀ o ∈ n.operands, o.kind = NodeTag.functionCall.name ∨
    ∃ t ∈ w, ∃ k ∈ operandKinds, t.Is k ∧ o = .ofToken t

theorem Analysis.bind_apply {α β : Type} {m : Analysis α} {f : α → Analysis β} {a b : Analyzer}
    {x : α} (h : m a = (.ok x, b)) : (m >>= f) a = f x b := by
  simp only [bind, ExceptT.bind, ExceptT.mk, StateT.bind, ExceptT.bindCont, h]

theorem Analysis.require_bind_apply {α : Type} {m : Node} {name : String}
    {f : { m : Node // n.field? name = some m } → Analysis α} (h : n.field? name = some m)
    (a : Analyzer) : (liftM (n.require name) >>= f) a = f ⟨m, h⟩ a := by
  rw [Node.require_eq_ok h]
  rfl

namespace Inferred

theorem operator {sign : Token} {k : TokenKind} (hl : Inferred w l) (hr : Inferred v r)
    (hs : sign.Is k) (hk : k ∉ [TokenKind.identifier, .dot])
    (ht : NodeTag.ofName? n.kind = some tag) (hop : tag.isOperator = true)
    (hlhs : n.field? "lhs" = some l) (hrhs : n.field? "rhs" = some r) :
    Inferred (w ++ sign :: v) n := by
  have hnames : n.namesIn = l.namesIn ++ r.namesIn := by
    rw [Node.namesIn_operator ht hop, Node.part_eq hlhs, Node.part_eq hrhs,
      List.flatMap_singleton, List.flatMap_singleton]
  have htype : ∀ known, n.typeIn known = operatorType (l.typeIn known) (r.typeIn known) := by
    intro known
    rw [Node.typeIn_operator known ht hop, hlhs, hrhs]
    rfl
  have hoperands := Node.operands_operator ht hop hlhs hrhs
  simp only [List.mem_cons, List.not_mem_nil, or_false, not_or] at hk
  refine ⟨fun a => ?_, fun u hu => ?_, ?_, ?_⟩
  · rw [infer_operator ht hop, require_bind_apply hlhs, bind_apply (hl.result a),
      require_bind_apply hrhs, bind_apply (hr.result _), Analyzer.variableType?_noting,
      Analyzer.noting_noting, hnames, htype]
    rfl
  · rw [List.append_assoc, List.cons_append, hl.uses _ (undotted_cons hs hk.2 _),
      usesIn_other hs hk.1, hr.uses u hu, hnames, List.append_assoc]
  · intro known T
    rw [htype, operatorType_eq_some_iff, hl.type, hr.type, hoperands, List.forall_mem_append]
  · rw [hoperands]
    refine List.forall_mem_append.2 ⟨fun o ho => ?_, fun o ho => ?_⟩
    · exact (hl.operands o ho).imp_right fun ⟨t, ht, h⟩ => ⟨t, List.mem_append_left _ ht, h⟩
    · refine (hr.operands o ho).imp_right fun ⟨t, ht, h⟩ => ⟨t, ?_, h⟩
      exact List.mem_append_right _ (List.mem_cons_of_mem _ ht)

theorem token {t : Token} {k : TokenKind} (hk : k ∈ operandKinds) (ht : t.Is k) :
    Inferred [t] (.ofToken t) := by
  have htag := tag_ofToken ht
  have hname := kind_ofToken ht
  have hoperands : (Node.ofToken t).operands = [.ofToken t] :=
    Node.operands_other fun tag h => by rw [htag] at h; cases h
  refine ⟨fun a => ?_, fun v hv => ?_, ?_, ?_⟩
  · rw [infer_leaf htag, Node.typeIn_leaf _ htag, Node.namesIn_leaf htag, hname]
    split
    · show (Except.ok ((a.expectLocal _ _).variableType? _), a.expectLocal _ _) = _
      rw [Analyzer.expectLocal_eq, Analyzer.variableType?_noting]
    · rw [Analyzer.noting_nil]
      rfl
  · rw [Node.namesIn_leaf htag, hname]
    split
    · next h =>
      obtain rfl := Option.some.inj h
      exact usesIn_name ht hv
    · next h => exact usesIn_other ht (fun hc => h (congrArg some hc)) v
  · intro known T
    rw [hoperands, List.forall_mem_singleton]
  · rw [hoperands]
    exact List.forall_mem_singleton.2 (.inr ⟨t, List.mem_singleton_self t, k, hk, ht, rfl⟩)

theorem call {u : List Token} {name : Node} (ht : NodeTag.ofName? n.kind = some .functionCall)
    (hname : n.field? "name" = some name) (hargs : AllInferred w n.arguments)
    (hu : ∀ v, Undotted v → usesIn (u ++ v) = n.callee ++ usesIn v) {opening closing : Token}
    (ho : opening.Is .parenStart) (hc : closing.Is .parenEnd) :
    Inferred (u ++ opening :: (w ++ [closing])) n := by
  have hkind : n.kind = NodeTag.functionCall.name := (beq_iff_eq.1 (List.find?_some ht :)).symm
  have hoperands : n.operands = [n] :=
    Node.operands_other fun tag h => by rw [ht] at h; cases h; rfl
  have hcall : ∀ a, functionCall n a = (.ok (), a.noting n.namesIn) := by
    intro a
    rw [functionCall_eq, require_bind_apply hname, Node.namesIn_call ht, Node.callee,
      Node.part_eq hname, List.map_singleton, ← Analyzer.noting_noting]
    refine (bind_apply (x := ()) ?_).trans (hargs.result _)
    cases n.field? "module" with
    | none => exact congrArg (Prod.mk _) (a.expectLocal_eq name)
    | some m => exact congrArg (Prod.mk _) (a.expectRemote_eq m name)
  refine ⟨fun a => ?_, fun v hv => ?_, ?_, ?_⟩
  · rw [infer, ht, Node.typeIn_tagged _ ht rfl]
    exact bind_apply (hcall a)
  · have hclosing : Undotted (closing :: v) := undotted_cons hc (by decide) v
    rw [List.append_assoc, List.cons_append, hu _ (undotted_cons ho (by decide) _),
      usesIn_other ho (by decide), List.append_assoc, List.singleton_append,
      hargs.uses _ hclosing, usesIn_other hc (by decide), Node.namesIn_call ht, List.append_assoc]
  · intro known T
    rw [hoperands, List.forall_mem_singleton]
  · rw [hoperands]
    exact List.forall_mem_singleton.2 (.inl hkind)

theorem parenthesis {opening closing : Token} (ho : opening.Is .parenStart) (h : Inferred w n)
    (hc : closing.Is .parenEnd) : Inferred (opening :: (w ++ [closing])) n where
  result := h.result
  uses v hv := by
    rw [List.cons_append, usesIn_other ho (by decide), List.append_assoc, List.singleton_append,
      h.uses _ (undotted_cons hc (by decide) v), usesIn_other hc (by decide)]
  type := h.type
  operands o hmem := (h.operands o hmem).imp_right fun ⟨t, ht, h⟩ =>
    ⟨t, List.mem_cons_of_mem _ (List.mem_append_left _ ht), h⟩

end Inferred

namespace AllInferred

theorem nil : AllInferred [] [] where
  result a := by
    rw [inferAll, List.flatMap_nil, Analyzer.noting_nil]
    rfl
  uses _ _ := rfl

theorem cons (h : Inferred w n) (hns : AllInferred v ns) (hv : Undotted v) :
    AllInferred (w ++ v) (n :: ns) where
  result a := by
    rw [inferAll, bind_apply (h.result a), hns.result, Analyzer.noting_noting,
      List.flatMap_cons]
  uses u hu := by
    rw [List.append_assoc, h.uses _ (hv.append hu), hns.uses u hu, List.flatMap_cons,
      List.append_assoc]

/-- What stands behind commas. -/
theorem others {xs : List (List Token × Node)} (hled : ∀ x ∈ xs, LedBy .comma x.1)
    (hxs : ∀ x ∈ xs, Inferred x.1.tail x.2) :
    AllInferred (xs.flatMap (·.1)) (xs.map (·.2)) ∧ Undotted (xs.flatMap (·.1)) := by
  induction xs with
  | nil => exact ⟨.nil, nofun⟩
  | cons x xs ih =>
    obtain ⟨hx, hxs⟩ := List.forall_mem_cons.1 hxs
    obtain ⟨⟨comma, hhead, hcomma⟩, hled⟩ := List.forall_mem_cons.1 hled
    obtain ⟨hrest, hundotted⟩ := ih hled hxs
    obtain ⟨v, hv⟩ := List.head?_eq_some_iff.1 hhead
    rw [hv, List.tail_cons] at hx
    have hcons := AllInferred.cons hx hrest hundotted
    rw [List.flatMap_cons, hv, List.map_cons]
    refine ⟨⟨hcons.result, fun u hu => ?_⟩, undotted_cons hcomma (by decide) _⟩
    rw [List.cons_append, List.cons_append, usesIn_other hcomma (by decide)]
    exact hcons.uses u hu

end AllInferred

/-- What comes of inferring the tree of a phrase in an expression. -/
def Infers (w : List Token) (n : Node) : Nonterminal → Prop
  | .expression | .product | .parenthesis | .functionCall | .basicExpression => Inferred w n
  | .callArgs => AllInferred w n.items
  | _ => True

theorem Infers.of_mem_choices {r q : Nonterminal} (hr : r = .expression ∨ r = .product)
    (hq : q ∈ r.choices) (h : Infers w n q) : Inferred w n := by
  rcases hr with rfl | rfl
  · obtain rfl := List.mem_singleton.1 hq
    exact h
  · simp only [Nonterminal.choices, List.mem_cons, List.not_mem_nil, or_false] at hq
    rcases hq with rfl | rfl | rfl <;> exact h

theorem not_name_of_mem_operators {r : Nonterminal} {k : TokenKind} (h : k ∈ r.operators) :
    k ∉ [TokenKind.identifier, .dot] := by
  cases r with
  | expression | product => rcases List.mem_pair.1 h with rfl | rfl <;> decide
  | _ => cases h

/-- The induction is on how the tree is spelled. -/
theorem infers_of_spells {r : Nonterminal} (h : Spells r w n) : Infers w n r := by
  induction h with
  | @list r q w first others start hq _ _ hled _ ih ihs =>
    cases r with
    | callArgs =>
      cases hq
      obtain ⟨hothers, hundotted⟩ := AllInferred.others hled ihs
      exact .cons ih hothers hundotted
    | params => trivial
    | _ => cases hq
  | @functionCall first opening closing member args hf hm ho _ hc ih =>
    rw [← List.cons_append]
    refine Inferred.call rfl rfl ?_ (fun v hv => ?_) ho hc
    · cases args with
      | none => exact .nil
      | some x => exact ih x rfl
    · cases member with
      | none => exact usesIn_name hf hv
      | some x => exact usesIn_member hf (hm x rfl).1 v
  | @operand r q w n hr hq _ ih =>
    have hinferred := Infers.of_mem_choices hr hq ih
    rcases hr with rfl | rfl <;> exact hinferred
  | @operator r q w v left right sign k start hq _ _ hk hs _ ih ih' =>
    obtain ⟨tag, ht, hop⟩ := exists_tag_binary start left right hk hs
    cases r with
    | expression | product =>
      have hleft := Infers.of_mem_choices (by simp) hq ih
      exact .operator hleft ih' hs (not_name_of_mem_operators hk) ht hop rfl rfl
    | _ => cases hk
  | parenthesis ho _ hc ih => exact .parenthesis ho ih hc
  | basicExpression hk ht => exact .token hk ht
  | _ => trivial

end Phrases

/-! ## Types -/

section Types

variable {a : Analyzer} {o n : Node} {w : List Token} {T : PrimitiveType}

theorem variableType?_eq_some_iff {name : String} :
    a.variableType? name = some T ↔
      ∃ i y, a.visible? name = some (i, y) ∧ y.kind = .variable (some T) := by
  have hkind : ∀ y : Symbol, y.variableType? = some T ↔ y.kind = .variable (some T) := by
    intro y
    unfold Symbol.variableType?
    split
    · next h => simp [h]
    · next h => simp [h]
  simp only [Analyzer.variableType?, Option.bind_eq_some_iff, hkind, Prod.exists]

theorem ofLiteral?_eq_some_iff {k : TokenKind} :
    PrimitiveType.ofLiteral? k = some T ↔ k = T.literal := by
  cases T <;> cases k <;> decide

/-- The operand is a literal of the type, or a name whose nearest symbol is a variable of it. -/
def HasType (a : Analyzer) (T : PrimitiveType) (o : Node) : Prop :=
  o.kind = T.literal.name ∨ o.kind = TokenKind.identifier.name ∧
    ∃ i y, a.visible? o.textD = some (i, y) ∧ y.kind = .variable (some T)

theorem typeIn_ofToken_eq_some_iff {t : Token} {k : TokenKind} (ht : t.Is k) :
    (Node.ofToken t).typeIn a.variableType? = some T ↔ HasType a T (.ofToken t) := by
  have hkind : (Node.ofToken t).kind = k.name := ht
  have hsame : ∀ l : TokenKind, k.name = l.name ↔ k = l :=
    fun l => ⟨fun h => TokenKind.name_injective h, congrArg _⟩
  rw [Node.typeIn_leaf _ (tag_ofToken ht), kind_ofToken ht, HasType, hkind, hsame, hsame]
  split
  · next h =>
    obtain rfl := Option.some.inj h
    have hliteral : TokenKind.identifier ≠ T.literal := by cases T <;> decide
    rw [variableType?_eq_some_iff]
    simp [hliteral]
  · next h =>
    have hne : k ≠ .identifier := fun hc => h (congrArg some hc)
    rw [Option.bind_some, ofLiteral?_eq_some_iff]
    simp [hne]

/-- What inference makes of the tree of some tokens, in whatever state the analyzer is. -/
structure InfersFrom (w : List Token) (n : Node) : Prop where
  /-- The operands are calls, or names and literals among the tokens. -/
  operands : ∀ o ∈ n.operands, o.kind = NodeTag.functionCall.name ∨
    ∃ t ∈ w, ∃ k ∈ operandKinds, t.Is k ∧ o = .ofToken t
  /-- Inference succeeds and changes nothing but that it notes the names among the tokens. There is
  a type if no operand is a call and all have the type. -/
  result : ∀ a, ∃ type, infer n a = (.ok type, a.noting (usesIn w)) ∧
    ∀ T, type = some T ↔
      ∀ o ∈ n.operands, o.kind ≠ NodeTag.functionCall.name ∧ HasType a T o

theorem IsExpression.infersFrom (h : IsExpression w n) : InfersFrom w n := by
  have hinferred : Inferred w n := infers_of_spells (isExpression_iff_spells.1 h)
  refine ⟨hinferred.operands, fun a => ⟨n.typeIn a.variableType?, ?_, fun T => ?_⟩⟩
  · have huses := hinferred.uses [] nofun
    rw [List.append_nil, usesIn, List.append_nil] at huses
    rw [huses]
    exact hinferred.result a
  · refine hinferred.type.trans (forall₂_congr fun o ho => ?_)
    rcases hinferred.operands o ho with hcall | ⟨t, -, k, hk, ht, rfl⟩
    · have htag : NodeTag.ofName? o.kind = some .functionCall := by rw [hcall]; decide
      simp [Node.typeIn_tagged _ htag rfl, hcall]
    · have hne : (Node.ofToken t).kind ≠ NodeTag.functionCall.name := by
        rw [show (Node.ofToken t).kind = k.name from ht]
        cases k <;> decide
      rw [typeIn_ofToken_eq_some_iff ht, and_iff_right hne]

def Node.reading (o : Node) : String × String := (o.kind, o.textD)

/-- The type hangs on nothing but which operands there are. -/
theorem InfersFrom.type_eq {w' : List Token} {n' : Node} (h : InfersFrom w n)
    (h' : InfersFrom w' n')
    (hsame : ∀ x, x ∈ n.operands.map Node.reading ↔ x ∈ n'.operands.map Node.reading)
    (a : Analyzer) : (infer n a).1 = (infer n' a).1 := by
  obtain ⟨type, hresult, htype⟩ := h.result a
  obtain ⟨type', hresult', htype'⟩ := h'.result a
  let Has (T : PrimitiveType) (x : String × String) : Prop :=
    x.1 ≠ NodeTag.functionCall.name ∧ (x.1 = T.literal.name ∨ x.1 = TokenKind.identifier.name ∧
      ∃ i y, a.visible? x.2 = some (i, y) ∧ y.kind = .variable (some T))
  have hall : ∀ T (os : List Node), (∀ o ∈ os, o.kind ≠ NodeTag.functionCall.name ∧
      HasType a T o) ↔ ∀ x ∈ os.map Node.reading, Has T x :=
    fun T os => by rw [List.forall_mem_map]; rfl
  rw [hresult, hresult']
  refine congrArg Except.ok (Option.ext fun T => ?_)
  rw [htype, htype', hall, hall]
  exact forall_congr' fun x => imp_congr_left (hsame x)

end Types

/-- The name that is mentioned, behind that of its module. -/
def Mention.told : Mention → Option String × String
  | .called m n => (some m.textD, n.textD)
  | m => (none, m.name.textD)

namespace Jay

/-- What the rule of expressions takes is an expression that is inferred from its tokens, and so is
every expression in the tree of a module. Two expressions with the same operands, in whatever order
and however nested, have the same type. -/
theorem infer_expressions {ts : List Token} {hasModule? : Option (String → Bool)} :
    (∀ s n t, grammar.apply Nonterminal.expression.name ⟨.tokens ts, hasModule?⟩ s = (.ok n, t) →
      let w := (ts.drop s.cursor).take (t.cursor - s.cursor)
      IsExpression w n ∧ InfersFrom w n) ∧
    (∀ out, parse hasModule? ts = .ok out → ∀ m ∈ out.tree.subtrees, ∀ e ∈ m.expressions,
      ∃ w, w <:+: ts ∧ IsExpression w e ∧ InfersFrom w e) ∧
    ∀ w n w' n', IsExpression w n → IsExpression w' n' →
      (∀ x, x ∈ n.operands.map Node.reading ↔ x ∈ n'.operands.map Node.reading) →
      ∀ a, (infer n a).1 = (infer n' a).1 := by
  refine ⟨fun s n t hrun => ?_, fun out hout m hm e he => ?_, fun w n w' n' hn hn' hsame a =>
    hn.infersFrom.type_eq hn'.infersFrom hsame a⟩
  · have h := isExpression_of_run hrun
    exact ⟨h, h.infersFrom⟩
  · obtain ⟨sign, w, after, k, -, -, hw, h, -⟩ := writes_of_parse hout m hm e he
    have hinfix := (List.prefix_append w after).isInfix.trans (suffix_of_cons hw).isInfix
    exact ⟨w, hinfix, h, h.infersFrom⟩

/-- A product with a difference in parentheses, in which a function is called with what another
module's function gives. -/
def operandsAndCalls : List Char := "var x = a * (2 - f(m.g(b)))\n".toList

theorem infer_expressions_operandsAndCalls : ∃ ts out n t,
    lex TokenRule.jay operandsAndCalls = .ok ts ∧ parse none ts = .ok out ∧
    grammar.apply Nonterminal.expression.name ⟨.tokens ts, none⟩ { cursor := 3 } = (.ok n, t) ∧
    t.cursor = 18 ∧
    (usesIn ((ts.drop 3).take 15)).map Mention.told =
      [(none, "a"), (none, "f"), (some "m", "g"), (none, "b")] ∧
    InfersFrom ((ts.drop 3).take 15) n ∧
    ∀ m ∈ out.tree.subtrees, ∀ e ∈ m.expressions,
      ∃ w, w <:+: ts ∧ IsExpression w e ∧ InfersFrom w e := by
  have h : (do
      let ts ← (lex TokenRule.jay operandsAndCalls).toOption
      let _ ← (parse none ts).toOption
      let answer :=
        grammar.apply Nonterminal.expression.name ⟨.tokens ts, none⟩ { cursor := 3 }
      let _ ← answer.1.toOption
      pure (answer.2.cursor, (usesIn ((ts.drop 3).take 15)).map Mention.told)) =
        some (18, [(none, "a"), (none, "f"), (some "m", "g"), (none, "b")]) := by
    decide +kernel
  obtain ⟨ts, hlex, h⟩ := Option.bind_eq_some_iff.1 h
  obtain ⟨out, hparse, h⟩ := Option.bind_eq_some_iff.1 h
  obtain ⟨n, hn, h⟩ := Option.bind_eq_some_iff.1 h
  rw [Except.toOption_eq_some] at hlex hparse hn
  obtain ⟨hcursor, huses⟩ := Prod.mk.inj (Option.some.inj h)
  have hrun : grammar.apply Nonterminal.expression.name ⟨.tokens ts, none⟩ { cursor := 3 } =
      (.ok n, _) := Prod.ext hn rfl
  obtain ⟨hruns, hall, -⟩ := @infer_expressions ts none
  have hinfers := (hruns _ _ _ hrun).2
  rw [hcursor] at hinfers
  exact ⟨ts, out, n, _, hlex, hparse, hrun, hcursor, huses, hinfers, hall out hparse⟩

end Jay

end JayFrontEnd
