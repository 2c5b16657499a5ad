import JayFrontEnd.Proofs.Analysis.Faults
import JayFrontEnd.Proofs.Analysis.Outline

/-!
# What is found stands in the order of the text

The names that a tree mentions stand where some of its tokens do, in their order, and so do its
functions and blocks. `marks` are the places of the tokens but for line breaks, which no name and no
scope stands at; in the tokens of a text they are all different.
-/

namespace JayFrontEnd

open Finding

/-- Where the tokens stand, but for line breaks and the end. -/
def marks (w : List Token) : List Nat := (w.filter (!·.isLayout)).map (·.position)

def Mention.places (ms : List Mention) : List Nat := ms.map (·.name.position)

/-- Where the names stand that are mentioned among what is found. -/
def Finding.places (fs : List Finding) : List Nat :=
  fs.filterMap fun f => f.2.getLeft?.map (·.name.position)

section marks

variable {v w : List Token}

@[simp] theorem marks_append : marks (v ++ w) = marks v ++ marks w := by
  simp [marks]

theorem marks_sublist (h : v.Sublist w) : (marks v).Sublist (marks w) :=
  (h.filter _).map _

theorem marks_cons {t : Token} {k : TokenKind} (ht : t.Is k) (hk : k ≠ .newline) :
    marks (t :: w) = t.position :: marks w := by
  have hmark : t.isLayout = false := by
    unfold Token.isLayout
    rw [ht]
    cases k <;> first | rfl | exact absurd rfl hk
  simp [marks, hmark]

/-- Each piece of a list is found in its tokens, so the whole is. -/
theorem flatMap_sublist_marks {g : Node → List Nat} {f : List Token × Node → List Token}
    {xs : List (List Token × Node)} (h : ∀ x ∈ xs, (g x.2).Sublist (marks (f x))) :
    ((xs.map (·.2)).flatMap g).Sublist (marks (xs.flatMap f)) := by
  induction xs with
  | nil => exact .slnil
  | cons x xs ih =>
    obtain ⟨hx, hxs⟩ := List.forall_mem_cons.1 h
    rw [List.map_cons, List.flatMap_cons, List.flatMap_cons, marks_append]
    exact hx.append (ih hxs)

end marks

@[simp] theorem Mention.places_append (ms ms' : List Mention) :
    places (ms ++ ms') = places ms ++ places ms' := List.map_append

@[simp] theorem Finding.places_append (fs gs : List Finding) :
    places (fs ++ gs) = places fs ++ places gs := List.filterMap_append

@[simp] theorem Finding.places_mentions (s : ScopeId) (ms : List Mention) :
    places (mentions s ms) = Mention.places ms := by
  simp [places, mentions, Mention.places, Function.comp_def]

@[simp] theorem Finding.places_cons_scope (s : ScopeId) (n : Node) (fs : List Finding) :
    places ((s, .inr n) :: fs) = places fs := rfl

namespace Node

/-- The names an expression mentions are found in the tokens. -/
def ExpressionIn (w : List Token) (n : Node) : Prop := (Mention.places n.namesIn).Sublist (marks w)

/-- What is found in statements, and the scopes that they make, are found in the tokens. -/
structure StatementsIn (w : List Token) (ns : List Node) : Prop where
  places : ∀ s next, (Finding.places (recordAll s next ns)).Sublist (marks w)
  scopes : (((ns.filter opensScope).flatMap scopes).map position).Sublist (marks w)

structure StatementIn (w : List Token) (n : Node) : Prop where
  places : ∀ s next, (Finding.places (n.record s next)).Sublist (marks w)
  scopes : ((if n.opensScope then n.scopes else []).map position).Sublist (marks w)

variable {v w : List Token} {n : Node}

theorem StatementIn.mono (h : n.StatementIn v) (hv : v.Sublist w) : n.StatementIn w :=
  ⟨fun s next => (h.places s next).trans (marks_sublist hv), h.scopes.trans (marks_sublist hv)⟩

theorem StatementsIn.mono {ns : List Node} (h : StatementsIn v ns) (hv : v.Sublist w) :
    StatementsIn w ns :=
  ⟨fun s next => (h.places s next).trans (marks_sublist hv), h.scopes.trans (marks_sublist hv)⟩

theorem StatementsIn.nil : StatementsIn w [] where
  places s next := by
    rw [recordAll]
    exact List.nil_sublist _
  scopes := List.nil_sublist _

theorem StatementIn.cons {ns : List Node} (h : n.StatementIn v) (hs : StatementsIn w ns) :
    StatementsIn (v ++ w) (n :: ns) where
  places s next := by
    rw [recordAll_cons, places_append, marks_append]
    exact (h.places s next).append (hs.places s _)
  scopes := by
    have hfilter : (n :: ns).filter opensScope = (if n.opensScope then [n] else []) ++
        ns.filter opensScope := by
      rw [List.filter_cons]
      split <;> rfl
    have hscopes := h.scopes.append hs.scopes
    rw [hfilter, List.flatMap_append, List.map_append, marks_append]
    cases hn : n.opensScope with
    | false => simpa [hn] using hscopes
    | true => simpa [hn] using hscopes

theorem statementsIn {xs : List (List Token × Node)} (h : ∀ x ∈ xs, x.2.StatementIn x.1) :
    StatementsIn (xs.flatMap (·.1)) (xs.map (·.2)) := by
  induction xs with
  | nil => exact .nil
  | cons x xs ih =>
    obtain ⟨hx, hxs⟩ := List.forall_mem_cons.1 h
    exact hx.cons (ih hxs)

theorem StatementIn.of_mentions (hn : n.opensScope = false)
    (h : (Mention.places n.mentions).Sublist (marks w)) : n.StatementIn w where
  places s next := by
    rw [record_of_not_opensScope hn, places_mentions]
    exact h
  scopes := by
    rw [hn, if_neg Bool.false_ne_true]
    exact List.nil_sublist _

/-- A function or a block, of what it mentions, its parameters and its statements. -/
theorem StatementIn.of_opensScope (hn : n.opensScope = true) {t : Token} {k : TokenKind}
    (ht : t.Is k) (hk : k ≠ .newline) (hposition : n.position = t.position)
    (hnames : (Mention.places n.mentions ++ n.parameters.map position).Sublist (marks v))
    (hs : StatementsIn w n.innerStatements) : n.StatementIn (t :: (v ++ w)) where
  places s next := by
    have hparameters : Mention.places (n.parameters.map .declared) = n.parameters.map position := by
      simp [Mention.places, Mention.name, Function.comp_def]
    rw [record_of_opensScope hn, places_append, places_cons_scope, places_append, places_mentions,
      places_mentions, hparameters, ← List.append_assoc, marks_cons ht hk, marks_append]
    exact .cons _ (hnames.append (hs.places next _))
  scopes := by
    rw [hn, if_pos rfl, scopes_eq, innerScopes, scopeBody, if_pos hn, List.map_cons, hposition,
      marks_cons ht hk, marks_append]
    exact .cons_cons _ (hs.scopes.trans (List.sublist_append_right ..))

end Node

open Node

/-- What a tree is analysed for is found in the tokens, in order. -/
def Nonterminal.InOrder : Nonterminal → List Token → Node → Prop
  | expression, w, n | product, w, n | parenthesis, w, n | basicExpression, w, n =>
    n.ExpressionIn w
  | functionCall, w, n => n.ExpressionIn w ∧ n.StatementIn w
  | callArgs, w, n => (Mention.places (n.items.flatMap namesIn)).Sublist (marks w)
  | param, w, n => ((n.part "name").map position).Sublist (marks w)
  | params, w, n => ((n.items.flatMap (·.part "name")).map position).Sublist (marks w)
  | block, w, n => n.StatementIn w ∧ StatementsIn w n.items
  | root, w, n => StatementsIn w n.items
  | _, w, n => n.StatementIn w

/-! ## Trees of tokens -/

section Trees

variable {r : Nonterminal} {w : List Token} {n : Node}

theorem inOrder_operand {t : Token} {k : TokenKind} (hk : k ∈ operandKinds) (ht : t.Is k) :
    (Node.ofToken t).ExpressionIn [t] := by
  have hkind : k ≠ .newline := by
    rintro rfl
    exact absurd hk (by decide)
  have hmark : marks [t] = [t.position] := marks_cons ht hkind
  have htag : NodeTag.ofName? (Node.ofToken t).kind = none :=
    (congrArg _ ht).trans (ofName?_tokenKind k)
  rw [ExpressionIn, namesIn_leaf htag, hmark]
  split
  · exact .refl _
  · exact List.nil_sublist _

theorem inOrder_operator {v : List Token} {tag : NodeTag} {left right : Node}
    (ht : NodeTag.ofName? n.kind = some tag) (hop : tag.isOperator = true)
    (hlhs : n.field? "lhs" = some left) (hrhs : n.field? "rhs" = some right)
    (hleft : left.ExpressionIn w) (hright : right.ExpressionIn v) (sign : Token) :
    n.ExpressionIn (w ++ sign :: v) := by
  rw [ExpressionIn, namesIn_operator ht hop, part_eq hlhs, part_eq hrhs, List.flatMap_singleton,
    List.flatMap_singleton, Mention.places_append, marks_append]
  exact hleft.append (hright.trans (marks_sublist (List.sublist_cons_self ..)))

theorem inOrder_functionCall {name : Token} {args : Option (List Token × Node)}
    (ht : NodeTag.ofName? n.kind = some .functionCall)
    (hname : n.field? "name" = some (.ofToken name)) (hid : name.Is .identifier)
    (hargs : n.field? "args" = args.map (·.2))
    (hin : ∀ x ∈ args, (Mention.places (x.2.items.flatMap namesIn)).Sublist (marks x.1))
    (hw : (name :: args.elim [] (·.1)).Sublist w) : n.ExpressionIn w ∧ n.StatementIn w := by
  have hcallee : Mention.places n.callee = [name.position] := by
    rw [callee, part_eq hname]
    cases n.field? "module" <;> rfl
  have hmentions :
      (Mention.places (n.callee ++ n.arguments.flatMap namesIn)).Sublist (marks w) := by
    rw [Mention.places_append, hcallee]
    refine .trans ?_ (marks_sublist hw)
    rw [marks_cons hid nofun]
    refine .cons_cons _ ?_
    rw [arguments, hargs]
    cases args with
    | none => exact .slnil
    | some x => exact hin x rfl
  refine ⟨?_, .of_mentions (by rw [opensScope, ht]) ?_⟩
  · rw [ExpressionIn, namesIn_call ht]
    exact hmentions
  · rw [Node.mentions, ht]
    exact hmentions

theorem inOrder_variableDecl {target : Token} {value : Option (List Token × Node)}
    (ht : NodeTag.ofName? n.kind = some .variableDecl)
    (hname : n.field? "name" = some (.ofToken target)) (hid : target.Is .identifier)
    (hvalue : n.field? "value" = value.map (·.2)) (hin : ∀ x ∈ value, x.2.ExpressionIn x.1.tail)
    (hw : (target :: value.elim [] (·.1)).Sublist w) : n.StatementIn w := by
  refine .of_mentions (by rw [opensScope, ht]) (.trans ?_ (marks_sublist hw))
  rw [Node.mentions, ht, marks_cons hid nofun]
  dsimp only
  rw [part_eq hname, part, hvalue]
  refine .cons_cons _ ?_
  cases value with
  | none => exact .slnil
  | some x =>
    have hx := (hin x rfl).trans (marks_sublist (List.tail_sublist _))
    simpa [Mention.places] using hx

theorem inOrder_assignment {target sign : Token} {value : Node}
    (ht : NodeTag.ofName? n.kind = some .assignment)
    (hname : n.field? "name" = some (.ofToken target)) (hid : target.Is .identifier)
    (hvalue : n.field? "value" = some value) (hin : value.ExpressionIn w) :
    n.StatementIn (target :: sign :: w) := by
  refine .of_mentions (by rw [opensScope, ht]) ?_
  rw [Node.mentions, ht, marks_cons hid nofun]
  dsimp only
  rw [part_eq hname, part_eq hvalue, List.flatMap_singleton]
  exact .cons_cons _ (hin.trans (marks_sublist (List.sublist_cons_self ..)))

theorem inOrder_functionDecl {keyword function : Token} {params : Option (List Token × Node)}
    {v : List Token} {body : Node} (ht : NodeTag.ofName? n.kind = some .functionDecl)
    (hposition : n.position = keyword.position) (hkeyword : keyword.Is .funcKeyword)
    (hname : n.field? "name" = some (.ofToken function)) (hid : function.Is .identifier)
    (hparams : n.field? "params" = params.map (·.2))
    (hin : ∀ x ∈ params, ((x.2.items.flatMap (·.part "name")).map position).Sublist (marks x.1))
    (hbody : n.field? "body" = some body) (hs : StatementsIn v body.items)
    (hw : (keyword :: ((function :: params.elim [] (·.1)) ++ v)).Sublist w) :
    n.StatementIn w := by
  have hopens : n.opensScope = true := by rw [opensScope, ht]
  have hinner : n.innerStatements = body.items := by
    rw [innerStatements, ht, hbody]
    rfl
  refine .mono (.of_opensScope hopens hkeyword nofun hposition ?_ (hinner ▸ hs)) hw
  rw [Node.mentions, parameters, ht, marks_cons hid nofun]
  dsimp only
  rw [part_eq hname, hparams]
  refine .cons_cons _ ?_
  cases params with
  | none => exact .slnil
  | some x => exact hin x rfl

theorem inOrder_block {opening : Token} {v : List Token} {ns : List Node}
    (ht : NodeTag.ofName? n.kind = some .block) (hposition : n.position = opening.position)
    (hopening : opening.Is .curlStart) (hitems : n.items = ns) (hs : StatementsIn v ns)
    (hw : (opening :: v).Sublist w) : n.StatementIn w ∧ StatementsIn w n.items := by
  have hopens : n.opensScope = true := by rw [opensScope, ht]
  have hinner : n.innerStatements = ns := by
    rw [innerStatements, ht]
    exact hitems
  refine ⟨.mono (.of_opensScope (v := []) hopens hopening nofun hposition ?_ (hinner ▸ hs)) hw,
    hitems ▸ hs.mono ((List.sublist_cons_self ..).trans hw)⟩
  rw [Node.mentions, parameters, ht]
  exact .slnil

/-- Pieces of a list, of which each but the first comes after a comma. -/
theorem inOrder_list {g : Node → List Nat} {first : Node} {others : List (List Token × Node)}
    (hfirst : (g first).Sublist (marks w))
    (hothers : ∀ x ∈ others, (g x.2).Sublist (marks x.1.tail)) :
    ((first :: others.map (·.2)).flatMap g).Sublist (marks (w ++ others.flatMap (·.1))) := by
  rw [List.flatMap_cons, marks_append]
  refine hfirst.append (flatMap_sublist_marks fun x hx => ?_)
  exact (hothers x hx).trans (marks_sublist (List.tail_sublist _))

theorem expressionIn_of_choice {q : Nonterminal} (hr : r = .expression ∨ r = .product)
    (hq : q ∈ r.choices) (h : q.InOrder w n) : n.ExpressionIn w := by
  rcases hr with rfl | rfl
  · cases List.mem_singleton.1 hq
    exact h
  · simp only [Nonterminal.choices, List.mem_cons, List.not_mem_nil, or_false] at hq
    rcases hq with rfl | rfl | rfl
    · exact h
    · exact h.1
    · exact h

/-- The induction is on how the tree is spelled. -/
theorem inOrder_of_spells (h : Spells r w n) : r.InOrder w n := by
  induction h with
  | importDirective => exact .of_mentions rfl (List.nil_sublist _)
  | declStatement hq _ _ ih =>
    refine StatementIn.mono ?_ (List.sublist_append_left ..)
    rcases List.mem_pair.1 hq with rfl | rfl <;> exact ih
  | statement hq _ _ ih =>
    refine StatementIn.mono ?_ (List.sublist_append_left ..)
    simp only [Nonterminal.choices, List.mem_cons, List.not_mem_nil, or_false] at hq
    rcases hq with rfl | rfl | rfl | rfl
    · exact ih
    · exact ih
    · exact ih.2
    · exact ih.1
  | @variableDecl keyword target type value _ htarget _ _ _ ih =>
    refine inOrder_variableDecl rfl rfl htarget rfl ih (.cons _ (.cons_cons _ ?_))
    exact List.sublist_append_right ..
  | @functionDecl keyword function opening closing params returns v body hk hf _ _ _ _ _ ihparams
      ihbody =>
    refine inOrder_functionDecl rfl rfl hk rfl hf rfl ihparams rfl ihbody.2 ?_
    refine .cons_cons _ (.cons_cons _ (.cons _ (.append (.refl _) (.cons _ ?_))))
    exact List.sublist_append_right ..
  | @list r q w first others start hq _ _ _ _ ih ihs =>
    cases r with
    | params =>
      cases hq
      show List.Sublist (List.map _ (List.flatMap _ _)) _
      rw [List.map_flatMap]
      exact inOrder_list ih ihs
    | callArgs =>
      cases hq
      show List.Sublist (List.map _ (List.flatMap _ _)) _
      rw [List.map_flatMap]
      exact inOrder_list ih ihs
    | _ => cases hq
  | @param parameter type hp _ =>
    show List.Sublist _ (marks [parameter, type])
    rw [marks_cons hp (by decide)]
    exact .cons_cons _ (List.nil_sublist _)
  | @block opening closing v statements ho _ _ _ ih =>
    refine inOrder_block rfl rfl ho rfl (statementsIn ih) (.cons_cons _ ?_)
    exact (List.sublist_append_left ..).trans (List.sublist_append_right ..)
  | assignment htarget _ _ ih => exact inOrder_assignment rfl rfl htarget rfl ih
  | @functionCall first opening closing member args hfirst hmember _ _ _ ih =>
    cases member with
    | none =>
      refine inOrder_functionCall rfl rfl hfirst rfl ih (.cons_cons _ (.cons _ ?_))
      exact List.sublist_append_left ..
    | some x =>
      refine inOrder_functionCall rfl rfl (hmember x rfl).2 rfl ih ?_
      refine .cons _ (.cons _ (.cons_cons _ (.cons _ ?_)))
      exact List.sublist_append_left ..
  | operand hr hq _ ih =>
    have hin := expressionIn_of_choice hr hq ih
    rcases hr with rfl | rfl <;> exact hin
  | @operator r q w v left right sign k start hq _ _ hk hsign _ ih ih' =>
    obtain ⟨tag, htag, hop⟩ := exists_tag_binary start left right hk hsign
    have hr : r = .expression ∨ r = .product := by
      cases r <;> first | exact .inl rfl | exact .inr rfl | cases hk
    have hright : right.ExpressionIn v := by
      rcases hr with rfl | rfl <;> exact ih'
    have hleft := expressionIn_of_choice hr hq ih
    have hin := inOrder_operator htag hop rfl rfl hleft hright sign
    rcases hr with rfl | rfl <;> exact hin
  | @parenthesis opening closing w n _ _ _ ih =>
    refine List.Sublist.trans ih (marks_sublist (.cons _ ?_))
    exact List.sublist_append_left ..
  | basicExpression hk ht => exact inOrder_operand hk ht
  | @root v imports declarations start _ _ _ ihimports ihdeclarations =>
    have hin := statementsIn (List.forall_mem_append.2 ⟨ihimports, ihdeclarations⟩)
    rw [List.flatMap_append, List.map_append] at hin
    exact hin.mono (List.sublist_append_right ..)

end Trees

end JayFrontEnd
