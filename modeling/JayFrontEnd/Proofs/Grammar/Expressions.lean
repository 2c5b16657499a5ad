import JayFrontEnd.Proofs.Grammar.Leaves

/-!
# The shape of expressions

The operators outside of parentheses cut the tokens of an expression into terms. Its tree comes from
splitting this chain at the signs of sums: the products and the sum of them are each nested to the
right. A term in parentheses is the tree of what they enclose, so that only the positions of the
nodes above it tell that they are there.
-/

namespace JayFrontEnd

/-! ## Chains -/

/-- Things with operators between them. -/
inductive Chain (α : Type) where
  | single (a : α)
  | link (a : α) (operator : Token) (rest : Chain α)

def operations : List (TokenKind × NodeTag) :=
  [(.add, .add), (.sub, .subtract), (.mul, .multiply), (.div, .divide)]

namespace Token

/-- The node that the operator gives, if the token is one. -/
def operation? (t : Token) : Option NodeTag :=
  (operations.find? fun x => t.kind == x.1.name).map (·.2)

def isOperator (t : Token) : Bool := t.operation?.isSome

def isSum (t : Token) : Bool := t.kind == TokenKind.add.name || t.kind == TokenKind.sub.name

def depthAfter (t : Token) (depth : Nat) : Nat :=
  if t.kind = TokenKind.parenStart.name then depth + 1
  else if t.kind = TokenKind.parenEnd.name then depth - 1
  else depth

end Token

namespace Chain

variable {α β : Type}

def map (f : α → β) : Chain α → Chain β
  | single a => single (f a)
  | link a o rest => link (f a) o (rest.map f)

def mapFirst (f : α → α) : Chain α → Chain α
  | single a => single (f a)
  | link a o rest => link (f a) o rest

def items : Chain α → List α
  | single a => [a]
  | link a _ rest => a :: rest.items

def operators : Chain α → List Token
  | single _ => []
  | link _ o rest => o :: rest.operators

def join (c : Chain α) (o : Token) (d : Chain α) : Chain α :=
  match c with
  | single a => link a o d
  | link a o' rest => link a o' (rest.join o d)

def products : Chain α → Chain (Chain α)
  | single a => single (single a)
  | link a o rest =>
    if o.isSum then link (single a) o rest.products
    else rest.products.mapFirst (link a o)

/-- Some tokens and their tree, with more behind an operator. The node stands where the first of the
tokens does. -/
def binary (p : List Token × Node) (o : Token) (q : List Token × Node) : List Token × Node :=
  (p.1 ++ o :: q.1,
    .mk ((p.1.head?.map (·.position)).getD 0) ((o.operation?.map NodeTag.name).getD o.kind)
      (.composite [("lhs", some p.2), ("rhs", some q.2)]))

def nested : Chain (List Token × Node) → List Token × Node
  | single p => p
  | link p o rest => binary p o rest.nested

/-- A chain of trees, nested in products and these in a sum. -/
def grouped (c : Chain (List Token × Node)) : List Token × Node := (c.products.map nested).nested

end Chain

/-- The tokens, cut at the operators that stand in no parentheses; so many are open before them. -/
def termsFrom (depth : Nat) : List Token → Chain (List Token)
  | [] => .single []
  | t :: w =>
    if depth = 0 ∧ t.isOperator then .link [] t (termsFrom 0 w)
    else (termsFrom (t.depthAfter depth) w).mapFirst (t :: ·)

mutual

/-- The tokens are an expression with the tree that its terms give. -/
inductive IsExpression : List Token → Node → Prop where
  | chain {w : List Token} {c : Chain (List Token × Node)} : c.map (·.1) = termsFrom 0 w →
      (∀ x ∈ c.items, IsTerm x.1 x.2) → IsExpression w c.grouped.2

/-- The tokens are a term: an expression in parentheses, whose tree is kept as it is, a call, or a
name or literal. -/
inductive IsTerm : List Token → Node → Prop where
  | parenthesis {opening closing : Token} {w : List Token} {n : Node} : opening.Is .parenStart →
      IsExpression w n → closing.Is .parenEnd → IsTerm (opening :: (w ++ [closing])) n
  | call {w : List Token} {n : Node} : Spells .functionCall w n → IsTerm w n
  | operand {t : Token} : t.isOperand → IsTerm [t] (.ofToken t)

end

namespace Chain

variable {α β : Type}

theorem mapFirst_mapFirst (f g : α → α) (c : Chain α) :
    (c.mapFirst f).mapFirst g = c.mapFirst fun a => g (f a) := by
  cases c <;> rfl

theorem mapFirst_id (c : Chain α) : (c.mapFirst fun a => a) = c := by
  cases c <;> rfl

theorem map_join (f : α → β) (c : Chain α) (o : Token) (d : Chain α) :
    (c.join o d).map f = (c.map f).join o (d.map f) := by
  induction c with
  | single a => rfl
  | link a o' rest ih => simp only [join, map, ih]

theorem items_join (c : Chain α) (o : Token) (d : Chain α) :
    (c.join o d).items = c.items ++ d.items := by
  induction c with
  | single a => rfl
  | link a o' rest ih => simp only [join, items, ih, List.cons_append]

theorem products_eq {c : Chain α} (hc : ∀ o ∈ c.operators, o.isSum = false) :
    c.products = single c := by
  induction c with
  | single a => rfl
  | link a o rest ih =>
    obtain ⟨ho, hrest⟩ := List.forall_mem_cons.1 hc
    simp only [products, ho, ih hrest]
    rfl

theorem products_join {o : Token} {c : Chain α} (d : Chain α)
    (hc : ∀ o ∈ c.operators, o.isSum = false) (ho : o.isSum = true) :
    (c.join o d).products = link c o d.products := by
  induction c with
  | single a => simp only [join, products, if_pos ho]
  | link a o' rest ih =>
    obtain ⟨ho', hrest⟩ := List.forall_mem_cons.1 hc
    simp only [join, products, ho', ih hrest]
    rfl

end Chain

/-! ## Terms -/

section Terms

variable {v w : List Token} {t opening closing : Token} {k : TokenKind}

/-- In parentheses the tokens are not cut, and they close what they open. -/
def Balanced (w : List Token) : Prop :=
  ∀ depth v, termsFrom (depth + 1) (w ++ v) = (termsFrom (depth + 1) v).mapFirst (w ++ ·)

/-- The same where no parentheses are open. -/
def Whole (w : List Token) : Prop := ∀ v, termsFrom 0 (w ++ v) = (termsFrom 0 v).mapFirst (w ++ ·)

theorem Whole.eq_single (h : Whole w) : termsFrom 0 w = .single w := by
  have hw := h []
  rw [List.append_nil] at hw
  rw [hw, termsFrom, Chain.mapFirst, List.append_nil]

theorem termsFrom_succ (depth : Nat) (t : Token) (w : List Token) :
    termsFrom (depth + 1) (t :: w) =
      (termsFrom (t.depthAfter (depth + 1)) w).mapFirst (t :: ·) :=
  if_neg fun h => Nat.succ_ne_zero depth h.1

theorem termsFrom_other (ht : t.isOperator = false) (w : List Token) :
    termsFrom 0 (t :: w) = (termsFrom (t.depthAfter 0) w).mapFirst (t :: ·) :=
  if_neg fun h => Bool.noConfusion (ht.symm.trans h.2)

theorem termsFrom_operator (ht : t.isOperator = true) (w : List Token) :
    termsFrom 0 (t :: w) = .link [] t (termsFrom 0 w) :=
  if_pos ⟨rfl, ht⟩

theorem depthAfter_opening (h : opening.Is .parenStart) (depth : Nat) :
    opening.depthAfter depth = depth + 1 := if_pos h

theorem depthAfter_closing (h : closing.Is .parenEnd) (depth : Nat) :
    closing.depthAfter (depth + 1) = depth := by
  have hne : ¬ closing.kind = TokenKind.parenStart.name := by rw [h]; decide
  have hkind : closing.kind = TokenKind.parenEnd.name := h
  rw [Token.depthAfter, if_neg hne, if_pos hkind, Nat.add_sub_cancel]

theorem depthAfter_other (h : t.Is k) (hk : k ∉ [TokenKind.parenStart, .parenEnd]) (depth : Nat) :
    t.depthAfter depth = depth := by
  have hne : ∀ l ∈ [TokenKind.parenStart, .parenEnd], ¬ t.kind = l.name := by
    rintro l hl heq
    exact hk (TokenKind.name_injective (h.symm.trans heq) ▸ hl)
  rw [Token.depthAfter, if_neg (hne _ (by decide)), if_neg (hne _ (by decide))]

theorem isOperator_of_is (h : t.Is k) : t.isOperator = (operations.any fun x => x.1 == k) := by
  rw [Token.isOperator, Token.operation?, h]
  cases k <;> decide

namespace Balanced

theorem nil : Balanced [] := fun _ _ => (Chain.mapFirst_id _).symm

theorem append (hv : Balanced v) (hw : Balanced w) : Balanced (v ++ w) := by
  intro depth u
  simp only [List.append_assoc, hv depth, hw depth, Chain.mapFirst_mapFirst]

theorem cons (ht : t.Is k) (hk : k ∉ [TokenKind.parenStart, .parenEnd]) (hw : Balanced w) :
    Balanced (t :: w) := by
  intro depth u
  simp only [List.cons_append, termsFrom_succ, depthAfter_other ht hk, hw depth,
    Chain.mapFirst_mapFirst]

theorem parens (ho : opening.Is .parenStart) (hw : Balanced w) (hc : closing.Is .parenEnd)
    (hv : Balanced v) : Balanced (opening :: (w ++ closing :: v)) := by
  intro depth u
  simp only [List.cons_append, List.append_assoc, termsFrom_succ, depthAfter_opening ho,
    depthAfter_closing hc, hw (depth + 1), hv depth, Chain.mapFirst_mapFirst]

theorem pieces {xs : List (List Token × Node)} (h : ∀ x ∈ xs, Balanced x.1) :
    Balanced (xs.flatMap (·.1)) := by
  induction xs with
  | nil => exact nil
  | cons x xs ih =>
    obtain ⟨hx, hxs⟩ := List.forall_mem_cons.1 h
    exact hx.append (ih hxs)

theorem piece {x : Option (List Token × Node)} (h : ∀ y ∈ x, Balanced y.1) :
    Balanced (x.elim [] (·.1)) := by
  cases x with
  | none => exact nil
  | some y => exact h y rfl

theorem toList {name : Option Token} (h : ∀ t ∈ name, t.Is .identifier) :
    Balanced name.toList := by
  cases name with
  | none => exact nil
  | some t => exact cons (h t rfl) (by decide) nil

theorem lineEnd (h : w = [] ∨ ∃ lineEnd : Token, lineEnd.Is .newline ∧ w = [lineEnd]) :
    Balanced w := by
  rcases h with rfl | ⟨lineEnd, hl, rfl⟩
  · exact nil
  · exact cons hl (by decide) nil

theorem ledBy (h : LedBy k w) (hk : k ∉ [TokenKind.parenStart, .parenEnd])
    (hw : Balanced w.tail) : Balanced w := by
  obtain ⟨t, ht, his⟩ := h
  cases w with
  | nil => cases ht
  | cons x w =>
    cases ht
    exact cons his hk hw

theorem member {member : Option (Token × Token)}
    (h : ∀ x ∈ member, x.1.Is .dot ∧ x.2.Is .identifier) :
    Balanced (member.elim [] fun x => [x.1, x.2]) := by
  cases member with
  | none => exact nil
  | some x => exact cons (h x rfl).1 (by decide) (cons (h x rfl).2 (by decide) nil)

end Balanced

theorem not_paren_of_mem_operators {r : Nonterminal} (h : k ∈ r.operators) :
    k ∉ [TokenKind.parenStart, .parenEnd] := by
  cases r with
  | expression | product => rcases List.mem_pair.1 h with rfl | rfl <;> decide
  | _ => cases h

/-- All phrases close the parentheses that they open. -/
theorem balanced_of_spells {r : Nonterminal} {n : Node} (h : Spells r w n) : Balanced w := by
  induction h with
  | importDirective hk hm hl =>
    exact .cons hk (by decide) (.cons hm (by decide) (.cons hl (by decide) .nil))
  | declStatement _ _ hl ih => exact ih.append (.cons hl (by decide) .nil)
  | statement _ _ hv ih => exact ih.append (.lineEnd hv)
  | variableDecl hk ht htype hled _ ih =>
    have hvalue := Balanced.piece fun x hx => .ledBy (hled x hx) (by decide) (ih x hx)
    exact .cons hk (by decide) (.cons ht (by decide) ((Balanced.toList htype).append hvalue))
  | functionDecl hk hf ho _ hc hreturns _ ihparams ihbody =>
    have hrest := (Balanced.toList hreturns).append ihbody
    exact .cons hk (by decide) (.cons hf (by decide) (.parens ho (.piece ihparams) hc hrest))
  | list _ _ _ hled _ ih ihs =>
    exact ih.append (.pieces fun x hx => .ledBy (hled x hx) (by decide) (ihs x hx))
  | param hp ht => exact .cons hp (by decide) (.cons ht (by decide) .nil)
  | block ho hv _ hc ih =>
    have hrest := (Balanced.pieces ih).append (.cons hc (by decide) .nil)
    exact .cons ho (by decide) ((Balanced.lineEnd hv).append hrest)
  | assignment ht hs _ ih => exact .cons ht (by decide) (.cons hs (by decide) ih)
  | functionCall hf hm ho _ hc ih =>
    exact .cons hf (by decide) ((Balanced.member hm).append (.parens ho (.piece ih) hc .nil))
  | operand _ _ _ ih => exact ih
  | operator _ _ _ hk hs _ ih ih' =>
    exact ih.append (.cons hs (not_paren_of_mem_operators hk) ih')
  | parenthesis ho _ hc ih => exact .parens ho ih hc .nil
  | basicExpression hk ht =>
    refine .cons ht ?_ .nil
    simp only [operandKinds, List.mem_cons, List.not_mem_nil, or_false] at hk
    rcases hk with rfl | rfl | rfl | rfl <;> decide
  | root hv _ _ ihimports ihdeclarations =>
    exact (Balanced.lineEnd hv).append ((Balanced.pieces ihimports).append (.pieces ihdeclarations))

namespace Whole

theorem append (hv : Whole v) (hw : Whole w) : Whole (v ++ w) := by
  intro u
  simp only [List.append_assoc, hv (w ++ u), hw u, Chain.mapFirst_mapFirst]

theorem token (ht : t.Is k) (hk : k ∉ [TokenKind.parenStart, .parenEnd])
    (ho : t.isOperator = false) : Whole [t] := by
  intro u
  simp only [List.cons_append, List.nil_append, termsFrom_other ho, depthAfter_other ht hk]

theorem parens (ho : opening.Is .parenStart) (hw : Balanced w) (hc : closing.Is .parenEnd) :
    Whole (opening :: (w ++ [closing])) := by
  intro u
  have hother : opening.isOperator = false := isOperator_of_is ho
  simp only [List.cons_append, List.append_assoc, List.nil_append, termsFrom_other hother,
    depthAfter_opening ho, hw 0, termsFrom_succ, depthAfter_closing hc, Chain.mapFirst_mapFirst]

end Whole

end Terms

/-! ## Expressions -/

/-- A chain of terms and their trees is what the tokens are cut into. -/
structure TermsOf (w : List Token) (c : Chain (List Token × Node)) : Prop where
  cut : c.map (·.1) = termsFrom 0 w
  terms : ∀ x ∈ c.items, IsTerm x.1 x.2

/-- The chain is a product, and more can come behind an operator. -/
structure FactorsOf (w : List Token) (c : Chain (List Token × Node)) : Prop
    extends TermsOf w c where
  product : ∀ o ∈ c.operators, o.isSum = false
  cut_join : ∀ (o : Token) (v : List Token), o.isOperator = true →
    termsFrom 0 (w ++ o :: v) = (c.map (·.1)).join o (termsFrom 0 v)

/-- What the tree of a phrase in an expression is. -/
def Shapes (w : List Token) (n : Node) : Nonterminal → Prop
  | .expression => ∃ c, TermsOf w c ∧ c.grouped = (w, n)
  | .product => ∃ c, FactorsOf w c ∧ c.nested = (w, n)
  | .parenthesis | .functionCall | .basicExpression => IsTerm w n ∧ Whole w
  | _ => True

section Shapes

variable {v w : List Token} {left right n : Node} {c d : Chain (List Token × Node)} {sign : Token}
  {k : TokenKind}

theorem isExpression_of_shapes (h : Shapes w n .expression) : IsExpression w n := by
  obtain ⟨c, hc, hgrouped⟩ := h
  have hexpression := IsExpression.chain hc.cut hc.terms
  rwa [hgrouped] at hexpression

theorem isTerm_of_shapes {q : Nonterminal} (hq : q ∈ Nonterminal.product.choices)
    (h : Shapes w n q) : IsTerm w n ∧ Whole w := by
  simp only [Nonterminal.choices, List.mem_cons, List.not_mem_nil, or_false] at hq
  rcases hq with rfl | rfl | rfl <;> exact h

theorem FactorsOf.single (hterm : IsTerm w n) (hw : Whole w) :
    FactorsOf w (.single (w, n)) where
  cut := hw.eq_single.symm
  terms := List.forall_mem_singleton.2 hterm
  product := nofun
  cut_join o v ho := by
    rw [hw, termsFrom_operator ho, Chain.mapFirst, List.append_nil]
    rfl

theorem FactorsOf.link (hc : FactorsOf v c) (hterm : IsTerm w left) (hw : Whole w)
    (hsign : sign.isOperator = true) (hproduct : sign.isSum = false) :
    FactorsOf (w ++ sign :: v) (.link (w, left) sign c) where
  cut := by
    rw [hw, termsFrom_operator hsign, ← hc.cut, Chain.mapFirst, List.append_nil]
    rfl
  terms := List.forall_mem_cons.2 ⟨hterm, hc.terms⟩
  product := List.forall_mem_cons.2 ⟨hproduct, hc.product⟩
  cut_join o u ho := by
    rw [List.append_assoc, List.cons_append, hw, termsFrom_operator hsign, hc.cut_join o u ho,
      Chain.mapFirst, List.append_nil]
    rfl

theorem FactorsOf.join (hc : FactorsOf w c) (hd : TermsOf v d) (hsign : sign.isOperator = true) :
    TermsOf (w ++ sign :: v) (c.join sign d) where
  cut := by rw [Chain.map_join, hc.cut_join sign v hsign, hd.cut]
  terms := by
    rw [Chain.items_join]
    exact List.forall_mem_append.2 ⟨hc.terms, hd.terms⟩

/-- The node that a rule makes of an operator between two operands. -/
theorem binary_eq {start : Nat} (hk : k ∈ Nonterminal.expression.operators ++
    Nonterminal.product.operators) (hs : sign.Is k) (hstart : StartsAt start w) (hne : w ≠ []) :
    Chain.binary (w, left) sign (v, right) =
      (w ++ sign :: v, Jay.binary start (.ofToken sign) left right) := by
  obtain ⟨t, u, rfl⟩ := List.exists_cons_of_ne_nil hne
  obtain rfl : t.position = start := hstart t rfl
  have hkind : (Node.ofToken sign).kind = k.name := hs
  simp only [Chain.binary, Jay.binary, Token.operation?, hkind, show sign.kind = k.name from hs]
  simp only [Nonterminal.operators, List.cons_append, List.nil_append, List.mem_cons,
    List.not_mem_nil, or_false] at hk
  rcases hk with rfl | rfl | rfl | rfl <;> rfl

theorem isOperator_of_mem_operators {r : Nonterminal} (hk : k ∈ r.operators) (hs : sign.Is k) :
    sign.isOperator = true := by
  rw [isOperator_of_is hs]
  cases r with
  | expression | product => rcases List.mem_pair.1 hk with rfl | rfl <;> rfl
  | _ => cases hk

theorem isSum_of_is (hs : sign.Is k) : sign.isSum = [TokenKind.add, .sub].contains k := by
  rw [Token.isSum, hs]
  cases k <;> decide

theorem whole_call {first opening closing : Token} {member : Option (Token × Token)}
    {args : List Token} (hf : first.Is .identifier)
    (hm : ∀ x ∈ member, x.1.Is .dot ∧ x.2.Is .identifier) (ho : opening.Is .parenStart)
    (hargs : Balanced args) (hc : closing.Is .parenEnd) :
    Whole (first :: (member.elim [] (fun x => [x.1, x.2]) ++ opening :: (args ++ [closing]))) := by
  have hfirst : Whole [first] := .token hf (by decide) (isOperator_of_is hf)
  have hcall := Whole.parens ho hargs hc
  cases member with
  | none => exact hfirst.append hcall
  | some x =>
    obtain ⟨hdot, hname⟩ := hm x rfl
    have hdot : Whole [x.1] := .token hdot (by decide) (isOperator_of_is hdot)
    have hname : Whole [x.2] := .token hname (by decide) (isOperator_of_is hname)
    exact hfirst.append (hdot.append (hname.append hcall))

theorem whole_operand {t : Token} (hk : k ∈ operandKinds) (ht : t.Is k) : Whole [t] := by
  have hparen : ∀ k ∈ operandKinds, k ∉ [TokenKind.parenStart, .parenEnd] := by decide
  have hoperator : ∀ k ∈ operandKinds, (operations.any fun x => x.1 == k) = false := by decide
  exact .token ht (hparen k hk) ((isOperator_of_is ht).trans (hoperator k hk))

/-- The induction is on how the tree is spelled: a product adds a term to a chain, an expression
adds a product. -/
theorem shapes_of_spells {r : Nonterminal} (h : Spells r w n) : Shapes w n r := by
  induction h with
  | parenthesis ho hn hc ih =>
    exact ⟨.parenthesis ho (isExpression_of_shapes ih) hc, .parens ho (balanced_of_spells hn) hc⟩
  | functionCall hf hm ho hargs hc =>
    have hbalanced := Balanced.piece fun x hx => balanced_of_spells (hargs x hx)
    exact ⟨.call (.functionCall hf hm ho hargs hc), whole_call hf hm ho hbalanced hc⟩
  | basicExpression hk ht =>
    refine ⟨.operand ?_, whole_operand hk ht⟩
    rw [isOperand_of_is ht, List.contains_iff_mem]
    exact hk
  | @operand r q w n hr hq hn ih =>
    rcases hr with rfl | rfl
    · obtain rfl := List.mem_singleton.1 hq
      obtain ⟨c, hc, hnested⟩ := ih
      refine ⟨c, hc.toTermsOf, ?_⟩
      rw [Chain.grouped, Chain.products_eq hc.product]
      exact hnested
    · obtain ⟨hterm, hw⟩ := isTerm_of_shapes hq ih
      exact ⟨_, .single hterm hw, rfl⟩
  | @operator r q w v left right sign k start hq hleft hstart hk hs hright ih ih' =>
    have hne := ne_nil_of_spells hleft (ne_root_of_mem_choices hq)
    have hoperator := isOperator_of_mem_operators hk hs
    cases r with
    | expression =>
      obtain rfl := List.mem_singleton.1 hq
      obtain ⟨c, hc, hnested⟩ := ih
      obtain ⟨d, hd, hgrouped⟩ := ih'
      have hsum : sign.isSum = true := by
        rw [isSum_of_is hs, List.contains_iff_mem]
        exact hk
      refine ⟨_, hc.join hd hoperator, ?_⟩
      rw [Chain.grouped, Chain.products_join d hc.product hsum]
      show Chain.binary c.nested sign d.grouped = _
      rw [hnested, hgrouped, binary_eq (List.mem_append_left _ hk) hs hstart hne]
    | product =>
      obtain ⟨hterm, hw⟩ := isTerm_of_shapes hq ih
      obtain ⟨c, hc, hnested⟩ := ih'
      have hproduct : sign.isSum = false := by
        have hfactor : ∀ k ∈ Nonterminal.product.operators,
            [TokenKind.add, .sub].contains k = false := by decide
        exact (isSum_of_is hs).trans (hfactor k hk)
      refine ⟨_, hc.link hterm hw hoperator hproduct, ?_⟩
      rw [Chain.nested, hnested, binary_eq (List.mem_append_right _ hk) hs hstart hne]
    | _ => cases hk
  | @list r q _ _ _ _ hq =>
    cases r with
    | params | callArgs => trivial
    | _ => cases hq
  | _ => trivial

end Shapes

/-! ## The expressions of a module -/

def expressionKinds : List String :=
  [NodeTag.variableDecl, .assignment, .callArgs].map NodeTag.name

/-- The expressions right below the node: the value of a variable, or the arguments of a call. -/
def Node.expressions (n : Node) : List Node :=
  if n.kind = NodeTag.variableDecl.name ∨ n.kind = NodeTag.assignment.name then
    (n.field? "value").toList
  else if n.kind = NodeTag.callArgs.name then n.items
  else []

/-- The tokens that go on with an expression: behind an operand comes an operator, or what makes a
call of a name. -/
def continuingKinds : List TokenKind := operations.map (·.1) ++ [.dot, .parenStart]

/-- An expression that stands before these tokens does not go on. -/
def Ends (after : List Token) : Prop := ∀ t ∈ after.head?, ∀ k ∈ continuingKinds, ¬ t.Is k

/-- The node is an expression among the tokens: it begins behind the sign that asks for one, and
takes all tokens up to one that does not go on with it. -/
def WrittenIn (ts : List Token) (e : Node) : Prop :=
  ∃ sign w after k, k ∈ [TokenKind.equals, .parenStart, .comma] ∧ sign.Is k ∧
    sign :: (w ++ after) <:+ ts ∧ IsExpression w e ∧ Ends after

/-- All expressions in the tree are. -/
def Writes (ts : List Token) (n : Node) : Prop :=
  ∀ m ∈ n.subtrees, ∀ e ∈ m.expressions, WrittenIn ts e

section Ends

variable {v w : List Token} {t : Token} {k : TokenKind}

theorem Ends.cons (ht : t.Is k) (hk : k ∉ continuingKinds) : Ends (t :: w) := by
  rintro _ ⟨⟩ l hl h
  exact hk (TokenKind.name_injective (ht.symm.trans h) ▸ hl)

theorem Ends.append (hv : Ends v) (hw : Ends w) : Ends (v ++ w) := by
  cases v with
  | nil => exact hw
  | cons t v => exact hv

theorem Ends.pieces {xs : List (List Token × Node)} (h : ∀ x ∈ xs, Ends x.1) :
    Ends (xs.flatMap (·.1)) := by
  induction xs with
  | nil => exact nofun
  | cons x xs ih =>
    obtain ⟨hx, hxs⟩ := List.forall_mem_cons.1 h
    exact hx.append (ih hxs)

theorem Ends.ledBy (h : LedBy k w) (hk : k ∉ continuingKinds) : Ends w := by
  obtain ⟨t, ht, his⟩ := h
  obtain ⟨u, rfl⟩ := List.head?_eq_some_iff.1 ht
  exact .cons his hk

theorem Ends.lineEnd (h : v = [] ∨ ∃ lineEnd : Token, lineEnd.Is .newline ∧ v = [lineEnd]) :
    Ends v := by
  rcases h with rfl | ⟨lineEnd, hl, rfl⟩
  · exact nofun
  · exact .cons hl (by decide)

/-- What comes after one of several pieces: more of them, and what comes after all. -/
theorem exists_after_of_flatMap {xs : List (List Token × Node)} {x : List Token × Node}
    (hx : x ∈ xs) (hw : xs.flatMap (·.1) ++ v <:+ w) :
    ∃ u, x.1 ++ u <:+ w ∧ ((∀ x ∈ xs, Ends x.1) → Ends v → Ends u) := by
  obtain ⟨ys, zs, rfl⟩ := List.append_of_mem hx
  rw [List.flatMap_append, List.flatMap_cons, List.append_assoc, List.append_assoc] at hw
  exact ⟨_, (List.suffix_append ..).trans hw,
    fun hxs hv => .append (.pieces fun z hz => hxs z (by simp [hz])) hv⟩

/-- No expression goes on with a statement. -/
theorem ends_of_spells_statement {n : Node} (h : Spells .statement w n) : Ends w := by
  obtain ⟨k, hk, hled⟩ := ledBy_of_spells h (by decide)
  have hheads : ∀ k ∈ Nonterminal.statement.heads, k ∉ continuingKinds := by decide
  exact .ledBy hled (hheads k hk)

end Ends

namespace Writes

variable {ts after : List Token} {n : Node} {position : Nat} {kind : String}

theorem ofToken (t : Token) : Writes ts (.ofToken t) := by
  intro m hm e he
  obtain rfl := List.mem_singleton.1 hm
  unfold Node.expressions at he
  split at he
  · cases he
  · split at he <;> cases he

theorem composite {fields : List (String × Option Node)}
    (hhere : ∀ e ∈ (Node.mk position kind (.composite fields)).expressions, WrittenIn ts e)
    (hbelow : ∀ f ∈ fields, ∀ n ∈ f.2, Writes ts n) :
    Writes ts (.mk position kind (.composite fields)) := by
  rw [Writes, Node.subtrees_composite]
  refine List.forall_mem_cons.2 ⟨hhere, fun m hm => ?_⟩
  obtain ⟨⟨name, field⟩, hf, hm⟩ := List.mem_flatMap.1 hm
  cases field with
  | none => cases hm
  | some n => exact hbelow _ hf n rfl m hm

theorem list {items : List Node}
    (hhere : ∀ e ∈ (Node.mk position kind (.list items)).expressions, WrittenIn ts e)
    (hbelow : ∀ n ∈ items, Writes ts n) : Writes ts (.mk position kind (.list items)) := by
  rw [Writes, Node.subtrees_list]
  refine List.forall_mem_cons.2 ⟨hhere, fun m hm => ?_⟩
  obtain ⟨n, hn, hm⟩ := List.mem_flatMap.1 hm
  exact hbelow n hn m hm

theorem expressions_eq_nil (hkind : kind ∉ expressionKinds) (v : Value) :
    (Node.mk position kind v).expressions = [] := by
  simp only [expressionKinds, List.map_cons, List.map_nil, List.mem_cons, List.not_mem_nil,
    or_false, not_or] at hkind
  exact (if_neg (not_or.2 ⟨hkind.1, hkind.2.1⟩)).trans (if_neg hkind.2.2)

theorem composite_of_kind {fields : List (String × Option Node)} (hkind : kind ∉ expressionKinds)
    (hbelow : ∀ f ∈ fields, ∀ n ∈ f.2, Writes ts n) :
    Writes ts (.mk position kind (.composite fields)) := by
  refine composite ?_ hbelow
  rw [expressions_eq_nil hkind]
  exact nofun

theorem list_of_kind {items : List Node} (hkind : kind ∉ expressionKinds)
    (hbelow : ∀ n ∈ items, Writes ts n) : Writes ts (.mk position kind (.list items)) := by
  refine list ?_ hbelow
  rw [expressions_eq_nil hkind]
  exact nofun

/-! The items and fields of a node. -/

theorem pieces {xs : List (List Token × Node)} (hw : xs.flatMap (·.1) ++ after <:+ ts)
    (h : ∀ x ∈ xs, ∀ u, x.1 ++ u <:+ ts → ((∀ x ∈ xs, Ends x.1) → Ends after → Ends u) →
      Writes ts x.2) : ∀ n ∈ xs.map (·.2), Writes ts n := by
  intro n hn
  obtain ⟨x, hx, rfl⟩ := List.mem_map.1 hn
  obtain ⟨u, hu, hends⟩ := exists_after_of_flatMap hx hw
  exact h x hx u hu hends

theorem piece {x : Option (List Token × Node)} (h : ∀ y ∈ x, Writes ts y.2) :
    ∀ n ∈ x.map (·.2), Writes ts n := by
  intro n hn
  obtain ⟨y, rfl, rfl⟩ := Option.map_eq_some_iff.1 hn
  exact h y rfl

theorem token (t : Option Token) : ∀ n ∈ t.map Node.ofToken, Writes ts n := by
  intro n hn
  obtain ⟨t, -, rfl⟩ := Option.map_eq_some_iff.1 hn
  exact ofToken t

variable {fields : List (String × Option Node)} {name : String}

theorem cons {field : Option Node} (h : ∀ n ∈ field, Writes ts n)
    (hfields : ∀ f ∈ fields, ∀ n ∈ f.2, Writes ts n) :
    ∀ f ∈ (name, field) :: fields, ∀ n ∈ f.2, Writes ts n :=
  List.forall_mem_cons.2 ⟨h, hfields⟩

theorem field (h : Writes ts n) (hfields : ∀ f ∈ fields, ∀ n ∈ f.2, Writes ts n) :
    ∀ f ∈ (name, some n) :: fields, ∀ n ∈ f.2, Writes ts n :=
  cons (fun _ hm => Option.some.inj hm ▸ h) hfields

end Writes

/-- What the tree of a phrase tells, whatever tokens come after. The arguments of a call come behind
a parenthesis, and what may end with an expression comes before something else. -/
def Tells (ts w : List Token) (n : Node) : Nonterminal → Prop
  | .callArgs => ∀ (opening : Token) (after : List Token), opening.Is .parenStart → Ends after →
      opening :: (w ++ after) <:+ ts → Writes ts n
  | .statement | .variableDecl | .assignment =>
    ∀ after, Ends after → w ++ after <:+ ts → Writes ts n
  | _ => ∀ after, w ++ after <:+ ts → Writes ts n

section Tells

variable {ts v w after : List Token} {n : Node} {r q : Nonterminal} {k : TokenKind}

/-- What a rule chooses is no list of arguments. -/
theorem Tells.writes (hq : q ∈ r.choices) (h : Tells ts w n q) (hafter : Ends after)
    (hw : w ++ after <:+ ts) : Writes ts n := by
  cases q with
  | callArgs => cases r <;> exact absurd hq (by decide)
  | statement | variableDecl | assignment => exact h after hafter hw
  | _ => exact h after hw

/-- Nor does an operand end with more than itself. -/
theorem Tells.writes_operand (hr : r = .expression ∨ r = .product) (hq : q ∈ r.choices)
    (h : Tells ts w n q) (hw : w ++ after <:+ ts) : Writes ts n := by
  have hchoices : q ∈ [Nonterminal.product, .parenthesis, .functionCall, .basicExpression] := by
    rcases hr with rfl | rfl
    · exact List.mem_cons.2 (.inl (List.mem_singleton.1 hq))
    · exact List.mem_cons_of_mem _ hq
  simp only [List.mem_cons, List.not_mem_nil, or_false] at hchoices
  rcases hchoices with rfl | rfl | rfl | rfl <;> exact h after hw

theorem WrittenIn.of_ledBy {e : Node} (hk : k ∈ [TokenKind.equals, .parenStart, .comma])
    (hled : LedBy k w) (hafter : Ends after) (hw : w ++ after <:+ ts)
    (he : Spells .expression w.tail e) : WrittenIn ts e := by
  obtain ⟨sign, hhead, hs⟩ := hled
  obtain ⟨v, rfl⟩ := List.head?_eq_some_iff.1 hhead
  exact ⟨sign, v, after, k, hk, hs, hw, isExpression_of_shapes (shapes_of_spells he), hafter⟩

theorem suffix_of_cons {t : Token} (h : t :: w <:+ ts) : w <:+ ts :=
  (List.suffix_cons t w).trans h

theorem suffix_of_append (h : v ++ w <:+ ts) : w <:+ ts := (List.suffix_append v w).trans h

theorem suffix_tail (hled : LedBy k w) (h : w ++ after <:+ ts) : w.tail ++ after <:+ ts := by
  obtain ⟨t, ht, -⟩ := hled
  obtain ⟨v, rfl⟩ := List.head?_eq_some_iff.1 ht
  exact suffix_of_cons h

section Parts

variable {first left right : Node} {others : List (List Token × Node)} {sign : Token} {start : Nat}

theorem tells_params (hled : ∀ x ∈ others, LedBy .comma x.1) (hfirst : Tells ts w first .param)
    (hothers : ∀ x ∈ others, Tells ts x.1.tail x.2 .param) :
    Tells ts (w ++ others.flatMap (·.1))
      (.mk start Nonterminal.params.name (.list (first :: others.map (·.2)))) .params := by
  intro after hw
  rw [List.append_assoc] at hw
  exact .list_of_kind (by decide) (List.forall_mem_cons.2 ⟨hfirst _ hw,
    .pieces (suffix_of_append hw) fun x hx u hu _ =>
      hothers x hx u (suffix_tail (hled x hx) hu)⟩)

/-- An argument ends at the next comma, and the last where the list does. -/
theorem tells_callArgs (he : Spells .expression w first)
    (hled : ∀ x ∈ others, LedBy .comma x.1)
    (hes : ∀ x ∈ others, Spells .expression x.1.tail x.2)
    (hfirst : Tells ts w first .expression)
    (hothers : ∀ x ∈ others, Tells ts x.1.tail x.2 .expression) :
    Tells ts (w ++ others.flatMap (·.1))
      (.mk start Nonterminal.callArgs.name (.list (first :: others.map (·.2)))) .callArgs := by
  intro opening after ho hafter hw
  rw [List.append_assoc] at hw
  have hcommas : ∀ x ∈ others, Ends x.1 := fun x hx => .ledBy (hled x hx) (by decide)
  have hrest := suffix_of_append (suffix_of_cons hw)
  refine .list (List.forall_mem_cons.2 ⟨?_, fun e hmem => ?_⟩) (List.forall_mem_cons.2
    ⟨hfirst _ (suffix_of_cons hw), .pieces hrest fun x hx u hu _ =>
      hothers x hx u (suffix_tail (hled x hx) hu)⟩)
  · exact .of_ledBy (w := opening :: w) (by decide) ⟨opening, rfl, ho⟩
      (.append (.pieces hcommas) hafter) hw he
  · obtain ⟨x, hx, rfl⟩ := List.mem_map.1 hmem
    obtain ⟨u, hu, hends⟩ := exists_after_of_flatMap hx hrest
    exact .of_ledBy (by decide) (hled x hx) (hends hcommas hafter) hu (hes x hx)

/-- The node of an operator holds two operands and no expression that stands by itself. -/
theorem tells_operator (hr : r = .expression ∨ r = .product)
    (hk : k ∈ Nonterminal.expression.operators ++ Nonterminal.product.operators)
    (hq : q ∈ r.choices) (hs : sign.Is k) (hleft : Tells ts w left q)
    (hright : Tells ts v right r) :
    Tells ts (w ++ sign :: v) (Jay.binary start (.ofToken sign) left right) r := by
  have hkind : ((Jay.operator? (Node.ofToken sign).kind).map NodeTag.name).getD
      (Node.ofToken sign).kind ∉ expressionKinds := by
    have hkinds : ∀ k ∈ Nonterminal.expression.operators ++ Nonterminal.product.operators,
        ((Jay.operator? k.name).map NodeTag.name).getD k.name ∉ expressionKinds := by decide
    have hsign : (Node.ofToken sign).kind = k.name := hs
    exact hsign ▸ hkinds k hk
  have hnode (after : List Token) (hw : w ++ sign :: v ++ after <:+ ts) :
      Writes ts (Jay.binary start (.ofToken sign) left right) := by
    rw [List.append_assoc] at hw
    have hafter := suffix_of_cons (suffix_of_append hw)
    have hright : Writes ts right := by rcases hr with rfl | rfl <;> exact hright after hafter
    exact .composite_of_kind hkind (.field (hleft.writes_operand hr hq hw) (.field hright nofun))
  rcases hr with rfl | rfl <;> exact hnode

end Parts

/-- The induction is on how the tree is spelled. -/
theorem tells_of_spells (h : Spells r w n) : Tells ts w n r := by
  induction h with
  | importDirective => exact fun _ _ => .composite_of_kind (by decide) (.field (.ofToken _) nofun)
  | declStatement hq _ hl ih =>
    intro after hw
    rw [List.append_assoc] at hw
    exact ih.writes hq (.cons hl (by decide)) hw
  | statement hq _ hv ih =>
    intro after hafter hw
    rw [List.append_assoc] at hw
    exact ih.writes hq (.append (.lineEnd hv) hafter) hw
  | variableDecl _ _ _ hled hvalue ih =>
    intro after hafter hw
    simp only [List.cons_append, List.append_assoc] at hw
    replace hw := suffix_of_append (suffix_of_cons (suffix_of_cons hw))
    refine .composite (fun e he => ?_) (.field (.ofToken _) (.cons (.token _)
      (.cons (.piece fun x hx => ?_) nofun)))
    · obtain ⟨x, rfl, rfl⟩ := Option.map_eq_some_iff.1 (Option.mem_toList.1 he)
      exact .of_ledBy (by decide) (hled x rfl) hafter hw (hvalue x rfl)
    · cases hx
      exact ih x rfl after (suffix_tail (hled x rfl) hw)
  | functionDecl _ _ _ _ _ _ _ ihparams ihbody =>
    intro after hw
    simp only [List.cons_append, List.append_assoc] at hw
    replace hw := suffix_of_cons (suffix_of_cons (suffix_of_cons hw))
    have hbody := ihbody after (suffix_of_append (suffix_of_cons (suffix_of_append hw)))
    refine .composite_of_kind (by decide) (.field (.ofToken _) (.cons (.piece fun x hx => ?_)
      (.cons (.token _) (.field hbody nofun))))
    cases hx
    exact ihparams x rfl _ hw
  | @list r _ _ _ _ _ hq hfirst _ hled hothers ih ihs =>
    cases r with
    | params =>
      cases hq
      exact tells_params hled ih ihs
    | callArgs =>
      cases hq
      exact tells_callArgs hfirst hled hothers ih ihs
    | _ => cases hq
  | param =>
    exact fun _ _ => .composite_of_kind (by decide)
      (.field (.ofToken _) (.field (.ofToken _) nofun))
  | block _ _ hstatements hc ih =>
    intro after hw
    simp only [List.cons_append, List.append_assoc] at hw
    refine .list_of_kind (by decide) (.pieces (suffix_of_append (suffix_of_cons hw))
      fun x hx u hu hends => ih x hx u (hends (fun y hy => ?_) (.cons hc (by decide))) hu)
    exact ends_of_spells_statement (hstatements y hy)
  | assignment _ hs hvalue ih =>
    intro after hafter hw
    replace hw := suffix_of_cons hw
    refine .composite (fun e he => ?_) (.field (.ofToken _)
      (.field (ih after (suffix_of_cons hw)) nofun))
    obtain rfl := List.mem_singleton.1 he
    exact .of_ledBy (by decide) ⟨_, rfl, hs⟩ hafter hw hvalue
  | @functionCall first opening closing member args _ _ ho _ hc ih =>
    intro after hw
    simp only [List.cons_append, List.append_assoc] at hw
    replace hw := suffix_of_append (suffix_of_cons hw)
    have hmodule : ∀ n ∈ member.map fun _ => Node.ofToken first, Writes ts n := by
      intro n hn
      obtain ⟨_, -, rfl⟩ := Option.map_eq_some_iff.1 hn
      exact .ofToken first
    refine .composite_of_kind (by decide) (.cons hmodule (.field (.ofToken _)
      (.cons (.piece fun x hx => ?_) nofun)))
    cases hx
    exact ih x rfl opening _ ho (.cons hc (by decide)) hw
  | operand hr hq _ ih =>
    have hwrites (after) (hw : _ ++ after <:+ ts) := ih.writes_operand hr hq hw
    rcases hr with rfl | rfl <;> exact hwrites
  | @operator r _ _ _ _ _ _ _ _ hq _ _ hk hs _ ih ih' =>
    cases r with
    | expression => exact tells_operator (.inl rfl) (List.mem_append_left _ hk) hq hs ih ih'
    | product => exact tells_operator (.inr rfl) (List.mem_append_right _ hk) hq hs ih ih'
    | _ => cases hk
  | parenthesis _ _ _ ih =>
    intro after hw
    rw [List.cons_append, List.append_assoc] at hw
    exact ih _ (suffix_of_cons hw)
  | basicExpression => exact fun _ _ => .ofToken _
  | root _ _ _ ihimports ihdeclarations =>
    intro after hw
    simp only [List.append_assoc] at hw
    replace hw := suffix_of_append hw
    exact .list_of_kind (by decide) (List.forall_mem_append.2
      ⟨.pieces hw fun x hx u hu _ => ihimports x hx u hu,
        .pieces (suffix_of_append hw) fun x hx u hu _ => ihdeclarations x hx u hu⟩)

end Tells

namespace Jay

variable {ts : List Token} {hasModule? : Option (String → Bool)}

theorem isExpression_of_run {s t : ParseState} {n : Node}
    (h : grammar.apply Nonterminal.expression.name ⟨.tokens ts, hasModule?⟩ s = (.ok n, t)) :
    IsExpression ((ts.drop s.cursor).take (t.cursor - s.cursor)) n := by
  rcases (builds_apply ts hasModule? .expression).answers (ParseState.length_kinds_le ts s) with
    ⟨_, _, w, hok, hw, -, hspells, -⟩ | ⟨_, _, herr, -⟩
  · cases h.symm.trans hok
    have htaken : (ts.drop s.cursor).take (t.cursor - s.cursor) = w := by
      rw [hw.tokens, hw.cursor, Nat.add_sub_cancel_left, List.take_left]
    rw [htaken]
    exact isExpression_of_shapes (shapes_of_spells hspells)
  · cases h.symm.trans herr

theorem writes_of_parse {out : ParseOutput} (h : parse hasModule? ts = .ok out) :
    Writes ts out.tree := by
  obtain ⟨t, w, -, -, hw, -, -, hspells⟩ := exists_run_of_parse h
  exact tells_of_spells hspells (ts.drop t.cursor) (hw.tokens ▸ List.suffix_rfl)

/-- What the rule of expressions takes is an expression with the tree that the rule gives, and so is
what follows the sign before each expression in the tree of a module. -/
theorem expressions_of_parse :
    (∀ s n t, grammar.apply Nonterminal.expression.name ⟨.tokens ts, hasModule?⟩ s = (.ok n, t) →
      IsExpression ((ts.drop s.cursor).take (t.cursor - s.cursor)) n) ∧
    ∀ out, parse hasModule? ts = .ok out →
      ∀ m ∈ out.tree.subtrees, ∀ e ∈ m.expressions, WrittenIn ts e :=
  ⟨fun _ _ _ hrun => isExpression_of_run hrun, fun _ hout => writes_of_parse hout⟩

def mixedSigns : List Char := "var x = a - (b + c) * d\n".toList

theorem expressions_of_parse_mixedSigns : ∃ ts out n t, lex TokenRule.jay mixedSigns = .ok ts ∧
    parse none ts = .ok out ∧
    grammar.apply Nonterminal.expression.name ⟨.tokens ts, none⟩ { cursor := 3 } = (.ok n, t) ∧
    t.cursor = 12 ∧ n.subtrees.map (fun m => (m.kind, m.position)) =
      [("subtract", 8), ("IDENTIFIER", 8), ("multiply", 12), ("add", 13), ("IDENTIFIER", 13),
        ("IDENTIFIER", 17), ("IDENTIFIER", 22)] ∧
    IsExpression ((ts.drop 3).take 9) n ∧
    ∀ m ∈ out.tree.subtrees, ∀ e ∈ m.expressions, WrittenIn ts e := by
  have h : (do
      let ts ← (lex TokenRule.jay mixedSigns).toOption
      let _ ← (parse none ts).toOption
      let answer :=
        grammar.apply Nonterminal.expression.name ⟨.tokens ts, none⟩ { cursor := 3 }
      let n ← answer.1.toOption
      pure (answer.2.cursor, n.subtrees.map fun m => (m.kind, m.position))) =
        some (12, [("subtract", 8), ("IDENTIFIER", 8), ("multiply", 12), ("add", 13),
          ("IDENTIFIER", 13), ("IDENTIFIER", 17), ("IDENTIFIER", 22)]) := by
    decide +kernel
  obtain ⟨ts, hlex, h⟩ := Option.bind_eq_some_iff.1 h
  obtain ⟨out, hparse, h⟩ := Option.bind_eq_some_iff.1 h
  obtain ⟨n, hn, h⟩ := Option.bind_eq_some_iff.1 h
  rw [Except.toOption_eq_some] at hlex hparse hn
  obtain ⟨hcursor, hsubtrees⟩ := Prod.mk.inj (Option.some.inj h)
  have hrun : grammar.apply Nonterminal.expression.name ⟨.tokens ts, none⟩ { cursor := 3 } =
      (.ok n, _) := Prod.ext hn rfl
  obtain ⟨hruns, hall⟩ := @expressions_of_parse ts none
  have htaken := hruns _ _ _ hrun
  rw [hcursor] at htaken
  exact ⟨ts, out, n, _, hlex, hparse, hrun, hcursor, hsubtrees, htaken, hall out hparse⟩

end Jay

end JayFrontEnd
