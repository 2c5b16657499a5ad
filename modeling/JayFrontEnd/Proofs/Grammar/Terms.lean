import JayFrontEnd.Proofs.Grammar.Expressions

/-!
# Expressions are phrases

Tokens that are an expression by their terms are one by the rules as well, with the same tree: the
rules have no other way to come to it. So what is true of the trees of phrases is true of every
expression in the tree of a module.
-/

namespace JayFrontEnd

namespace Chain

variable {α β : Type}

def tokens : Chain (List Token) → List Token
  | single w => w
  | link w o rest => w ++ o :: rest.tokens

theorem operators_map (f : α → β) (c : Chain α) : (c.map f).operators = c.operators := by
  induction c with
  | single a => rfl
  | link a o rest ih => exact congrArg (o :: ·) ih

theorem items_map (f : α → β) (c : Chain α) : (c.map f).items = c.items.map f := by
  induction c with
  | single a => rfl
  | link a o rest ih => exact congrArg (f a :: ·) ih

theorem operators_mapFirst (f : α → α) (c : Chain α) : (c.mapFirst f).operators = c.operators := by
  cases c <;> rfl

theorem tokens_mapFirst (t : Token) (c : Chain (List Token)) :
    (c.mapFirst (t :: ·)).tokens = t :: c.tokens := by
  cases c <;> rfl

theorem nested_fst (c : Chain (List Token × Node)) : c.nested.1 = (c.map (·.1)).tokens := by
  induction c with
  | single p => rfl
  | link p o rest ih => exact congrArg (fun w => p.1 ++ o :: w) ih

theorem grouped_fst (c : Chain (List Token × Node)) : c.grouped.1 = (c.map (·.1)).tokens := by
  rw [grouped, nested_fst]
  induction c with
  | single p => rfl
  | link p o rest ih =>
    simp only [map, tokens, ← ih, products]
    split
    · rfl
    · cases rest.products with
      | single d => rfl
      | link d o' ds => exact List.append_assoc ..

/-- The chain is split at the signs of sums, and at all of them. -/
theorem forall_products {P : α → Prop} {Q : Token → Prop} {c : Chain α} (hP : ∀ a ∈ c.items, P a)
    (hQ : ∀ o ∈ c.operators, Q o) :
    (∀ o ∈ c.products.operators, Q o ∧ o.isSum = true) ∧ ∀ d ∈ c.products.items,
      (∀ a ∈ d.items, P a) ∧ ∀ o ∈ d.operators, Q o ∧ o.isSum = false := by
  induction c with
  | single a => exact ⟨nofun, List.forall_mem_singleton.2 ⟨hP, nofun⟩⟩
  | link a o rest ih =>
    obtain ⟨ha, hP⟩ := List.forall_mem_cons.1 hP
    obtain ⟨ho, hQ⟩ := List.forall_mem_cons.1 hQ
    obtain ⟨hsums, hparts⟩ := ih hP hQ
    simp only [products]
    split
    · next hsum =>
      refine ⟨List.forall_mem_cons.2 ⟨⟨ho, hsum⟩, hsums⟩, List.forall_mem_cons.2 ⟨?_, hparts⟩⟩
      exact ⟨List.forall_mem_singleton.2 ha, nofun⟩
    · next hsum =>
      rw [operators_mapFirst]
      refine ⟨hsums, ?_⟩
      have hfirst : ∀ d ∈ rest.products.items, (∀ x ∈ (link a o d).items, P x) ∧
          ∀ x ∈ (link a o d).operators, Q x ∧ x.isSum = false := fun d hd =>
        ⟨List.forall_mem_cons.2 ⟨ha, (hparts d hd).1⟩,
          List.forall_mem_cons.2 ⟨⟨ho, Bool.eq_false_iff.2 hsum⟩, (hparts d hd).2⟩⟩
      cases hrest : rest.products with
      | single d =>
        intro x hx
        rw [List.mem_singleton.1 hx]
        exact hfirst d (hrest ▸ List.mem_singleton_self d)
      | link d o' ds =>
        rw [hrest] at hparts hfirst
        exact List.forall_mem_cons.2
          ⟨hfirst d List.mem_cons_self, (List.forall_mem_cons.1 hparts).2⟩

end Chain

theorem tokens_termsFrom (depth : Nat) (w : List Token) : (termsFrom depth w).tokens = w := by
  induction w generalizing depth with
  | nil => rfl
  | cons t w ih =>
    rw [termsFrom]
    split
    · exact congrArg (t :: ·) (ih 0)
    · rw [Chain.tokens_mapFirst, ih]

theorem isOperator_of_mem_termsFrom {depth : Nat} {w : List Token} :
    ∀ o ∈ (termsFrom depth w).operators, o.isOperator = true := by
  induction w generalizing depth with
  | nil => exact nofun
  | cons t w ih =>
    rw [termsFrom]
    split
    · next h => exact List.forall_mem_cons.2 ⟨h.2, ih⟩
    · rw [Chain.operators_mapFirst]
      exact ih

/-- A chain of what a rule chooses, with its operators between, is a phrase of the rule. -/
theorem spells_nested {r : Nonterminal} {c : Chain (List Token × Node)}
    (hr : r = .expression ∨ r = .product)
    (hitems : ∀ x ∈ c.items, ∃ q ∈ r.choices, Spells q x.1 x.2)
    (hoperators : ∀ o ∈ c.operators, ∃ k ∈ r.operators, o.Is k) :
    Spells r c.nested.1 c.nested.2 := by
  induction c with
  | single p =>
    obtain ⟨q, hq, hspells⟩ := hitems p (List.mem_singleton_self p)
    exact .operand hr hq hspells
  | link p o rest ih =>
    obtain ⟨w, left⟩ := p
    obtain ⟨⟨q, hq, hspells⟩, hrest⟩ := List.forall_mem_cons.1 hitems
    obtain ⟨⟨k, hk, ho⟩, hmore⟩ := List.forall_mem_cons.1 hoperators
    have hne := ne_nil_of_spells hspells (ne_root_of_mem_choices hq)
    obtain ⟨t, u, rfl⟩ := List.exists_cons_of_ne_nil hne
    have hstart : StartsAt t.position (t :: u) := fun _ ht => by cases ht; rfl
    have hall : k ∈ Nonterminal.expression.operators ++ Nonterminal.product.operators := by
      rcases hr with rfl | rfl
      · exact List.mem_append_left _ hk
      · exact List.mem_append_right _ hk
    have hbinary : Chain.binary (t :: u, left) o (rest.nested.1, rest.nested.2) =
        (t :: u ++ o :: rest.nested.1, Jay.binary t.position (.ofToken o) left rest.nested.2) :=
      binary_eq hall ho hstart hne
    show Spells r (Chain.binary (t :: u, left) o (rest.nested.1, rest.nested.2)).1
      (Chain.binary (t :: u, left) o (rest.nested.1, rest.nested.2)).2
    rw [hbinary]
    exact .operator hq hspells hstart hk ho (ih hrest hmore)

theorem exists_operator {o : Token} (ho : o.isOperator = true) :
    if o.isSum then ∃ k ∈ Nonterminal.expression.operators, o.Is k
    else ∃ k ∈ Nonterminal.product.operators, o.Is k := by
  rw [Token.isOperator, Token.operation?, Option.isSome_map, List.find?_isSome] at ho
  obtain ⟨⟨k, tag⟩, hk, ho⟩ := ho
  have ho : o.Is k := beq_iff_eq.1 ho
  rw [isSum_of_is ho]
  simp only [operations, List.mem_cons, Prod.mk.injEq, List.not_mem_nil, or_false] at hk
  rcases hk with ⟨rfl, -⟩ | ⟨rfl, -⟩ | ⟨rfl, -⟩ | ⟨rfl, -⟩
  · exact ⟨.add, by decide, ho⟩
  · exact ⟨.sub, by decide, ho⟩
  · exact ⟨.mul, by decide, ho⟩
  · exact ⟨.div, by decide, ho⟩

theorem spells_grouped {c : Chain (List Token × Node)}
    (hitems : ∀ x ∈ c.items, ∃ q ∈ Nonterminal.product.choices, Spells q x.1 x.2)
    (hoperators : ∀ o ∈ c.operators, o.isOperator = true) :
    Spells .expression c.grouped.1 c.grouped.2 := by
  obtain ⟨hsums, hproducts⟩ := Chain.forall_products hitems hoperators
  have hsum : ∀ {o : Token}, o.isOperator = true ∧ o.isSum = true →
      ∃ k ∈ Nonterminal.expression.operators, o.Is k := fun ⟨ho, hsum⟩ => by
    simpa only [hsum, if_true] using exists_operator ho
  have hfactor : ∀ {o : Token}, o.isOperator = true ∧ o.isSum = false →
      ∃ k ∈ Nonterminal.product.operators, o.Is k := fun ⟨ho, hsum⟩ => by
    simpa only [hsum, Bool.false_eq_true, if_false] using exists_operator ho
  refine spells_nested (.inl rfl) (fun x hx => ?_) fun o ho => ?_
  · rw [Chain.items_map] at hx
    obtain ⟨d, hd, rfl⟩ := List.mem_map.1 hx
    obtain ⟨hterms, hfactors⟩ := hproducts d hd
    exact ⟨.product, List.mem_singleton_self _,
      spells_nested (.inr rfl) hterms fun o ho => hfactor (hfactors o ho)⟩
  · rw [Chain.operators_map] at ho
    exact hsum (hsums o ho)

theorem spells_of_isExpression {w : List Token} {n : Node} (h : IsExpression w n) :
    Spells .expression w n := by
  refine @IsExpression.rec (fun w n _ => Spells .expression w n)
    (fun w n _ => ∃ q ∈ Nonterminal.product.choices, Spells q w n) ?_ ?_ ?_ ?_ w n h
  · intro w c hcut _ ih
    have hoperators : ∀ o ∈ c.operators, o.isOperator = true := by
      rw [← Chain.operators_map (·.1), hcut]
      exact isOperator_of_mem_termsFrom
    have hspells := spells_grouped ih hoperators
    rwa [Chain.grouped_fst, hcut, tokens_termsFrom] at hspells
  · exact fun ho _ hc ih => ⟨.parenthesis, by decide, .parenthesis ho ih hc⟩
  · exact fun h => ⟨.functionCall, by decide, h⟩
  · intro t ht
    obtain ⟨k, hk, hkind⟩ := List.any_eq_true.1 ht
    exact ⟨.basicExpression, by decide, .basicExpression hk (beq_iff_eq.1 hkind)⟩

theorem isExpression_iff_spells {w : List Token} {n : Node} :
    IsExpression w n ↔ Spells .expression w n :=
  ⟨spells_of_isExpression, fun h => isExpression_of_shapes (shapes_of_spells h)⟩

end JayFrontEnd
