import JayFrontEnd.Proofs.Grammar.Imports
import JayFrontEnd.Proofs.Outcome
import JayFrontEnd.Proofs.Parsing.Spans

/-!
# The leaves of a module's tree

The leaves of a tree that a parse gives are the names and literals among the tokens: all of them,
once each and in their order. Keywords, punctuation, operators and line breaks leave no node behind.
The nodes above the leaves stand where the first of their tokens does, so that the positions in a
tree never decrease from a node to those that come after it.
-/

namespace JayFrontEnd

mutual

/-- The node and all nodes below it, in the order of fields and items. -/
def Node.subtrees : Node → List Node
  | .mk position kind value => .mk position kind value :: value.subtrees

def Value.subtrees : Value → List Node
  | .leaf _ => []
  | .text _ => []
  | .composite fields => Value.fieldSubtrees fields
  | .list items => Value.itemSubtrees items

def Value.fieldSubtrees : List (String × Option Node) → List Node
  | [] => []
  | (_, none) :: fields => Value.fieldSubtrees fields
  | (_, some n) :: fields => n.subtrees ++ Value.fieldSubtrees fields

def Value.itemSubtrees : List Node → List Node
  | [] => []
  | n :: items => n.subtrees ++ Value.itemSubtrees items

end

namespace Node

def isLeaf (n : Node) : Bool :=
  match n.value with
  | .leaf _ | .text _ => true
  | .composite _ | .list _ => false

def leaves (n : Node) : List Node := n.subtrees.filter isLeaf

end Node

def Token.isOperand (t : Token) : Bool := operandKinds.any fun k => t.kind == k.name

/-- The leaves that tokens make: one for each name and literal. -/
def operandLeaves (w : List Token) : List Node := (w.filter Token.isOperand).map .ofToken

namespace Node

variable {position : Nat} {kind : String}

theorem subtrees_composite (fields : List (String × Option Node)) :
    (mk position kind (.composite fields)).subtrees =
      mk position kind (.composite fields) :: fields.flatMap fun f => f.2.elim [] subtrees := by
  rw [subtrees, Value.subtrees]
  refine congrArg _ ?_
  induction fields with
  | nil => rfl
  | cons f fields ih =>
    obtain ⟨name, _ | n⟩ := f
    · exact ih
    · rw [Value.fieldSubtrees, ih, List.flatMap_cons]
      rfl

theorem subtrees_list (items : List Node) :
    (mk position kind (.list items)).subtrees =
      mk position kind (.list items) :: items.flatMap subtrees := by
  rw [subtrees, Value.subtrees]
  refine congrArg _ ?_
  induction items with
  | nil => rfl
  | cons n items ih => rw [Value.itemSubtrees, ih, List.flatMap_cons]

theorem leaves_ofToken (t : Token) : (ofToken t).leaves = [ofToken t] := rfl

theorem leaves_composite (fields : List (String × Option Node)) :
    (mk position kind (.composite fields)).leaves = fields.flatMap fun f => f.2.elim [] leaves := by
  have hinner : ¬ (mk position kind (.composite fields)).isLeaf = true := Bool.false_ne_true
  rw [leaves, subtrees_composite, List.filter_cons_of_neg hinner, List.filter_flatMap]
  exact List.flatMap_congr fun f _ => by cases f.2 <;> rfl

theorem leaves_list (items : List Node) :
    (mk position kind (.list items)).leaves = items.flatMap leaves := by
  have hinner : ¬ (mk position kind (.list items)).isLeaf = true := Bool.false_ne_true
  rw [leaves, subtrees_list, List.filter_cons_of_neg hinner, List.filter_flatMap]
  rfl

end Node

/-! ## The leaves of phrases -/

section Leaves

variable {t : Token} {k : TokenKind} {w : List Token}

theorem operandLeaves_append (v w : List Token) :
    operandLeaves (v ++ w) = operandLeaves v ++ operandLeaves w := by
  rw [operandLeaves, List.filter_append, List.map_append]
  rfl

theorem isOperand_of_is (ht : t.Is k) : t.isOperand = operandKinds.contains k := by
  rw [Token.isOperand, ht]
  cases k <;> decide

theorem operandLeaves_cons (ht : t.Is k) (hk : k ∈ operandKinds) (w : List Token) :
    operandLeaves (t :: w) = .ofToken t :: operandLeaves w := by
  have hkept : t.isOperand = true := by rw [isOperand_of_is ht, List.contains_iff_mem]; exact hk
  rw [operandLeaves, List.filter_cons_of_pos hkept, List.map_cons]
  rfl

theorem operandLeaves_cons_other (ht : t.Is k) (hk : k ∉ operandKinds) (w : List Token) :
    operandLeaves (t :: w) = operandLeaves w := by
  have hdropped : ¬ t.isOperand = true := by
    rw [isOperand_of_is ht, List.contains_iff_mem]; exact hk
  rw [operandLeaves, List.filter_cons_of_neg hdropped]
  rfl

theorem not_isOperand_of_isLayout (h : t.isLayout = true) : ¬ t.isOperand = true := by
  rcases Bool.or_eq_true_iff.1 h with h | h
  all_goals
    rw [Token.isOperand, beq_iff_eq.1 h]
    decide

theorem operandLeaves_lineEnd
    (h : w = [] ∨ ∃ lineEnd : Token, lineEnd.Is .newline ∧ w = [lineEnd]) :
    operandLeaves w = [] := by
  rcases h with rfl | ⟨lineEnd, hl, rfl⟩
  · rfl
  · exact operandLeaves_cons_other hl (by decide) []

theorem operandLeaves_toList {name : Option Token} (h : ∀ t ∈ name, t.Is .identifier) :
    operandLeaves name.toList = (name.map Node.ofToken).elim [] Node.leaves := by
  cases name with
  | none => rfl
  | some t => exact operandLeaves_cons (h t rfl) (by decide) []

theorem operandLeaves_ledBy (h : LedBy k w) (hk : k ∉ operandKinds) :
    operandLeaves w = operandLeaves w.tail := by
  obtain ⟨t, ht, his⟩ := h
  cases w with
  | nil => cases ht
  | cons x w =>
    cases ht
    exact operandLeaves_cons_other his hk w

theorem operandLeaves_pieces {xs : List (List Token × Node)}
    (h : ∀ x ∈ xs, x.2.leaves = operandLeaves x.1) :
    operandLeaves (xs.flatMap (·.1)) = (xs.map (·.2)).flatMap Node.leaves := by
  induction xs with
  | nil => rfl
  | cons x xs ih =>
    obtain ⟨hx, hxs⟩ := List.forall_mem_cons.1 h
    rw [List.flatMap_cons, operandLeaves_append, ← hx, ih hxs, List.map_cons, List.flatMap_cons]

theorem operandLeaves_piece {x : Option (List Token × Node)}
    (h : ∀ y ∈ x, y.2.leaves = operandLeaves y.1) :
    operandLeaves (x.elim [] (·.1)) = (x.map (·.2)).elim [] Node.leaves := by
  cases x with
  | none => rfl
  | some y => exact (h y rfl).symm

/-- The induction is on how the tree is spelled: each phrase keeps the leaves of its pieces in their
order, and what else it takes has none. -/
theorem leaves_of_spells {r : Nonterminal} {n : Node} (h : Spells r w n) :
    n.leaves = operandLeaves w := by
  induction h with
  | importDirective hk hm hl =>
    rw [operandLeaves_cons_other hk (by decide), operandLeaves_cons hm (by decide),
      operandLeaves_cons_other hl (by decide)]
    rfl
  | declStatement _ _ hl ih =>
    rw [operandLeaves_append, operandLeaves_cons_other hl (by decide), ih]
    exact (List.append_nil _).symm
  | statement _ _ hv ih => rw [operandLeaves_append, operandLeaves_lineEnd hv, ih, List.append_nil]
  | @variableDecl keyword target type value hk ht htype hled _ ih =>
    have hvalue := operandLeaves_piece fun x hx =>
      (ih x hx).trans (operandLeaves_ledBy (hled x hx) (by decide)).symm
    rw [operandLeaves_cons_other hk (by decide), operandLeaves_cons ht (by decide),
      operandLeaves_append, operandLeaves_toList htype, hvalue, Node.leaves_composite]
    simp [Node.leaves_ofToken]
  | @functionDecl keyword function opening closing params returns v body hk hf ho _ hc hreturns _
      ihparams ihbody =>
    rw [operandLeaves_cons_other hk (by decide), operandLeaves_cons hf (by decide),
      operandLeaves_cons_other ho (by decide), operandLeaves_append, operandLeaves_piece ihparams,
      operandLeaves_cons_other hc (by decide), operandLeaves_append, operandLeaves_toList hreturns,
      ← ihbody, Node.leaves_composite]
    simp [Node.leaves_ofToken]
  | @list r q w first others start _ _ _ hled _ ih ihs =>
    have hothers := operandLeaves_pieces fun x hx =>
      (ihs x hx).trans (operandLeaves_ledBy (hled x hx) (by decide)).symm
    rw [operandLeaves_append, hothers, ← ih, Node.leaves_list, List.flatMap_cons]
  | param hp ht =>
    rw [operandLeaves_cons hp (by decide), operandLeaves_cons ht (by decide)]
    rfl
  | block ho hv _ hc ih =>
    rw [operandLeaves_cons_other ho (by decide), operandLeaves_append, operandLeaves_lineEnd hv,
      operandLeaves_append, operandLeaves_pieces ih, operandLeaves_cons_other hc (by decide),
      Node.leaves_list]
    exact (List.append_nil _).symm
  | assignment ht hs _ ih =>
    rw [operandLeaves_cons ht (by decide), operandLeaves_cons_other hs (by decide), ← ih,
      Node.leaves_composite]
    simp [Node.leaves_ofToken]
  | @functionCall first opening closing member args hf hm ho _ hc ih =>
    rw [operandLeaves_cons hf (by decide), operandLeaves_append,
      operandLeaves_cons_other ho (by decide), operandLeaves_append, operandLeaves_piece ih,
      operandLeaves_cons_other hc (by decide), Node.leaves_composite]
    cases member with
    | none => simp [Node.leaves_ofToken, operandLeaves]
    | some x =>
      obtain ⟨hdot, hname⟩ := hm x rfl
      rw [Option.elim_some, operandLeaves_cons_other hdot (by decide),
        operandLeaves_cons hname (by decide)]
      simp [Node.leaves_ofToken, operandLeaves]
  | operand _ _ _ ih => exact ih
  | @operator r q w v left right sign k start _ _ _ hk hs _ ih ih' =>
    have hsign : k ∉ operandKinds := by
      cases r with
      | expression | product =>
        rcases List.mem_pair.1 hk with rfl | rfl <;> decide
      | _ => cases hk
    rw [operandLeaves_append, operandLeaves_cons_other hs hsign, ← ih, ← ih', Jay.binary,
      Node.leaves_composite]
    simp
  | parenthesis ho _ hc ih =>
    rw [operandLeaves_cons_other ho (by decide), operandLeaves_append,
      operandLeaves_cons_other hc (by decide), ih]
    exact (List.append_nil _).symm
  | basicExpression hk ht => exact (operandLeaves_cons ht hk []).symm
  | @root v imports declarations start hv _ _ ihimports ihdeclarations =>
    rw [operandLeaves_append, operandLeaves_lineEnd hv, operandLeaves_append,
      operandLeaves_pieces ihimports, operandLeaves_pieces ihdeclarations, Node.leaves_list,
      List.flatMap_append]
    rfl

end Leaves

/-! ## The positions in a tree -/

/-- The positions are those of some of the tokens, and do not decrease if those of the tokens do
not. -/
structure Follows (w : List Token) (positions : List Nat) : Prop where
  sorted : w.Pairwise (·.position ≤ ·.position) → positions.Pairwise (· ≤ ·)
  mem : ∀ i ∈ positions, ∃ t ∈ w, t.position = i

namespace Follows

variable {v w : List Token} {is js : List Nat}

theorem nil (w : List Token) : Follows w [] := ⟨fun _ => .nil, nofun⟩

theorem single (t : Token) : Follows [t] [t.position] :=
  ⟨fun _ => List.pairwise_singleton .., by simp⟩

theorem append (hv : Follows v is) (hw : Follows w js) : Follows (v ++ w) (is ++ js) where
  sorted h := by
    obtain ⟨hsv, hsw, hvw⟩ := List.pairwise_append.1 h
    refine List.pairwise_append.2 ⟨hv.sorted hsv, hw.sorted hsw, fun i hi j hj => ?_⟩
    obtain ⟨t, ht, rfl⟩ := hv.mem i hi
    obtain ⟨u, hu, rfl⟩ := hw.mem j hj
    exact hvw t ht u hu
  mem := List.forall_mem_append.2
    ⟨fun i hi => (hv.mem i hi).imp fun _ ht => ⟨List.mem_append_left _ ht.1, ht.2⟩,
      fun j hj => (hw.mem j hj).imp fun _ ht => ⟨List.mem_append_right _ ht.1, ht.2⟩⟩

theorem mono (hv : Follows v is) (h : v.Sublist w) : Follows w is where
  sorted hw := hv.sorted (hw.sublist h)
  mem i hi := (hv.mem i hi).imp fun _ ht => ⟨h.subset ht.1, ht.2⟩

theorem skip (hw : Follows w is) (t : Token) : Follows (t :: w) is :=
  hw.mono (List.sublist_cons_self ..)

/-- A node above others, which stands where the tokens start. -/
theorem above {start : Nat} (hw : Follows w is) (hstart : StartsAt start w) (hne : w ≠ []) :
    Follows w (start :: is) := by
  obtain ⟨t, v, rfl⟩ := List.exists_cons_of_ne_nil hne
  obtain rfl : t.position = start := hstart t rfl
  refine ⟨fun h => List.pairwise_cons.2 ⟨fun i hi => ?_, hw.sorted h⟩,
    List.forall_mem_cons.2 ⟨⟨t, List.mem_cons_self, rfl⟩, hw.mem⟩⟩
  obtain ⟨u, hu, rfl⟩ := hw.mem i hi
  rcases List.mem_cons.1 hu with rfl | hu
  · exact Nat.le_refl _
  · exact (List.pairwise_cons.1 h).1 u hu

/-- A node above others, which stands where its first token does. -/
theorem node (hw : Follows w is) (t : Token) : Follows (t :: w) (t.position :: is) :=
  (hw.skip t).above (startsAt_cons t w) (List.cons_ne_nil _ _)

theorem pieces {xs : List (List Token × Node)} (h : ∀ x ∈ xs, Follows x.1 x.2.positions) :
    Follows (xs.flatMap (·.1)) ((xs.map (·.2)).flatMap Node.positions) := by
  induction xs with
  | nil => exact nil _
  | cons x xs ih =>
    obtain ⟨hx, hxs⟩ := List.forall_mem_cons.1 h
    exact hx.append (ih hxs)

theorem piece {x : Option (List Token × Node)} (h : ∀ y ∈ x, Follows y.1 y.2.positions) :
    Follows (x.elim [] (·.1)) ((x.map (·.2)).elim [] Node.positions) := by
  cases x with
  | none => exact nil _
  | some y => exact h y rfl

theorem toList (name : Option Token) :
    Follows name.toList ((name.map Node.ofToken).elim [] Node.positions) := by
  cases name with
  | none => exact nil _
  | some t => exact single t

end Follows

namespace Node

variable {position : Nat} {kind : String}

theorem positions_ofToken (t : Token) : (ofToken t).positions = [t.position] := rfl

theorem positions_composite (fields : List (String × Option Node)) :
    (mk position kind (.composite fields)).positions =
      position :: fields.flatMap fun f => f.2.elim [] positions := by
  rw [positions, Value.positions]
  refine congrArg _ ?_
  induction fields with
  | nil => rfl
  | cons f fields ih =>
    obtain ⟨name, _ | n⟩ := f
    · exact ih
    · rw [Value.fieldPositions, ih, List.flatMap_cons]
      rfl

theorem positions_list (items : List Node) :
    (mk position kind (.list items)).positions = position :: items.flatMap positions := by
  rw [positions, Value.positions]
  refine congrArg _ ?_
  induction items with
  | nil => rfl
  | cons n items ih => rw [Value.itemPositions, ih, List.flatMap_cons]

end Node

section Positions

variable {r : Nonterminal} {w : List Token} {n : Node}

/-- The induction is on how the tree is spelled. Each node above others stands where its phrase
starts; the root is left out, since a module may have no tokens. -/
theorem follows_of_spells (h : Spells r w n) (hr : r ≠ .root) : Follows w n.positions := by
  induction h with
  | importDirective => exact ((Follows.single _).mono (.cons_cons _ (List.nil_sublist _))).node _
  | declStatement hq _ _ ih =>
    exact (ih (ne_root_of_mem_choices hq)).mono (List.sublist_append_left ..)
  | statement hq _ _ ih =>
    exact (ih (ne_root_of_mem_choices hq)).mono (List.sublist_append_left ..)
  | @variableDecl keyword target type value _ _ _ _ _ ih =>
    have hvalue := Follows.piece fun x hx => (ih x hx nofun).mono (List.tail_sublist _)
    have h := ((Follows.single target).append ((Follows.toList type).append hvalue)).node keyword
    rw [Node.positions_composite]
    simpa [Node.positions_ofToken] using h
  | @functionDecl keyword function opening closing params returns v body _ _ _ _ _ _ _ ihparams
      ihbody =>
    have hparams := Follows.piece fun x hx => ihparams x hx nofun
    have hrest := hparams.append (((Follows.toList returns).append (ihbody nofun)).skip closing)
    have h := ((Follows.single function).append (hrest.skip opening)).node keyword
    rw [Node.positions_composite]
    simpa [Node.positions_ofToken] using h
  | @list r q w first others start hq hfirst hstart _ _ ih ihs =>
    have hq' := ne_root_of_item? hq
    have hne := ne_nil_of_spells hfirst hq'
    have hothers := Follows.pieces fun x hx => (ihs x hx hq').mono (List.tail_sublist _)
    rw [Node.positions_list]
    exact ((ih hq').append hothers).above (hstart.append hne _)
      (List.append_ne_nil_of_left_ne_nil hne _)
  | @param parameter type _ _ =>
    exact ((Follows.single parameter).append (Follows.single type)).above
      (startsAt_cons parameter _) (List.cons_ne_nil _ _)
  | @block opening closing v statements _ _ _ _ ih =>
    have hstatements := Follows.pieces fun x hx => ih x hx nofun
    rw [Node.positions_list]
    refine Follows.node (hstatements.mono ?_) opening
    exact (List.sublist_append_left ..).trans (List.sublist_append_right ..)
  | @assignment target sign w value _ _ _ ih =>
    have h := ((Follows.single target).append ((ih nofun).skip sign)).above (startsAt_cons target _)
      (List.cons_ne_nil _ _)
    rw [Node.positions_composite]
    simpa [Node.positions_ofToken] using h
  | @functionCall first opening closing member args _ _ _ _ _ ih =>
    have hargs := Follows.piece fun x hx => ih x hx nofun
    have hrest := (hargs.mono (List.sublist_append_left _ [closing])).skip opening
    rw [Node.positions_composite]
    cases member with
    | none =>
      have h := ((Follows.single first).append hrest).above (startsAt_cons first _)
        (List.cons_ne_nil _ _)
      simpa [Node.positions_ofToken] using h
    | some x =>
      have h := ((Follows.single first).append (((Follows.single x.2).append hrest).skip x.1)).above
        (startsAt_cons first _) (List.cons_ne_nil _ _)
      simpa [Node.positions_ofToken] using h
  | operand _ hq _ ih => exact ih (ne_root_of_mem_choices hq)
  | @operator r q w v left right sign k start hq hleft hstart _ _ _ ih ih' =>
    have hq' := ne_root_of_mem_choices hq
    have hne := ne_nil_of_spells hleft hq'
    have h := ((ih hq').append ((ih' hr).skip sign)).above (hstart.append hne _)
      (List.append_ne_nil_of_left_ne_nil hne _)
    rw [Jay.binary, Node.positions_composite]
    simpa using h
  | parenthesis _ _ _ ih => exact ((ih nofun).mono (List.sublist_append_left ..)).skip _
  | basicExpression => exact Follows.single _
  | root => exact absurd rfl hr

/-- The root stands where the module starts, if the module has any tokens. -/
theorem positions_of_spells_root (h : Spells .root w n) (hstart : StartsAt n.position w)
    (hsorted : w.Pairwise (·.position ≤ ·.position)) : n.positions.Pairwise (· ≤ ·) := by
  cases h with
  | @root v imports declarations start _ himports hdeclarations =>
    have hitems : Follows (v ++ (imports.flatMap (·.1) ++ declarations.flatMap (·.1)))
        ((imports.map (·.2) ++ declarations.map (·.2)).flatMap Node.positions) := by
      have hi := Follows.pieces fun x hx => follows_of_spells (himports x hx) nofun
      have hd := Follows.pieces fun x hx => follows_of_spells (hdeclarations x hx) nofun
      rw [List.flatMap_append]
      exact (hi.append hd).mono (List.sublist_append_right ..)
    rw [Node.positions_list]
    generalize v ++ (imports.flatMap (·.1) ++ declarations.flatMap (·.1)) = w
      at hitems hstart hsorted
    rcases eq_or_ne w [] with rfl | hne
    · have hnone : (imports.map (·.2) ++ declarations.map (·.2)).flatMap Node.positions = [] := by
        refine List.eq_nil_iff_forall_not_mem.2 fun i hi => ?_
        obtain ⟨_, ht, -⟩ := hitems.mem i hi
        cases ht
      rw [hnone]
      exact List.pairwise_singleton ..
    · exact (hitems.above hstart hne).sorted hsorted
  | list hq => cases hq
  | operand hq => rcases hq with hq | hq <;> cases hq
  | operator _ _ _ hk => cases hk

end Positions

namespace Jay

variable {ts : List Token} {hasModule? : Option (String → Bool)}

theorem position_root {apply : String → Parser Node} {c : Setting} {s t : ParseState} {tree : Node}
    (h : Parser.wrapped Nonterminal.root.name (root.run apply) c s = (.ok tree, t)) :
    tree.position = c.input.offset s.cursor := by
  obtain ⟨r, hroot⟩ := Parser.exists_of_wrapped h
  obtain ⟨_, _, -, hrun⟩ := Parser.bind_eq_ok.1 hroot
  obtain ⟨_, _, -, hrun⟩ := Parser.bind_eq_ok.1 hrun
  obtain ⟨_, _, -, hrun⟩ := Parser.bind_eq_ok.1 hrun
  cases hrun
  simp only [Parser.wrapped, hroot] at h
  cases h
  rfl

/-- The leaves of the tree of a module are its names and literals, each once and in their order. The
positions in the tree of a text that was lexed do not decrease from a node to the next. -/
theorem leaves_of_parse {out : ParseOutput} (h : parse hasModule? ts = .ok out) :
    out.tree.leaves = (ts.filter Token.isOperand).map .ofToken ∧
    ∀ text : List Char, lex TokenRule.jay text = .ok ts →
      out.tree.positions.Pairwise (· ≤ ·) := by
  obtain ⟨t, w, hrun, -, hw, hend, -, hspells⟩ := exists_run_of_parse h
  have hts : ts = w ++ ts.drop t.cursor := hw.tokens
  refine ⟨?_, fun text hlex => ?_⟩
  · have hlayout : operandLeaves (ts.drop t.cursor) = [] := by
      have hnone : (ts.drop t.cursor).filter Token.isOperand = [] :=
        List.filter_eq_nil_iff.2 fun x hx => not_isOperand_of_isLayout (hend x hx)
      rw [operandLeaves, hnone, List.map_nil]
    rw [leaves_of_spells hspells, ← List.append_nil (operandLeaves w), ← hlayout,
      ← operandLeaves_append, ← hts]
    rfl
  · have hstart : StartsAt out.tree.position w := position_root hrun ▸ hw.startsAt
    have hsorted := (lexed_of_lex hlex).sorted
    rw [hts] at hsorted
    exact positions_of_spells_root hspells hstart (List.pairwise_append.1 hsorted).1

/-- A variable that takes the result of another module's function. -/
def remoteCall : List Char := "var x = m.f(1)\n".toList

theorem leaves_of_parse_remoteCall :
    ∃ ts out, lex TokenRule.jay remoteCall = .ok ts ∧ parse none ts = .ok out ∧
      out.tree.positions = [0, 0, 4, 8, 8, 10, 12, 12] ∧
      out.tree.leaves.map Node.textD = ["x", "m", "f", "1"] ∧
      out.tree.leaves = (ts.filter Token.isOperand).map .ofToken ∧
      out.tree.positions.Pairwise (· ≤ ·) := by
  have h : (do
      let ts ← lex TokenRule.jay remoteCall
      let out ← parse none ts
      pure (out.tree.positions, out.tree.leaves.map Node.textD)) =
        Except.ok ([0, 0, 4, 8, 8, 10, 12, 12], ["x", "m", "f", "1"]) := by
    decide +kernel
  obtain ⟨ts, hlex, h⟩ := Except.bind_eq_ok.1 h
  obtain ⟨out, hparse, h⟩ := Except.bind_eq_ok.1 h
  obtain ⟨hpositions, htexts⟩ := Prod.mk.inj (Except.ok.inj h)
  obtain ⟨hleaves, hsorted⟩ := leaves_of_parse hparse
  exact ⟨ts, out, hlex, hparse, hpositions, htexts, hleaves, hsorted _ hlex⟩

end Jay

end JayFrontEnd
