import JayFrontEnd.Proofs.Grammar.Requests
import JayFrontEnd.Proofs.Parsing.Discipline

/-!
# Where the rules of Jay make nodes

The rules of Jay make nodes only at offsets that they have asked for, so that their nodes lie
between the cursors where they start and end.
-/

namespace JayFrontEnd.Jay

variable {known : Nat → Prop} {next : Node → Script}

theorem places_expect (k : TokenKind) (h : ∀ n, (next n).Places fun i => known i ∨ Node.At [n] i) :
    (expect k next).Places known :=
  ⟨⟨trivial, trivial⟩, h⟩

theorem places_call (r : Nonterminal)
    (h : ∀ n, (next n).Places fun i => known i ∨ Node.At [n] i) :
    (Script.one [.rule r.name] next).Places known :=
  ⟨⟨trivial, trivial⟩, h⟩

theorem places_node {n : Node} (h : ∀ i, Node.At [n] i → known i) :
    (Script.node n).Places known :=
  fun i hi => h i ⟨n, List.mem_singleton_self n, hi⟩

theorem places_list {ns : List Node} (h : ∀ i, Node.At ns i → known i) :
    (Script.value (.list ns)).Places known :=
  fun i hi => h i (Value.mem_positions_list.1 hi)

theorem places_composite {fields : List (String × Option Node)}
    (h : ∀ f ∈ fields, ∀ i, Node.At f.2.toList i → known i) :
    (Script.value (.composite fields)).Places known := by
  intro i hi
  obtain ⟨f, hf, hi⟩ := Value.mem_positions_composite.1 hi
  exact h f hf i hi

theorem places_binary {start : Nat} {o lhs rhs : Node} (hstart : known start)
    (hlhs : ∀ i, Node.At [lhs] i → known i) (hrhs : ∀ i, Node.At [rhs] i → known i) :
    (Script.node (binary start o lhs rhs)).Places known := by
  intro i hi
  rw [Parsed.positions, binary, Node.positions, List.mem_cons, Value.mem_positions_composite] at hi
  rcases hi with rfl | ⟨f, hf, hi⟩
  · exact hstart
  · have hfields : ∀ f ∈ [("lhs", some lhs), ("rhs", some rhs)], ∀ i, Node.At f.2.toList i →
        known i := List.forall_mem_cons.2 ⟨hlhs, List.forall_mem_singleton.2 hrhs⟩
    exact hfields f hf i hi

/-- The scripts make nodes only of what they have read, and at offsets that they have asked for. -/
theorem places_script (r : Nonterminal) : r.script.Places fun _ => False := by
  cases r with
  | root =>
    refine ⟨⟨trivial, trivial⟩, fun _ => ⟨⟨trivial, trivial⟩, fun imports =>
      ⟨⟨trivial, trivial⟩, fun declarations => places_list fun i hi => ?_⟩⟩⟩
    exact (Node.at_append.1 hi).imp_left .inr
  | importDirective =>
    refine places_expect _ fun _ => places_expect _ fun module => places_expect _ fun _ => ?_
    exact places_composite (List.forall_mem_singleton.2 fun _ hi => .inl (.inr hi))
  | declStatement =>
    exact ⟨⟨trivial, trivial, trivial⟩, fun _ => places_expect _ fun _ =>
      places_node fun _ hi => .inl (.inr hi)⟩
  | statement =>
    refine ⟨⟨trivial, trivial, trivial, trivial, trivial⟩, fun s t => ?_⟩
    show Script.Places _ (if t.any (·.kind == TokenKind.curlEnd.name) then .node s else _)
    split
    · exact places_node fun _ hi => .inr hi
    · exact places_expect _ fun _ => places_node fun _ hi => .inl (.inr hi)
  | variableDecl =>
    refine places_expect _ fun _ => places_expect _ fun _ => ⟨⟨trivial, trivial⟩, fun _ =>
      ⟨⟨places_expect _ fun _ => places_call .expression fun _ => places_node fun _ hi => .inr hi,
        trivial⟩, fun _ => places_composite ?_⟩⟩
    exact List.forall_mem_cons.2 ⟨fun _ hi => .inl (.inl (.inr hi)),
      List.forall_mem_cons.2 ⟨fun _ hi => .inl (.inr hi),
        List.forall_mem_singleton.2 fun _ hi => .inr hi⟩⟩
  | functionDecl =>
    refine places_expect _ fun _ => places_expect _ fun _ => places_expect _ fun _ =>
      ⟨⟨trivial, trivial⟩, fun _ => places_expect _ fun _ => ⟨⟨trivial, trivial⟩, fun _ =>
        places_call .block fun _ => places_composite ?_⟩⟩
    exact List.forall_mem_cons.2 ⟨fun _ hi => .inl (.inl (.inl (.inl (.inl (.inr hi))))),
      List.forall_mem_cons.2 ⟨fun _ hi => .inl (.inl (.inl (.inr hi))),
        List.forall_mem_cons.2 ⟨fun _ hi => .inl (.inr hi),
          List.forall_mem_singleton.2 fun _ hi => .inr hi⟩⟩⟩
  | params =>
    refine places_call .param fun first => ⟨⟨places_expect _ fun _ => ⟨⟨trivial, trivial⟩, fun _ =>
      places_node fun _ hi => .inr hi⟩, trivial⟩, fun others => places_list fun i hi => ?_⟩
    have hi : Node.At ([first] ++ others) i := hi
    exact (Node.at_append.1 hi).imp_left .inr
  | param =>
    refine places_expect _ fun _ => places_expect _ fun _ => places_composite ?_
    exact List.forall_mem_cons.2 ⟨fun _ hi => .inl (.inr hi),
      List.forall_mem_singleton.2 fun _ hi => .inr hi⟩
  | block =>
    exact places_expect _ fun _ => ⟨⟨trivial, trivial⟩, fun _ => ⟨⟨trivial, trivial⟩, fun _ =>
      places_expect _ fun _ => places_list fun _ hi => .inl (.inr hi)⟩⟩
  | assignment =>
    refine places_expect _ fun _ => places_expect _ fun _ => places_call .expression fun _ =>
      places_composite ?_
    exact List.forall_mem_cons.2 ⟨fun _ hi => .inl (.inl (.inr hi)),
      List.forall_mem_singleton.2 fun _ hi => .inr hi⟩
  | functionCall =>
    refine places_expect _ fun _ => ⟨⟨places_expect _ fun _ => places_expect _ fun _ =>
      places_node fun _ hi => .inr hi, trivial⟩, fun member => places_expect _ fun _ =>
        ⟨⟨trivial, trivial⟩, fun _ => places_expect _ fun _ => places_composite ?_⟩⟩
    -- The first name is that of a module if a member follows it.
    cases member with
    | none =>
      exact List.forall_mem_cons.2 ⟨fun _ hi => absurd hi nofun,
        List.forall_mem_cons.2 ⟨fun _ hi => .inl (.inl (.inl (.inl (.inr hi)))),
          List.forall_mem_singleton.2 fun _ hi => .inl (.inr hi)⟩⟩
    | some _ =>
      exact List.forall_mem_cons.2 ⟨fun _ hi => .inl (.inl (.inl (.inl (.inr hi)))),
        List.forall_mem_cons.2 ⟨fun _ hi => .inl (.inl (.inl (.inr hi))),
          List.forall_mem_singleton.2 fun _ hi => .inl (.inr hi)⟩⟩
  | callArgs =>
    refine places_call .expression fun first => ⟨⟨places_expect _ fun _ =>
      places_call .expression fun _ => places_node fun _ hi => .inr hi, trivial⟩, fun others =>
        places_list fun i hi => ?_⟩
    have hi : Node.At ([first] ++ others) i := hi
    exact (Node.at_append.1 hi).imp_left .inr
  | expression =>
    refine fun start => places_call .product fun lhs => ⟨⟨trivial, trivial, trivial⟩, fun o => ?_⟩
    cases o with
    | none => exact places_node fun _ hi => .inl (.inr hi)
    | some _ =>
      exact places_call .expression fun _ => places_binary (.inl (.inl (.inl (.inr rfl))))
        (fun _ hi => .inl (.inl (.inr hi))) fun _ hi => .inr hi
  | product =>
    refine fun start => ⟨⟨trivial, trivial, trivial, trivial⟩, fun lhs =>
      ⟨⟨trivial, trivial, trivial⟩, fun o => ?_⟩⟩
    cases o with
    | none => exact places_node fun _ hi => .inl (.inr hi)
    | some _ =>
      exact places_call .product fun _ => places_binary (.inl (.inl (.inl (.inr rfl))))
        (fun _ hi => .inl (.inl (.inr hi))) fun _ hi => .inr hi
  | parenthesis =>
    exact places_expect _ fun _ => places_call .expression fun _ => places_expect _ fun _ =>
      places_node fun _ hi => .inl (.inr hi)
  | basicExpression =>
    exact ⟨⟨trivial, trivial, trivial, trivial, trivial⟩, fun _ => places_node fun _ hi => .inr hi⟩

theorem places_grammar : grammar.Places := by
  intro name script h
  obtain ⟨r, -, rfl⟩ := exists_of_rule? h
  exact places_script r

/-- Whichever rule is applied inside tokens in order, it ends inside them and not before it started,
and all of its node lies between. -/
theorem between_of_apply {c : Setting} (hc : c.input.Ordered) {name : String} {s t : ParseState}
    {n : Node} (hs : c.input.Inside s.cursor) (h : grammar.apply name c s = (.ok n, t)) :
    c.input.Inside t.cursor ∧ s.cursor ≤ t.cursor ∧
      ∀ i ∈ n.positions, c.input.offset s.cursor ≤ i ∧ i ≤ c.input.offset t.cursor := by
  have hreaches := (grammar.applies_apply c).stays places_grammar hc name s hs
  rw [h] at hreaches
  have hspans : c.Spans s.cursor t.cursor (Node.At [n]) := hreaches.answer_of_ok.1
  exact ⟨hreaches.inside, hspans.le, fun i hi =>
    hspans.between i ⟨n, List.mem_singleton_self n, hi⟩⟩

end JayFrontEnd.Jay
