import JayFrontEnd.Proofs.Parsing.Respects
import JayFrontEnd.Proofs.Parsing.Spans

/-!
# Cursors and spans of a grammar's parsers

A parser of a grammar stays inside its input. A choice that fails is back where it started. One that
succeeds has not gone back, and every node it answers with lies between the offsets at its two ends,
as long as the rules make nodes only at offsets that they have asked for (`Script.Places`). This is
proved for atoms and scripts together; rules come in by induction on how deep they may nest.
-/

namespace JayFrontEnd

/-! ## What atoms answer with -/

/-- How an atom comes from one cursor to another with a node. Rules of the grammar are applied with
some fuel, and rules without a name by `apply`. -/
def Atom.Gives (g : Grammar) (apply : String → Parser Node) (c : Setting) (i : Nat) (n : Node)
    (j : Nat) : Atom → Prop
  | .token kind => ∃ t, c.input.token? i = some t ∧ t.kind = kind ∧ n = .ofToken t ∧ j = i + 1
  | .literal text => n = .mk (c.input.offset i) Parser.literalKind (.text text) ∧
      c.input.textFrom i = text.toList ++ c.input.textFrom j ∧
      j = i + Text.byteLength text.toList
  | .pattern _ => ∃ taken text, n = .mk (c.input.offset i) Parser.patternKind (.text text) ∧
      c.input.textFrom i = taken ++ c.input.textFrom j ∧ j = i + Text.byteLength taken
  | .rule name => ∃ fuel script result s t, g.rule? name = some script ∧ s.cursor = i ∧
      t.cursor = j ∧ script.run (g.applyWithin fuel) c s = (.ok result, t) ∧
      n = result.nodeAt (c.input.offset i) name
  | .inline kind script => ∃ result s t, s.cursor = i ∧ t.cursor = j ∧
      script.run apply c s = (.ok result, t) ∧ n = result.nodeAt (c.input.offset i) kind
  | .named _ atom => atom.Gives g apply c i n j

/-- Rules are applied as the grammar does it, with enough fuel or without. -/
def Grammar.Applies (g : Grammar) (c : Setting) (apply : String → Parser Node) : Prop :=
  ∀ name, ∃ fuel, apply name c = g.applyWithin fuel name c

/-- The node that an atom gives lies between the cursors. -/
def Atom.Answers (g : Grammar) (apply : String → Parser Node) (c : Setting) (a : Atom) (i : Nat)
    (n : Node) (j : Nat) : Prop :=
  c.Spans i j (Node.At [n]) ∧ a.Gives g apply c i n j

section Atoms

variable {c : Setting} {g : Grammar} {apply : String → Parser Node}

open Setting

theorem Parser.Stays.token (hc : c.input.Ordered) (kind : String) :
    (Parser.token kind).Stays c (Atom.Answers g apply c (.token kind)) := by
  intro s hs
  unfold Parser.token
  split
  · exact .error hs
  · next ts hts =>
    split
    · exact .error hs
    · next t ht =>
      have hlt : s.cursor < ts.length := (List.getElem?_eq_some_iff.1 ht).1
      have hinside : c.input.Inside (s.cursor + 1) := by rw [hts]; exact hlt
      have hoffset : c.input.offset s.cursor = t.position := by simp [hts, Input.offset, ht]
      split
      · next hkind =>
        have hspans : c.Spans s.cursor (s.cursor + 1) (· ∈ (Value.leaf t).positions) :=
          ⟨Nat.le_succ _, fun k hk => absurd hk List.not_mem_nil⟩
        have hnode := hspans.node hc t.kind
        rw [hoffset] at hnode
        exact .ok hinside ⟨hnode, t, by rw [hts]; exact ht, beq_iff_eq.1 hkind, rfl, rfl⟩
      · exact .error hs

/-- Going past some of the text, with a node that holds a text. -/
theorem Setting.Spans.taken (hc : c.input.Ordered) {cs as rest : List Char} {i : Nat}
    (hcs : c.input = .text cs) (hi : c.input.Inside i) (has : c.input.textFrom i = as ++ rest)
    (kind text : String) :
    c.input.Inside (i + Text.byteLength as) ∧
      c.Spans i (i + Text.byteLength as) (Node.At [.mk i kind (.text text)]) ∧
      Node.mk i kind (.text text) = .mk (c.input.offset i) kind (.text text) ∧
      c.input.textFrom i = as ++ c.input.textFrom (i + Text.byteLength as) := by
  obtain ⟨hinside, hrest⟩ := hi.past has
  have hoffset : c.input.offset i = i := by rw [hcs]; rfl
  have hspans : c.Spans i (i + Text.byteLength as) (· ∈ (Value.text text).positions) :=
    ⟨Nat.le_add_right _ _, nofun⟩
  refine ⟨hinside, ?_, by rw [hoffset], by rw [hrest, has]⟩
  have hnode := hspans.node hc kind
  rwa [hoffset] at hnode

theorem Parser.Stays.literal (hc : c.input.Ordered) (text : String) :
    (Parser.literal text).Stays c (Atom.Answers g apply c (.literal text)) := by
  intro s hs
  unfold Parser.literal
  split
  · exact .error hs
  · next cs hcs =>
    split
    · next hprefix =>
      obtain ⟨rest, hrest⟩ := List.isPrefixOf_iff_prefix.1 hprefix
      obtain ⟨hinside, hspans, hnode, hleft⟩ := Spans.taken hc hcs hs hrest.symm literalKind text
      exact .ok hinside ⟨hspans, hnode, hleft, rfl⟩
    · exact .error hs

theorem Parser.Stays.pattern (hc : c.input.Ordered) (regex : Regex) :
    (Parser.pattern regex).Stays c (Atom.Answers g apply c (.pattern regex)) := by
  intro s hs
  unfold Parser.pattern
  split
  · exact .error hs
  · next cs hcs =>
    split
    · exact .error hs
    · next m hm =>
      obtain ⟨as, has, hstop⟩ := regex.stop_of_search? (Option.filter_eq_some_iff.1 hm).1
      obtain ⟨hinside, hspans, hnode, hleft⟩ :=
        Spans.taken hc hcs hs has patternKind ((m.group? 1).getD m.text)
      rw [hstop]
      exact .ok hinside ⟨hspans, as, _, hnode, hleft, rfl⟩

/-! ## Atoms and rules -/

mutual

theorem Atom.stays (hc : c.input.Ordered)
    (hrule : ∀ name, (apply name).Stays c (Atom.Answers g apply c (.rule name))) :
    ∀ a : Atom, a.Places → (a.attempt apply).Stays c (a.Answers g apply c)
  | .token kind, _ => .token hc kind
  | .literal text, _ => .literal hc text
  | .pattern regex, _ => .pattern hc regex
  | .rule name, _ => hrule name
  | .inline kind script, h => (Script.staysFrom hc hrule script _ h).wrapped hc kind
  | .named label atom, h => (Atom.stays hc hrule atom h).labelled label

theorem Atom.firstOf_stays (hc : c.input.Ordered)
    (hrule : ∀ name, (apply name).Stays c (Atom.Answers g apply c (.rule name))) :
    ∀ as : List Atom, Atom.AllPlace as → (Parser.firstOf (Atom.attempts apply as)).Stays c
      fun i n j => ∃ a ∈ as, a.Answers g apply c i n j
  | [], _ => .abort _
  | [a], h => (Atom.stays hc hrule a h.1).restoring.mono fun _ _ _ hn =>
      ⟨a, List.mem_cons_self, hn⟩
  | a :: b :: as, h =>
    .orElse ((Atom.stays hc hrule a h.1).mono fun _ _ _ hn => ⟨a, List.mem_cons_self, hn⟩)
      ((Atom.firstOf_stays hc hrule (b :: as) h.2).mono fun _ _ _ ⟨d, hd, hn⟩ =>
        ⟨d, List.mem_cons_of_mem _ hd, hn⟩)

theorem Script.staysFrom (hc : c.input.Ordered)
    (hrule : ∀ name, (apply name).Stays c (Atom.Answers g apply c (.rule name))) :
    ∀ (script : Script) (known : Nat → Prop), script.Places known →
    (script.run apply).StaysFrom c known
  | .done _, _, h => .done h
  | .one atoms next, _, h =>
    .bind hc (Atom.firstOf_stays hc hrule atoms h.1) (fun _ _ _ ⟨_, _, hn⟩ => hn.1) fun n =>
      Script.staysFrom hc hrule (next n) _ (h.2 n)
  | .opt atoms next, _, h =>
    .bind hc (Atom.firstOf_stays hc hrule atoms h.1).optional
      (fun _ _ _ hn => .successive hc hn fun _ _ _ ⟨_, _, hn⟩ => hn.1) fun n =>
      Script.staysFrom hc hrule (next n) _ (h.2 n)
  | .any atoms next, _, h =>
    .bind hc (Atom.firstOf_stays hc hrule atoms h.1).any
      (fun _ _ _ hn => .successive hc hn fun _ _ _ ⟨_, _, hn⟩ => hn.1) fun ns =>
      Script.staysFrom hc hrule (next ns) _ (h.2 ns)
  | .many atoms next, _, h =>
    .bind hc (Atom.firstOf_stays hc hrule atoms h.1).many
      (fun _ _ _ hn => .successive hc hn fun _ _ _ ⟨_, _, hn⟩ => hn.1) fun ns =>
      Script.staysFrom hc hrule (next ns) _ (h.2 ns)
  | .importModule module position next, _, h =>
    .importModule module position (Script.staysFrom hc hrule next _ h)
  | .fail _, _, _ => .of_error fun _ => ⟨_, _, rfl, rfl⟩
  | .failAt _ _, _, _ => .of_error fun _ => ⟨_, _, rfl, rfl⟩
  | .abort _, _, _ => .of_error fun _ => ⟨_, _, rfl, rfl⟩
  | .offset next, _, h => .offset hc fun i => Script.staysFrom hc hrule (next i) _ (h i)
  | .peek next, _, h => .peek fun t => Script.staysFrom hc hrule (next t) _ (h t)

end

theorem Grammar.applyWithin_stays (hg : g.Places) (hc : c.input.Ordered) (fuel : Nat)
    (name : String) : (g.applyWithin fuel name).Stays c
      (Atom.Answers g (g.applyWithin fuel) c (.rule name)) := by
  induction fuel generalizing name with
  | zero =>
    obtain ⟨fault, hzero⟩ := g.applyWithin_zero name
    rw [hzero]
    exact .abort fault
  | succ fuel ih =>
    cases hs : g.rule? name with
    | none =>
      rw [Grammar.applyWithin_none hs]
      exact .abort _
    | some script =>
      rw [Grammar.applyWithin_some hs]
      have hscript := Script.staysFrom hc ih script _ (hg name script hs)
      refine (hscript.wrapped hc name).mono fun i n j => ?_
      rintro ⟨hspans, result, s, t, hi, hj, hrun, hn⟩
      exact ⟨hspans, fuel, script, result, s, t, hs, hi, hj, hrun, hn⟩

theorem Grammar.Applies.stays (happly : g.Applies c apply) (hg : g.Places)
    (hc : c.input.Ordered) (name : String) :
    (apply name).Stays c (Atom.Answers g apply c (.rule name)) := by
  intro s hs
  obtain ⟨fuel, hfuel⟩ := happly name
  rw [hfuel]
  exact g.applyWithin_stays hg hc fuel name s hs

end Atoms

/-! ## Back to the start -/

/-- A failure that may be tried again ends where it started. -/
def Parser.Returns (c : Setting) (p : Parser α) : Prop :=
  ∀ s e t, p c s = (.error (.backtrack e), t) → t.cursor = s.cursor

namespace Parser.Returns

variable {α : Type} {c : Setting} {q : Parser α}

theorem restoring (p : Parser α) : (Parser.restoring p).Returns c := by
  intro s e t h
  unfold Parser.restoring at h
  generalize p c s = run at h
  rcases run with ⟨(e' | fault) | a, u⟩
  · cases h; rfl
  · cases h
  · cases h

theorem orElse (hq : q.Returns c) : (Parser.orElse p q).Returns c := by
  intro s e t h
  unfold Parser.orElse at h
  generalize p c s = run at h
  rcases run with ⟨(e' | fault) | a, u⟩
  · have hsecond := hq (u.moveTo s.cursor)
    dsimp only at h
    generalize q c (u.moveTo s.cursor) = second at hsecond h
    rcases second with ⟨(f | fault) | a, v⟩
    · cases h
      exact hsecond f _ rfl
    · cases h
    · cases h
  · cases h
  · cases h

theorem firstOf (ps : List (Parser α)) : (Parser.firstOf ps).Returns c := by
  induction ps with
  | nil => exact fun _ _ _ h => nomatch h
  | cons p ps ih =>
    cases ps with
    | nil => exact restoring p
    | cons q ps => exact orElse ih

theorem optional (p : Parser α) : (Parser.optional p).Returns c := by
  intro s e t h
  unfold Parser.optional at h
  generalize p c s = run at h
  rcases run with ⟨(e' | fault) | a, u⟩ <;> cases h

/-- A repetition does not fail so that something else may be tried. -/
theorem upTo_ne (p : Parser α) (n : Nat) (s t : ParseState) (e : ParseError) :
    Parser.upTo p n c s ≠ (.error (.backtrack e), t) := by
  induction n generalizing s t e with
  | zero => exact nofun
  | succ n ih =>
    intro h
    unfold Parser.upTo at h
    generalize p c s = run at h
    rcases run with ⟨(e' | fault) | a, u⟩
    · cases h
    · cases h
    · dsimp only at h
      split at h
      · cases h
      · rcases hrest : Parser.upTo p n c u with ⟨f | as, v⟩
        · rw [hrest] at h
          cases h
          exact ih u _ e hrest
        · rw [hrest] at h
          cases h

theorem any (p : Parser α) : (Parser.any p).Returns c := by
  intro s e t h
  simp only [Parser.any, Bind.bind] at h
  rcases hrun : Parser.repeated p c s with ⟨f | as, u⟩
  · rw [hrun] at h
    cases h
    exact absurd hrun (upTo_ne p _ s _ e)
  · rw [hrun] at h
    cases h

/-- Without any answer a repetition is where its first round started. -/
theorem many (p : Parser α) : (Parser.many p).Returns c := by
  intro s e t h
  unfold Parser.many at h
  split at h
  · next hrun =>
    cases h
    obtain ⟨u, -, rfl⟩ := Parser.upTo_eq_nil hrun
    rfl
  · cases h
  · next hrun =>
    cases h
    exact absurd hrun (upTo_ne p _ s _ e)

end Parser.Returns

/-! ## Calls of combinators -/

/-- A combinator and what it is called with, by what it answers. -/
inductive Combinator : Type → Type where
  | one (atoms : List Atom) : Combinator Node
  | opt (atoms : List Atom) : Combinator (Option Node)
  | any (atoms : List Atom) : Combinator (List Node)
  | many (atoms : List Atom) : Combinator (List Node)
  | token (kind : String) : Combinator Node
  | rule (name : String) : Combinator Node

namespace Combinator

variable {α : Type}

def atoms : Combinator α → List Atom
  | one atoms | opt atoms | any atoms | many atoms => atoms
  | token kind => [.token kind]
  | rule name => [.rule name]

def nodes : Combinator α → α → List Node
  | one _ | token _ | rule _ => ([·])
  | opt _ => Option.toList
  | any _ | many _ => id

/-- The call, in a rule or at the top; `apply` applies the rules that it names. -/
def run (apply : String → Parser Node) : Combinator α → Parser α
  | one atoms => Parser.firstOf (Atom.attempts apply atoms)
  | opt atoms => Parser.optional (Parser.firstOf (Atom.attempts apply atoms))
  | any atoms => Parser.any (Parser.firstOf (Atom.attempts apply atoms))
  | many atoms => Parser.many (Parser.firstOf (Atom.attempts apply atoms))
  | token kind => Parser.firstOf (Atom.attempts apply [.token kind])
  | rule name => Parser.firstOf (Atom.attempts apply [.rule name])

variable {c : Setting} {g : Grammar} {apply : String → Parser Node}

theorem stays (hc : c.input.Ordered)
    (hrule : ∀ name, (apply name).Stays c (Atom.Answers g apply c (.rule name)))
    (k : Combinator α) (hk : Atom.AllPlace k.atoms) : (k.run apply).Stays c fun i answer j =>
      Successive (fun i n j => ∃ a ∈ k.atoms, a.Answers g apply c i n j) i (k.nodes answer) j := by
  have hchoice := Atom.firstOf_stays hc hrule k.atoms hk
  cases k with
  | one | token | rule => exact hchoice.mono fun _ _ _ hn => .cons hn (.nil _)
  | opt => exact hchoice.optional
  | any => exact hchoice.any
  | many => exact hchoice.many

theorem returns (k : Combinator α) : (k.run apply).Returns c := by
  cases k with
  | one | token | rule => exact .firstOf _
  | opt => exact .optional _
  | any => exact .any _
  | many => exact .many _

end Combinator

theorem Grammar.applies_apply (g : Grammar) (c : Setting) : g.Applies c g.apply :=
  fun _ => ⟨g.depth c.input, rfl⟩

/-- Whatever a combinator is called with inside its input, at the top or in a rule, it stays inside:
a text can be cut at the cursor. If it fails so that something else may be tried, or answers with no
node, it is back where it started. If it succeeds, it has not gone back; its nodes lie between the
two offsets, and follow each other, each as one of the alternatives gives it: a token is the one at
the cursor, a literal is the text that was used, and a value of a rule is a node at the offset where
the rule started. -/
theorem Combinator.disciplined {g : Grammar} (hg : g.Places) {c : Setting} (hc : c.input.Ordered)
    {apply : String → Parser Node} (happly : g.Applies c apply) {α : Type} (k : Combinator α)
    (hk : Atom.AllPlace k.atoms) {s : ParseState} (hs : c.input.Inside s.cursor) :
    let (result, t) := k.run apply c s
    c.input.Inside t.cursor ∧ t.cursor ≤ c.input.length ∧
    (∀ cs, c.input = .text cs → (Text.dropBytes? t.cursor cs).isSome) ∧
    (∀ e, result = .error (.backtrack e) → t.cursor = s.cursor) ∧
    ∀ answer, result = .ok answer →
      s.cursor ≤ t.cursor ∧ (k.nodes answer = [] → t.cursor = s.cursor) ∧
      (∀ n ∈ k.nodes answer, ∀ i ∈ n.positions,
        c.input.offset s.cursor ≤ i ∧ i ≤ c.input.offset t.cursor) ∧
      Successive (fun i n j => ∃ a ∈ k.atoms, a.Gives g apply c i n j) s.cursor (k.nodes answer)
        t.cursor := by
  have hreaches := k.stays hc (happly.stays hg hc) hk s hs
  have hreturns : (k.run apply).Returns c := k.returns
  rcases hrun : k.run apply c s with ⟨result, t⟩
  rw [hrun] at hreaches
  have hinside : c.input.Inside t.cursor := hreaches.inside
  refine ⟨hinside, hinside.le_length, ?_, ?_, ?_⟩
  · intro cs hcs
    rw [hcs] at hinside
    exact Text.dropBytes?_isSome_iff.2 hinside
  · rintro e rfl
    exact hreturns s e t hrun
  · rintro answer rfl
    have hanswers : Successive (fun i n j => ∃ a ∈ k.atoms, a.Answers g apply c i n j) s.cursor
        (k.nodes answer) t.cursor := hreaches.answer_of_ok
    have hspans : c.Spans s.cursor t.cursor (Node.At (k.nodes answer)) :=
      .successive hc hanswers fun _ _ _ ⟨_, _, hn⟩ => hn.1
    refine ⟨hspans.le, fun hnil => ?_, fun n hn i hi => hspans.between i ⟨n, hn, hi⟩,
      hanswers.mono fun _ _ _ ⟨a, ha, hn⟩ => ⟨a, ha, hn.2⟩⟩
    exact (hnil ▸ hanswers).eq_of_nil.symm

/-- Pairs of a letter and a digit, and a letter that may follow them. -/
def pairs : Grammar where
  root := "pairs"
  rules :=
    [("pairs", .offset fun start => .any [.rule "pair"] fun ps => .opt [.literal "é"] fun _ =>
        .node (.mk start "all" (.list ps))),
      ("pair", .one [.literal "é"] fun _ => .one [.named "a digit" (.literal "1"), .literal "2"]
        fun digit => .value (.list [digit]))]

/-- The third letter has no digit, so that the pairs end before it. -/
def pairsInput : Setting where
  input := .text "é1é2é3".toList

def pairsTree : Node :=
  .mk 0 "all" (.list [.mk 0 "pair" (.list [.mk 2 "literal" (.text "1")]),
    .mk 3 "pair" (.list [.mk 5 "literal" (.text "2")])])

theorem places_pairs : pairs.Places := by
  intro name script h
  obtain ⟨before, after, hrules, -⟩ := List.lookup_eq_some_iff.1 h
  have hmem : (name, script) ∈ pairs.rules := by simp [hrules]
  simp only [pairs, List.mem_cons, Prod.mk.injEq, List.not_mem_nil, or_false] at hmem
  rcases hmem with ⟨-, rfl⟩ | ⟨-, rfl⟩
  · refine fun start => ⟨⟨trivial, trivial⟩, fun ps => ⟨⟨trivial, trivial⟩, fun _ i hi => ?_⟩⟩
    rw [Parsed.positions, Node.positions, List.mem_cons, Value.mem_positions_list] at hi
    exact .inl (hi.imp .inr id)
  · refine ⟨⟨trivial, trivial⟩, fun _ => ⟨⟨trivial, trivial, trivial⟩, fun digit i hi => ?_⟩⟩
    exact .inr (Value.mem_positions_list.1 hi)

theorem Combinator.disciplined_pairs :
    let (result, t) := (Combinator.rule "pairs").run pairs.apply pairsInput {}
    result = .ok pairsTree ∧ t.cursor = 8 ∧ ∀ i ∈ pairsTree.positions, 0 ≤ i ∧ i ≤ 8 := by
  obtain ⟨-, -, -, -, hok⟩ := Combinator.disciplined places_pairs (c := pairsInput) trivial
    (pairs.applies_apply pairsInput) (.rule "pairs") ⟨trivial, trivial⟩ (s := {}) (.zero _)
  exact ⟨rfl, rfl, (hok pairsTree rfl).2.2.1 pairsTree List.mem_cons_self⟩

end JayFrontEnd
