import JayFrontEnd.Proofs.Grammar.Requests
import JayFrontEnd.Proofs.Grammar.Tree
import JayFrontEnd.Proofs.Parsing.Nesting

/-!
# The parser ends

A rule of Jay that applies another one leaves it fewer tokens, or as many and a smaller rank: every
rule but the root starts with a choice among tokens and rules of smaller rank, which uses a token if
it succeeds, and the root asks only for rules of smaller rank. Ranks go up to four, so the depth of
rules inside each other is bounded by four levels for each token that is left, and those of the
rank. Fuel for these levels is as good as any, and the answer is what the rules say without fuel.
-/

namespace JayFrontEnd.Jay

variable {ts : List Token} {hasModule? : Option (String → Bool)} {s : ParseState}
  {y : String × ParseState} {apply : String → Parser Node}

/-! ## What the rules ask for first -/

/-- The name is that of a rule other than the root of which something holds. -/
def Named (P : Nonterminal → Prop) (name : String) : Prop :=
  ∃ q : Nonterminal, q ≠ .root ∧ P q ∧ name = q.name

def below (r : Nonterminal) : Requests where
  rule := Named fun q => q.rank < r.rank

def inner : Requests where
  rule := Named fun _ => True

theorem eager_script {r : Nonterminal} (hr : r ≠ .root) : r.script.Eager (below r) inner := by
  have hwithin : r.script.Within inner :=
    within_script r (fun q hq _ => ⟨q, hq, trivial, rfl⟩) (fun h => absurd h hr) fun _ => trivial
  have hbelow : ∀ q : Nonterminal, q ≠ .root → q.rank < r.rank → (below r).rule q.name :=
    fun q hq hlt => ⟨q, hq, hlt, rfl⟩
  cases r with
  | root => exact absurd rfl hr
  | declStatement =>
    have hfunction := hbelow .functionDecl nofun (by decide)
    have hvariable := hbelow .variableDecl nofun (by decide)
    exact ⟨rfl, ⟨hfunction, hvariable, trivial⟩, hwithin.2⟩
  | statement =>
    have hvariable := hbelow .variableDecl nofun (by decide)
    have hassignment := hbelow .assignment nofun (by decide)
    have hcall := hbelow .functionCall nofun (by decide)
    have hblock := hbelow .block nofun (by decide)
    exact ⟨rfl, ⟨hvariable, hassignment, hcall, hblock, trivial⟩, hwithin.2⟩
  | params => exact ⟨rfl, ⟨hbelow .param nofun (by decide), trivial⟩, hwithin.2⟩
  | callArgs => exact ⟨rfl, ⟨hbelow .expression nofun (by decide), trivial⟩, hwithin.2⟩
  | expression =>
    exact fun i => ⟨rfl, ⟨hbelow .product nofun (by decide), trivial⟩, (hwithin i).2⟩
  | product =>
    have hparenthesis := hbelow .parenthesis nofun (by decide)
    have hcall := hbelow .functionCall nofun (by decide)
    have hbasic := hbelow .basicExpression nofun (by decide)
    exact fun i => ⟨rfl, ⟨hparenthesis, hcall, hbasic, trivial⟩, (hwithin i).2⟩
  | basicExpression => exact ⟨rfl, ⟨trivial, trivial, trivial, trivial, trivial⟩, hwithin.2⟩
  | _ => exact ⟨rfl, ⟨trivial, trivial⟩, hwithin.2⟩

theorem root_within_below : root.Within (below .root) := by
  have hdirective : (below .root).rule Nonterminal.importDirective.name :=
    ⟨.importDirective, nofun, by decide, rfl⟩
  have hdeclaration : (below .root).rule Nonterminal.declStatement.name :=
    ⟨.declStatement, nofun, by decide, rfl⟩
  exact ⟨⟨trivial, trivial⟩, fun _ => ⟨⟨hdirective, trivial⟩, fun _ =>
    ⟨⟨hdeclaration, trivial⟩, fun _ => trivial⟩⟩⟩

/-- A rule other than the root that succeeds uses tokens, however much fuel it has. -/
theorem uses_rule (fuel : Nat) {r : Nonterminal} (hr : r ≠ .root) :
    (grammar.applyWithin fuel r.name).Uses ⟨.tokens ts, hasModule?⟩ := by
  induction fuel generalizing r with
  | zero =>
    obtain ⟨fault, hzero⟩ := grammar.applyWithin_zero r.name
    rw [hzero]
    exact .abort fault
  | succ fuel ih =>
    rw [applyWithin_name]
    refine .wrapped _ (Script.Eager.uses ?_ (.applyWithin grammar fuel) _ (eager_script hr))
    rintro _ ⟨q, hq, -, rfl⟩
    exact ih hq

/-! ## The measure -/

/-- One rule inside another has fewer tokens left, or as many and a smaller rank. -/
theorem lex_of_nests {r : Nonterminal}
    (h : grammar.Nests ⟨.tokens ts, hasModule?⟩ (r.name, s) y) :
    ∃ q : Nonterminal, y.1 = q.name ∧ Prod.Lex (· < ·) (· < ·)
      (ts.length - y.2.cursor, q.rank) (ts.length - s.cursor, r.rank) := by
  obtain ⟨apply, script, happly, hscript, hcalls⟩ := h
  cases r.rule?_name.symm.trans hscript
  have huses : ∀ name, (below r).rule name → (apply name).Uses ⟨.tokens ts, hasModule?⟩ := by
    rintro _ ⟨q, hq, -, rfl⟩ s n t hrun
    obtain ⟨fuel, hfuel⟩ := happly q.name
    rw [hfuel] at hrun
    exact uses_rule fuel hq hrun
  have hchoice := Parser.Forward.firstOf happly.forward
  have hdecreases : (below r).rule y.1 ∧ ts.length - y.2.cursor ≤ ts.length - s.cursor ∨
      inner.rule y.1 ∧ ts.length - y.2.cursor < ts.length - s.cursor := by
    by_cases hr : r = .root
    · subst hr
      have hasked := Script.asked_of_calls hchoice _ root_within_below hcalls
      exact .inl ⟨hasked.1, hasked.2.left_le⟩
    · exact Script.Eager.calls hchoice (Atom.uses_firstOf huses) _ (eager_script hr) hcalls
  rcases hdecreases with ⟨⟨q, -, hrank, hname⟩, hle⟩ | ⟨⟨q, -, -, hname⟩, hlt⟩
  · rcases Nat.lt_or_eq_of_le hle with hlt | heq
    · exact ⟨q, hname, .left _ _ hlt⟩
    · exact ⟨q, hname, heq ▸ .right _ hrank⟩
  · exact ⟨q, hname, .left _ _ hlt⟩

/-- How deep rules can nest in the rule, applied to the state. -/
def levels (ts : List Token) (r : Nonterminal) (s : ParseState) : Nat :=
  4 * (ts.length - s.cursor) + r.rank

theorem one_le_levels (ts : List Token) (r : Nonterminal) (s : ParseState) : 1 ≤ levels ts r s :=
  Nat.le_trans r.one_le_rank (Nat.le_add_left ..)

theorem levels_lt_of_nests {r : Nonterminal}
    (h : grammar.Nests ⟨.tokens ts, hasModule?⟩ (r.name, s) y) :
    ∃ q : Nonterminal, y.1 = q.name ∧ levels ts q y.2 < levels ts r s := by
  obtain ⟨q, hname, hlex⟩ := lex_of_nests h
  have hq := q.rank_le
  have hr := r.one_le_rank
  refine ⟨q, hname, ?_⟩
  unfold levels
  rcases Prod.lex_def.1 hlex with hlt | ⟨heq, hlt⟩
  · dsimp only at hlt
    omega
  · dsimp only at heq hlt
    omega

/-- A chain of rules, one inside the other, is no longer than that. -/
theorem length_lt_levels {xs : List (String × ParseState)} {r : Nonterminal}
    (h : List.IsChain (grammar.Nests ⟨.tokens ts, hasModule?⟩) ((r.name, s) :: xs)) :
    xs.length < levels ts r s := by
  induction xs generalizing r s with
  | nil => exact one_le_levels ts r s
  | cons y xs ih =>
    obtain ⟨hnests, hchain⟩ := List.isChain_cons_cons.1 h
    obtain ⟨q, hname, hlt⟩ := levels_lt_of_nests hnests
    have hy : y = (q.name, y.2) := Prod.ext hname rfl
    rw [hy] at hchain
    exact Nat.lt_of_le_of_lt (ih hchain) hlt

/-! ## Fuel -/

/-- With fuel for as many levels, more or less of it makes no difference. -/
theorem applyWithin_congr {fuel fuel' : Nat} {r : Nonterminal} (hfuel : levels ts r s ≤ fuel)
    (hfuel' : levels ts r s ≤ fuel') :
    grammar.applyWithin fuel r.name ⟨.tokens ts, hasModule?⟩ s =
      grammar.applyWithin fuel' r.name ⟨.tokens ts, hasModule?⟩ s := by
  induction fuel generalizing fuel' r s with
  | zero => exact absurd hfuel (Nat.not_le.2 (one_le_levels ts r s))
  | succ fuel ih =>
    cases fuel' with
    | zero => exact absurd hfuel' (Nat.not_le.2 (one_le_levels ts r s))
    | succ fuel' =>
      rw [applyWithin_name, applyWithin_name]
      refine Parser.wrapped_congr r.name (Script.run_congr r.script fun y hy => ?_)
      have hnests : grammar.Nests ⟨.tokens ts, hasModule?⟩ (r.name, s) y :=
        ⟨_, _, fun name => ⟨fuel, rfl⟩, r.rule?_name, hy⟩
      obtain ⟨q, hname, hlt⟩ := levels_lt_of_nests hnests
      rw [hname]
      exact ih (Nat.le_of_lt_succ (Nat.lt_of_lt_of_le hlt hfuel))
        (Nat.le_of_lt_succ (Nat.lt_of_lt_of_le hlt hfuel'))

theorem levels_le_depth (ts : List Token) (r : Nonterminal) (s : ParseState) :
    levels ts r s ≤ grammar.depth (.tokens ts) := by
  have hdepth : grammar.depth (.tokens ts) = 16 * (ts.length + 1) := rfl
  have := r.rank_le
  unfold levels
  omega

theorem apply_ne_fatal (r : Nonterminal) (s : ParseState) (fault : Fault) (t : ParseState) :
    grammar.apply r.name ⟨.tokens ts, hasModule?⟩ s ≠ (.error (.fatal fault), t) := by
  intro h
  rcases (builds_apply ts hasModule? r).answers (ParseState.length_kinds_le ts s) with
    ⟨_, _, _, hok, -⟩ | ⟨_, _, herr, -⟩
  · cases h.symm.trans hok
  · cases h.symm.trans herr

/-- What a rule does, said without fuel. -/
theorem apply_eq (r : Nonterminal) (s : ParseState) :
    grammar.apply r.name ⟨.tokens ts, hasModule?⟩ s =
      Parser.wrapped r.name (r.script.run grammar.apply) ⟨.tokens ts, hasModule?⟩ s := by
  have hdepth := levels_le_depth ts r s
  have hstep : grammar.apply r.name ⟨.tokens ts, hasModule?⟩ s =
      grammar.applyWithin (grammar.depth (.tokens ts) + 1) r.name ⟨.tokens ts, hasModule?⟩ s :=
    applyWithin_congr hdepth (Nat.le_succ_of_le hdepth)
  rw [applyWithin_name] at hstep
  exact hstep.trans (Parser.wrapped_congr r.name (Script.run_congr r.script fun _ _ => rfl))

/-- The parser ends. Whatever rule is applied to whatever state, the answer is not that something is
wrong with the grammar, it is what the rule says with no fuel to bound it, and it is the same with
any fuel for the levels that the state has. One rule inside another has fewer tokens left, or as
many and a smaller rank, so the root has no more levels than four for each token and three. A
repetition that nothing bounds makes one round at most for each token left, and one more. -/
theorem apply_terminates (ts : List Token) (hasModule? : Option (String → Bool)) :
    (∀ (r : Nonterminal) (s : ParseState),
      (∀ fault t, grammar.apply r.name ⟨.tokens ts, hasModule?⟩ s ≠ (.error (.fatal fault), t)) ∧
      grammar.apply r.name ⟨.tokens ts, hasModule?⟩ s =
        Parser.wrapped r.name (r.script.run grammar.apply) ⟨.tokens ts, hasModule?⟩ s ∧
      ∀ fuel, 4 * (ts.length - s.cursor) + r.rank ≤ fuel →
        grammar.applyWithin fuel r.name ⟨.tokens ts, hasModule?⟩ s =
          grammar.apply r.name ⟨.tokens ts, hasModule?⟩ s) ∧
    (∀ (r : Nonterminal) (s : ParseState) (y : String × ParseState),
      grammar.Nests ⟨.tokens ts, hasModule?⟩ (r.name, s) y →
      ∃ q : Nonterminal, y.1 = q.name ∧ Prod.Lex (· < ·) (· < ·)
        (ts.length - y.2.cursor, q.rank) (ts.length - s.cursor, r.rank)) ∧
    (∀ xs, List.IsChain (grammar.Nests ⟨.tokens ts, hasModule?⟩) ((grammar.root, {}) :: xs) →
      xs.length + 1 ≤ 4 * ts.length + 3) ∧
    ∀ (apply : String → Parser Node) (atoms : List Atom) (s : ParseState),
      grammar.Applies ⟨.tokens ts, hasModule?⟩ apply →
      let choice := Parser.firstOf (Atom.attempts apply atoms)
      ∃ k ≤ ts.length - s.cursor + 1, choice.Rounds ⟨.tokens ts, hasModule?⟩ s k
        (Parser.repeated choice ⟨.tokens ts, hasModule?⟩ s) := by
  refine ⟨fun r s => ⟨apply_ne_fatal r s, apply_eq r s, fun fuel hfuel => ?_⟩,
    fun r s y => lex_of_nests, fun xs h => length_lt_levels (r := .root) h,
    fun apply atoms s happly => ?_⟩
  · exact applyWithin_congr hfuel (levels_le_depth ts r s)
  · exact (Parser.Forward.firstOf happly.forward atoms).rounds_repeated s

def initialized : List Token :=
  [⟨0, "VAR", none⟩, ⟨4, "IDENTIFIER", some "x"⟩, ⟨6, "EQUALS", none⟩, ⟨8, "INTEGER", some "1"⟩,
    ⟨9, "NEWLINE", none⟩]

theorem apply_terminates_initialized : ∃ xs : List (String × ParseState),
    List.IsChain (grammar.Nests ⟨.tokens initialized, none⟩) ((grammar.root, {}) :: xs) ∧
    xs.map (·.1) =
      ["declStatement", "variableDecl", "expression", "product", "basicExpression"] ∧
    xs.map (·.2.cursor) = [0, 0, 3, 3, 3] ∧ xs.length + 1 ≤ 4 * initialized.length + 3 := by
  have hnests : ∀ {r : Nonterminal} {s : ParseState} {y : String × ParseState},
      r.script.Calls grammar.apply ⟨.tokens initialized, none⟩ s y →
      grammar.Nests ⟨.tokens initialized, none⟩ (r.name, s) y :=
    fun h => ⟨_, _, grammar.applies_apply _, Nonterminal.rule?_name _, h⟩
  have hchain : List.IsChain (grammar.Nests ⟨.tokens initialized, none⟩)
      ((Nonterminal.root.name, {}) :: (Nonterminal.declStatement.name, _) ::
        (Nonterminal.variableDecl.name, _) :: (Nonterminal.expression.name, _) ::
        (Nonterminal.product.name, _) :: [(Nonterminal.basicExpression.name, _)]) :=
    .cons_cons (hnests (.inr ⟨_, _, rfl, .inr ⟨_, _, rfl, .inl ⟨_, .first, .inl rfl⟩⟩⟩)) <|
    .cons_cons (hnests (.inl (.inr ⟨_, _, rfl, .inl rfl⟩))) <|
    .cons_cons (hnests (.inr ⟨_, _, rfl, .inr ⟨_, _, rfl, .inr ⟨_, _, rfl,
      .inl (.inl (.inr ⟨_, _, rfl, .inl (.inl rfl)⟩))⟩⟩⟩)) <|
    .cons_cons (hnests (.inl (.inl rfl))) <|
    .cons_cons (hnests (.inl (.inr ⟨_, _, rfl, .inr ⟨_, _, rfl, .inl rfl⟩⟩))) <| .singleton _
  exact ⟨_, hchain, rfl, rfl, (apply_terminates initialized none).2.2.1 _ hchain⟩

end JayFrontEnd.Jay
