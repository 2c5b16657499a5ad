import JayFrontEnd.Grammar.Jay
import JayFrontEnd.Proofs.Parsing.Reads

/-!
# The grammar of Jay reads its phrases

Each rule reads the phrase behind its name, if the rules it asks for do: those it asks for before
it has used a token have a smaller rank, the others have fewer tokens to work with. So with enough
fuel all rules read their phrases, and the tokens that `Jay.parse` accepts are those that the root
derives, followed by line breaks and the end of the tokens.
-/

namespace JayFrontEnd

namespace Nonterminal

def name : Nonterminal → String
  | root => NodeTag.root.name
  | importDirective => NodeTag.importDirective.name
  | declStatement => NodeTag.declStatement.name
  | statement => NodeTag.statement.name
  | variableDecl => NodeTag.variableDecl.name
  | functionDecl => NodeTag.functionDecl.name
  | params => NodeTag.params.name
  | param => NodeTag.param.name
  | block => NodeTag.block.name
  | assignment => NodeTag.assignment.name
  | functionCall => NodeTag.functionCall.name
  | callArgs => NodeTag.callArgs.name
  | expression => NodeTag.expression.name
  | product => "product"
  | parenthesis => NodeTag.parenthesis.name
  | basicExpression => NodeTag.basicExpression.name

def script : Nonterminal → Script
  | root => Jay.root
  | importDirective => Jay.importDirective
  | declStatement => Jay.declStatement
  | statement => Jay.statement
  | variableDecl => Jay.variableDecl
  | functionDecl => Jay.functionDecl
  | params => Jay.params
  | param => Jay.param
  | block => Jay.block
  | assignment => Jay.assignment
  | functionCall => Jay.functionCall
  | callArgs => Jay.callArgs
  | expression => Jay.expression
  | product => Jay.product
  | parenthesis => Jay.parenthesis
  | basicExpression => Jay.basicExpression

theorem rule?_name (r : Nonterminal) : Jay.grammar.rule? r.name = some r.script := by
  cases r <;> rfl

/-- How many rules can be entered from here, one inside the other, before a token is used. -/
def rank : Nonterminal → Nat
  | callArgs => 4
  | root | expression => 3
  | declStatement | statement | params | product => 2
  | _ => 1

theorem one_le_rank (r : Nonterminal) : 1 ≤ r.rank := by
  cases r <;> decide

theorem rank_le (r : Nonterminal) : r.rank ≤ 4 := by
  cases r <;> decide

/-- The kinds that go on with a phrase where it could end. -/
def continues : Nonterminal → List TokenKind
  | root => [.newline, .importKeyword, .funcKeyword, .varKeyword]
  | variableDecl => [.identifier, .equals, .dot, .parenStart, .mul, .div, .add, .sub]
  | params => [.comma]
  | callArgs => [.comma, .dot, .parenStart, .mul, .div, .add, .sub]
  | assignment | expression => [.dot, .parenStart, .mul, .div, .add, .sub]
  | product => [.dot, .parenStart, .mul, .div]
  | _ => []

end Nonterminal

open Nonterminal

namespace Reads

variable {ts : List Token} {n : Nat} {apply : String → Parser Node} {e f : Phrase}
  {ks ls : List TokenKind}

/-! ## Requests -/

theorem clears_nil (f : Phrase) (ls : List TokenKind) : f.clears [] ls = true := by
  simp [Phrase.clears]

theorem tok (k : TokenKind) :
    Reads ts n (Parser.firstOf (Atom.attempts apply [Jay.tok k])) (.token k) [] :=
  firstOf_one (token k)

theorem ref {name : String} (hp : Reads ts n (apply name) e ks) :
    Reads ts n (Parser.firstOf (Atom.attempts apply [.rule name])) e ks :=
  firstOf_one hp

theorem inline (kind : String) {script : Script} (hp : Reads ts n (script.run apply) e ks) :
    Reads ts n (Parser.firstOf (Atom.attempts apply [.inline kind script])) e ks :=
  firstOf_one (hp.wrapped kind)

theorem expect {k : TokenKind} {next : Node → Script}
    (hnext : ∀ a, ∀ m < n, Reads ts m ((next a).run apply) f ls) :
    Reads ts n ((Jay.expect k next).run apply) (.seq (.token k) f) ls :=
  (tok k).one (fun a m _ hm => hnext a m (hm rfl)) (clears_nil ..)

theorem call {r : Nonterminal} {next : Node → Script} (hp : Reads ts n (apply r.name) (.rule r) ks)
    (hnext : ∀ a, ∀ m ≤ n, Reads ts m ((next a).run apply) f ls) (hf : f.clears ks ls = true) :
    Reads ts n ((Script.one [.rule r.name] next).run apply) (.seq (.rule r) f) ls :=
  (ref hp).one (fun a m hm _ => hnext a m hm) hf

/-- A choice between phrases that are told apart by what they start with. -/
theorem choose {a b : Atom} {as : List Atom} (hp : Reads ts n (a.attempt apply) e ks)
    (hq : Reads ts n (Parser.firstOf (Atom.attempts apply (b :: as))) f ks)
    (hef : e.apart f = true) :
    Reads ts n (Parser.firstOf (Atom.attempts apply (a :: b :: as))) (.alt e f) ks :=
  orElse hp hq fun h h' _ => h.apart h' hef

theorem offset {next : Nat → Script} (hp : ∀ i, Reads ts n ((next i).run apply) e ks) :
    Reads ts n ((Script.offset next).run apply) e ks := by
  exact ⟨fun {s} hn => (hp ((Setting.ofTokens ts).input.offset s.cursor)).answers hn,
    fun {s r} hn => (hp ((Setting.ofTokens ts).input.offset s.cursor)).stops hn⟩

theorem last {atoms : List Atom} {next : Node → Script}
    (hp : Reads ts n (Parser.firstOf (Atom.attempts apply atoms)) e ks)
    (hnext : ∀ a, ∃ result, next a = .done result) :
    Reads ts n ((Script.one atoms next).run apply) e ks := by
  have htakes : ∀ {s t}, (Phrase.seq e .empty).Takes s t ↔ e.Takes s t := by
    intro s t
    simp only [Phrase.takes_seq, Phrase.takes_empty, exists_eq_right]
  have hone : Reads ts n ((Script.one atoms next).run apply) (.seq e .empty) ks := by
    refine hp.one (f := .empty) (fun a _ _ _ => ?_) (by simp [Phrase.clears, Phrase.heads])
    obtain ⟨result, ha⟩ := hnext a
    rw [ha]
    exact .done result
  refine ⟨fun hn => (hone.answers hn).imp_left ?_, fun hn ht => hone.stops hn (htakes.2 ht)⟩
  rintro ⟨a, t, h, ht⟩
  exact ⟨a, t, h, htakes.1 ht⟩

theorem importModule {module : String} {position : Nat} {next : Script}
    (hp : Reads ts n (next.run apply) e ks) :
    Reads ts n ((Script.importModule module position next).run apply) e ks := by
  have hkinds : ∀ s : ParseState, (s.require ⟨module, position⟩).kinds ts = s.kinds ts := by
    intro s
    unfold ParseState.require
    split <;> rfl
  refine ⟨fun {s} hn => ?_, fun {s r} hn ht => ?_⟩
  · rw [← hkinds] at hn ⊢
    exact hp.answers hn
  · rw [← hkinds] at hn ht
    exact hp.stops hn ht

theorem run_unlessAt (kind : String) (script next : Script) (s : ParseState) :
    (Script.unlessAt kind script next).run apply (.ofTokens ts) s =
      (if (ts[s.cursor]?).any (·.kind == kind) then next else script).run apply
        (.ofTokens ts) s :=
  rfl

theorem lineEnd (x : Node) :
    Reads ts n ((Script.unlessAt TokenKind.curlEnd.name
      (Jay.expect .newline fun _ => .node x) (.node x)).run apply) (.seq .lineEnd .empty) [] := by
  have htakes : ∀ {s t}, (Phrase.seq .lineEnd .empty).Takes s t ↔
      (Phrase.seq (.token .newline) .empty).Takes s t ∨
        s = t ∧ t.head? = some TokenKind.curlEnd.name := by
    intro s t
    simp only [Phrase.takes_seq, Phrase.takes_lineEnd, Phrase.takes_token, Phrase.takes_empty,
      exists_eq_right]
  have hnewline : Reads ts n ((Jay.expect .newline fun _ => .node x).run apply)
      (.seq (.token .newline) .empty) [] := .expect fun _ _ _ => .done _
  have hdone : Reads ts n ((Script.node x).run apply) .empty [] := .done _
  refine ⟨fun {s} hn => ?_, fun {s r} hn ht hc => ?_⟩
  · rw [run_unlessAt]
    split
    · next h =>
      refine (hdone.answers hn).imp_left fun ⟨a, t, ha, ht⟩ => ⟨a, t, ha, htakes.2 (.inr ?_)⟩
      rw [← Phrase.takes_empty.1 ht, ParseState.head?_kinds]
      exact ⟨rfl, h⟩
    · refine (hnewline.answers hn).imp_left ?_
      exact fun ⟨a, t, ha, ht⟩ => ⟨a, t, ha, htakes.2 (.inl ht)⟩
  · rw [run_unlessAt]
    rcases htakes.1 ht with ht | ⟨rfl, hs⟩
    · have hne : ¬(ts[s.cursor]?).any (·.kind == TokenKind.curlEnd.name) = true := by
        obtain ⟨u, hu, -⟩ := Phrase.takes_seq.1 ht
        rw [← ParseState.head?_kinds, Phrase.takes_token.1 hu]
        exact fun h => absurd (Option.some.inj h) (by decide)
      rw [if_neg hne]
      exact hnewline.stops hn ht hc
    · rw [if_pos (ParseState.head?_kinds.1 hs)]
      exact hdone.stops hn (Phrase.takes_empty.2 rfl) hc

end Reads

/-! ## Rules

A proof follows the requests of its script. Each closes with the checks of what can come next, which
hold by `rfl`.
-/

namespace Jay

variable {ts : List Token} {n : Nat} {apply : String → Parser Node}
  (later : ∀ m < n, ∀ r ≠ .root, Reads ts m (apply r.name) (.rule r) r.continues)

theorem reads_param : Reads ts n (param.run apply) Nonterminal.param.production [] :=
  .expect fun _ _ _ => .expect fun _ _ _ => .done _

theorem reads_basicExpression :
    Reads ts n (basicExpression.run apply) Nonterminal.basicExpression.production [] := by
  refine .last ?_ fun a => ⟨_, rfl⟩
  exact .choose (.token .identifier) (.choose (.token .string)
    (.choose (.token .integer) (.tok .float) rfl) rfl) rfl

include later in
theorem reads_parenthesis :
    Reads ts n (parenthesis.run apply) Nonterminal.parenthesis.production [] := by
  refine .expect fun _ m hm => ?_
  have hinner := later m hm .expression nofun
  exact .call hinner (fun _ _ _ => .expect fun _ _ _ => .done _) rfl

include later in
theorem reads_assignment :
    Reads ts n (assignment.run apply) Nonterminal.assignment.production
      Nonterminal.assignment.continues := by
  refine .expect fun _ m hm => .expect fun _ m' hm' => ?_
  have hvalue := later m' (by omega) .expression nofun
  exact .call hvalue (fun _ _ _ => .done _) rfl

theorem reads_importDirective :
    Reads ts n (importDirective.run apply) Nonterminal.importDirective.production [] :=
  .expect fun _ _ _ => .expect fun _ _ _ => .expect fun _ _ _ => .importModule (.done _)

include later in
theorem reads_variableDecl :
    Reads ts n (variableDecl.run apply) Nonterminal.variableDecl.production
      Nonterminal.variableDecl.continues := by
  refine .expect fun _ m hm => .expect fun _ m' hm' => ?_
  refine .opt (.tok .identifier) rfl (fun _ m'' hm'' => ?_) rfl
  have hinit : Reads ts m'' (initializer.run apply) (.all [.token .equals, .rule .expression])
      Nonterminal.expression.continues := by
    refine .expect fun _ k hk => ?_
    have hvalue := later k (by omega) .expression nofun
    exact .call hvalue (fun _ _ _ => .done _) rfl
  exact .opt (.inline "initializer" hinit) rfl (fun _ _ _ => .done _) rfl

include later in
theorem reads_functionDecl :
    Reads ts n (functionDecl.run apply) Nonterminal.functionDecl.production [] := by
  refine .expect fun _ m hm => .expect fun _ m₁ hm₁ => .expect fun _ m₂ hm₂ => ?_
  have hparams := later m₂ (by omega) .params nofun
  refine .opt (.ref hparams) rfl (fun _ m₃ hm₃ => .expect fun _ m₄ hm₄ => ?_) rfl
  refine .opt (.tok .identifier) rfl (fun _ m₅ hm₅ => ?_) rfl
  have hbody := later m₅ (by omega) .block nofun
  exact .call hbody (fun _ _ _ => .done _) rfl

include later in
theorem reads_block : Reads ts n (block.run apply) Nonterminal.block.production [] := by
  refine .expect fun _ m hm => .opt (.tok .newline) rfl (fun _ m' hm' => ?_) rfl
  have hstatement := later m' (by omega) .statement nofun
  exact .many (.ref hstatement) rfl rfl rfl (fun _ _ _ => .expect fun _ _ _ => .done _) rfl

include later in
theorem reads_params (hparam : Reads ts n (apply Nonterminal.param.name) (.rule .param) []) :
    Reads ts n (params.run apply) Nonterminal.params.production Nonterminal.params.continues := by
  refine .call hparam (fun _ m hm => ?_) rfl
  have hnext : Reads ts m (nextParam.run apply) (.all [.token .comma, .rule .param]) [] := by
    refine .expect fun _ k hk => ?_
    have hparam := later k (by omega) .param nofun
    exact .one (hparam.labelled "parameter").firstOf_one (fun _ _ _ _ => .done _) rfl
  exact .many (.inline "parameter" hnext) rfl rfl rfl (fun _ _ _ => .done _) rfl

include later in
theorem reads_callArgs (hexpression : Reads ts n (apply Nonterminal.expression.name)
    (.rule .expression) Nonterminal.expression.continues) :
    Reads ts n (callArgs.run apply) Nonterminal.callArgs.production
      Nonterminal.callArgs.continues := by
  refine .call hexpression (fun _ m hm => ?_) rfl
  have hnext : Reads ts m (nextArg.run apply) (.all [.token .comma, .rule .expression])
      Nonterminal.expression.continues := by
    refine .expect fun _ k hk => ?_
    have hexpression := later k (by omega) .expression nofun
    exact .call hexpression (fun _ _ _ => .done _) rfl
  exact .many (.inline "argument" hnext) rfl rfl rfl (fun _ _ _ => .done _) rfl

include later in
theorem reads_functionCall :
    Reads ts n (functionCall.run apply) Nonterminal.functionCall.production [] := by
  refine .expect fun _ m hm => ?_
  have hmember : Reads ts m (member.run apply) (.all [.token .dot, .token .identifier]) [] :=
    .expect fun _ _ _ => .expect fun _ _ _ => .done _
  refine .opt (.inline "member" hmember) rfl (fun _ m₁ hm₁ => .expect fun _ m₂ hm₂ => ?_) rfl
  have hargs := later m₂ (by omega) .callArgs nofun
  exact .opt (.ref hargs) rfl (fun _ _ _ => .expect fun _ _ _ => .done _) rfl

theorem reads_declStatement
    (hfunctionDecl : Reads ts n (apply Nonterminal.functionDecl.name) (.rule .functionDecl) [])
    (hvariableDecl : Reads ts n (apply Nonterminal.variableDecl.name) (.rule .variableDecl)
      Nonterminal.variableDecl.continues) :
    Reads ts n (declStatement.run apply) Nonterminal.declStatement.production [] := by
  have hchoice : Reads ts n (Parser.firstOf (Atom.attempts apply
      [.named "declaration" (ref .functionDecl), .named "declaration" (ref .variableDecl)]))
      (.oneOf (.rule .functionDecl) [.rule .variableDecl]) Nonterminal.variableDecl.continues :=
    .choose ((hfunctionDecl.labelled "declaration").mono nofun)
      (hvariableDecl.labelled "declaration").firstOf_one rfl
  exact .one hchoice (fun _ _ _ _ => .expect fun _ _ _ => .done _) rfl

/-- After the name, an assignment goes on in another way than a call does. -/
theorem assignment_apart_functionCall {s t u : List String}
    (h : (Phrase.rule .assignment).Takes s t) (h' : (Phrase.rule .functionCall).Takes s u) :
    False := by
  obtain ⟨v, rfl, hv⟩ := Phrase.takes_token_seq.1 (Phrase.takes_rule.1 h)
  obtain ⟨w, hw, hw'⟩ := Phrase.takes_token_seq.1 (Phrase.takes_rule.1 h')
  obtain rfl : v = w := (List.cons.inj hw).2
  exact hv.apart hw' rfl

/-- Where a name is an operand of its own, nothing that would make it a call comes after it. -/
theorem functionCall_apart_basicExpression {s t u : List String}
    (h : (Phrase.rule .functionCall).Takes s t) (h' : (Phrase.rule .basicExpression).Takes s u)
    (hu : Clear [.dot, .parenStart] u) : False := by
  rcases Phrase.takes_alt.1 (Phrase.takes_rule.1 h') with hname | hliteral
  · obtain ⟨v, rfl, hv⟩ := Phrase.takes_token_seq.1 (Phrase.takes_rule.1 h)
    obtain rfl : v = u := (List.cons.inj (Phrase.takes_token.1 hname)).2
    rcases hv.startsWith with ⟨k, hk, hs⟩ | ⟨hpass, -⟩
    · exact hu k hk hs
    · cases hpass
  · exact h.apart hliteral rfl

theorem reads_statement
    (hvariableDecl : Reads ts n (apply Nonterminal.variableDecl.name) (.rule .variableDecl)
      Nonterminal.variableDecl.continues)
    (hassignment : Reads ts n (apply Nonterminal.assignment.name) (.rule .assignment)
      Nonterminal.assignment.continues)
    (hfunctionCall : Reads ts n (apply Nonterminal.functionCall.name) (.rule .functionCall) [])
    (hblock : Reads ts n (apply Nonterminal.block.name) (.rule .block) []) :
    Reads ts n (statement.run apply) Nonterminal.statement.production [] := by
  have hcall : Reads ts n (Parser.firstOf (Atom.attempts apply [ref .functionCall, ref .block]))
      (.oneOf (.rule .functionCall) [.rule .block]) [] :=
    .choose hfunctionCall (.ref hblock) rfl
  have hassign : Reads ts n
      (Parser.firstOf (Atom.attempts apply [ref .assignment, ref .functionCall, ref .block]))
      (.oneOf (.rule .assignment) [.rule .functionCall, .rule .block])
      Nonterminal.assignment.continues := by
    refine .orElse hassignment (hcall.mono nofun) fun h h' _ => ?_
    rcases Phrase.takes_alt.1 h' with h' | h'
    · exact assignment_apart_functionCall h h'
    · exact h.apart h' rfl
  have hchoice : Reads ts n (Parser.firstOf (Atom.attempts apply
      [ref .variableDecl, ref .assignment, ref .functionCall, ref .block]))
      (.oneOf (.rule .variableDecl) [.rule .assignment, .rule .functionCall, .rule .block])
      Nonterminal.variableDecl.continues :=
    .choose hvariableDecl (hassign.mono (by decide)) rfl
  exact .one hchoice (fun a _ _ _ => .lineEnd a) rfl

include later in
theorem reads_product
    (hparenthesis : Reads ts n (apply Nonterminal.parenthesis.name) (.rule .parenthesis) [])
    (hfunctionCall : Reads ts n (apply Nonterminal.functionCall.name) (.rule .functionCall) [])
    (hbasicExpression : Reads ts n (apply Nonterminal.basicExpression.name)
      (.rule .basicExpression) []) :
    Reads ts n (product.run apply) Nonterminal.product.production
      Nonterminal.product.continues := by
  have hname : Reads ts n
      (Parser.firstOf (Atom.attempts apply [ref .functionCall, ref .basicExpression]))
      (.oneOf (.rule .functionCall) [.rule .basicExpression]) [.dot, .parenStart] :=
    .orElse (hfunctionCall.mono nofun) ((Reads.ref hbasicExpression).mono nofun)
      functionCall_apart_basicExpression
  have hterm : Reads ts n (Parser.firstOf (Atom.attempts apply
      [ref .parenthesis, ref .functionCall, ref .basicExpression])) .term [.dot, .parenStart] :=
    .choose (hparenthesis.mono nofun) hname rfl
  refine .offset fun start => .one hterm (fun lhs m _ hm => ?_) rfl
  have hoperator : Reads ts m (Parser.firstOf (Atom.attempts apply [tok .mul, tok .div]))
      (.oneOf (.token .mul) [.token .div]) [] := .choose (.token .mul) (.tok .div) rfl
  refine .optThen hoperator rfl (fun _ => .done _) (fun _ k _ hk => ?_) rfl (by decide)
  have hlt := hm rfl
  have hlt' := hk rfl
  have hrhs := later k (by omega) .product nofun
  exact .call hrhs (fun _ _ _ => .done _) rfl

include later in
theorem reads_expression (hproduct : Reads ts n (apply Nonterminal.product.name) (.rule .product)
    Nonterminal.product.continues) :
    Reads ts n (expression.run apply) Nonterminal.expression.production
      Nonterminal.expression.continues := by
  refine .offset fun start => .call (r := .product) hproduct (fun lhs m hm => ?_) rfl
  have hoperator : Reads ts m (Parser.firstOf (Atom.attempts apply [tok .add, tok .sub]))
      (.oneOf (.token .add) [.token .sub]) [] := .choose (.token .add) (.tok .sub) rfl
  refine .optThen hoperator rfl (fun _ => .done _) (fun _ k _ hk => ?_) rfl (by decide)
  have hlt := hk rfl
  have hrhs := later k (by omega) .expression nofun
  exact .call hrhs (fun _ _ _ => .done _) rfl

/-- One level of a rule: what it asks for right away has a smaller rank. -/
theorem reads_script {r : Nonterminal} (hr : r ≠ .root)
    (later : ∀ m < n, ∀ q ≠ .root, Reads ts m (apply q.name) (.rule q) q.continues)
    (below : ∀ q ≠ .root, q.rank < r.rank →
      Reads ts n (apply q.name) (.rule q) q.continues) :
    Reads ts n (r.script.run apply) r.production r.continues := by
  cases r with
  | root => cases hr rfl
  | importDirective => exact reads_importDirective
  | declStatement =>
    exact reads_declStatement (below .functionDecl nofun (by decide))
      (below .variableDecl nofun (by decide))
  | statement =>
    exact reads_statement (below .variableDecl nofun (by decide))
      (below .assignment nofun (by decide)) (below .functionCall nofun (by decide))
      (below .block nofun (by decide))
  | variableDecl => exact reads_variableDecl later
  | functionDecl => exact reads_functionDecl later
  | params => exact reads_params later (below .param nofun (by decide))
  | param => exact reads_param
  | block => exact reads_block later
  | assignment => exact reads_assignment later
  | functionCall => exact reads_functionCall later
  | callArgs => exact reads_callArgs later (below .expression nofun (by decide))
  | expression => exact reads_expression later (below .product nofun (by decide))
  | product =>
    exact reads_product later (below .parenthesis nofun (by decide))
      (below .functionCall nofun (by decide)) (below .basicExpression nofun (by decide))
  | parenthesis => exact reads_parenthesis later
  | basicExpression => exact reads_basicExpression

theorem applyWithin_name (fuel : Nat) (r : Nonterminal) :
    grammar.applyWithin (fuel + 1) r.name =
      Parser.wrapped r.name (r.script.run (grammar.applyWithin fuel)) := by
  rw [Grammar.applyWithin, r.rule?_name]

/-- With fuel for all ranks at each token that is left, a rule reads its phrase. -/
theorem reads_rule {fuel : Nat} {r : Nonterminal} (hr : r ≠ .root)
    (hfuel : 4 * n + r.rank ≤ fuel) :
    Reads ts n (grammar.applyWithin fuel r.name) (.rule r) r.continues := by
  induction fuel generalizing n r with
  | zero =>
    have := r.one_le_rank
    omega
  | succ fuel ih =>
    have later : ∀ m < n, ∀ q ≠ .root,
        Reads ts m (grammar.applyWithin fuel q.name) (.rule q) q.continues := by
      intro m hm q hq
      have := q.rank_le
      have := r.one_le_rank
      exact ih hq (by omega)
    have below : ∀ q ≠ .root, q.rank < r.rank →
        Reads ts n (grammar.applyWithin fuel q.name) (.rule q) q.continues := by
      intro q hq hlt
      exact ih hq (by omega)
    rw [applyWithin_name]
    exact ((reads_script hr later below).wrapped r.name).rule

/-! ## Modules -/

def contentsPhrase : Phrase := .all [.many (.rule .importDirective), .many (.rule .declStatement)]

/-- No directive or declaration starts with a line break or the end of the tokens. -/
theorem clear_layout {r : List String} (hr : ∀ k ∈ r, k = Token.newline ∨ k = Token.eos) :
    Clear contentsPhrase.heads r := by
  cases r with
  | nil => exact fun _ _ => nofun
  | cons x r =>
    rcases hr x (List.mem_cons_self ..) with rfl | rfl
    · simp +decide [Clear]
    · simp +decide [Clear]

theorem contents_takes_nothing (s : List String) : contentsPhrase.Takes s s := by
  have hdeclarations : (Phrase.all [.many (.rule .declStatement)]).Takes s s :=
    Phrase.takes_seq.2 ⟨s, Phrase.takes_many.2 (.inl rfl), Phrase.takes_empty.2 rfl⟩
  exact Phrase.takes_seq.2 ⟨s, Phrase.takes_many.2 (.inl rfl), hdeclarations⟩

/-- A line break that comes first can be taken, even one that the phrase leaves: the phrase is empty
then, and ends a line break later. -/
theorem contents_after_newline {s r : List String}
    (ht : Nonterminal.root.production.Takes (TokenKind.newline.name :: s) r) :
    ∃ r', contentsPhrase.Takes s r' ∧ (r' = r ∨ r = TokenKind.newline.name :: r') := by
  obtain ⟨u, hu, hur⟩ := Phrase.takes_seq.1 ht
  rcases Phrase.takes_opt.1 hu with rfl | hu
  · have hfirst : StartsWith [.newline] (TokenKind.newline.name :: s) :=
      ⟨_, List.mem_singleton_self _, rfl⟩
    rcases hur.startsWith with ⟨k, hk, hks⟩ | ⟨-, rfl⟩
    · exact absurd hks (hfirst.clear (by decide) k hk)
    · exact ⟨s, contents_takes_nothing s, .inr rfl⟩
  · obtain rfl : s = u := (List.cons.inj (Phrase.takes_token.1 hu)).2
    exact ⟨r, hur, .inl rfl⟩

section Modules

variable (rules : ∀ m ≤ n, ∀ r ≠ .root, Reads ts m (apply r.name) (.rule r) r.continues)

include rules

theorem reads_contents :
    Reads ts n (contents.run apply) contentsPhrase contentsPhrase.heads := by
  have himport := rules n (by omega) .importDirective nofun
  refine .many (.ref himport) rfl rfl rfl (fun _ m hm => ?_) rfl
  have hdeclaration := rules m hm .declStatement nofun
  exact .many (.ref hdeclaration) rfl rfl rfl (fun _ _ _ => .done _) rfl

theorem reads_root :
    Reads ts n (root.run apply) Nonterminal.root.production Nonterminal.root.continues := by
  refine .opt (.tok .newline) rfl (fun _ m hm => ?_) rfl
  have hcontents : Reads ts m (contents.run apply) contentsPhrase contentsPhrase.heads :=
    reads_contents fun k hk => rules k (by omega)
  exact hcontents.mono (by decide)

/-- Before line breaks and the end of the tokens the root stops, or after one line break more. -/
theorem root_stops {s : ParseState} {r : List String} (hn : (s.kinds ts).length ≤ n)
    (ht : Nonterminal.root.production.Takes (s.kinds ts) r)
    (hr : ∀ k ∈ r, k = Token.newline ∨ k = Token.eos) :
    ∃ a t, root.run apply (.ofTokens ts) s = (.ok a, t) ∧
      (t.kinds ts = r ∨ r = TokenKind.newline.name :: t.kinds ts) := by
  have htok : Reads ts n (Parser.firstOf (Atom.attempts apply [tok .newline]))
      (.token .newline) [] := .tok .newline
  have hcontents := reads_contents rules
  show ∃ a t, (Parser.optional (Parser.firstOf (Atom.attempts apply [tok .newline])) >>= fun _ =>
    contents.run apply) (.ofTokens ts) s = (.ok a, t) ∧ _
  simp only [Bind.bind, Parser.optional]
  rcases htok.answers hn with ⟨a, t, h, htaken⟩ | ⟨err, t, h⟩
  · simp only [h]
    have hlen := htaken.length_le
    rw [Phrase.takes_token.1 htaken] at ht
    obtain ⟨r', ht', hr'⟩ := contents_after_newline ht
    have hlayout : ∀ k ∈ r', k = Token.newline ∨ k = Token.eos := by
      intro k hk
      rcases hr' with rfl | rfl
      · exact hr k hk
      · exact hr k (List.mem_cons_of_mem _ hk)
    obtain ⟨b, v, hb, rfl⟩ := hcontents.stops (by omega) ht' (clear_layout hlayout)
    exact ⟨b, v, hb, hr'⟩
  · simp only [h]
    obtain ⟨u, hu, hur⟩ := Phrase.takes_seq.1 ht
    rcases Phrase.takes_opt.1 hu with rfl | hu
    · obtain ⟨b, v, hb, hv⟩ := hcontents.stops (s := t.moveTo s.cursor) hn hur (clear_layout hr)
      exact ⟨b, v, hb, .inl hv⟩
    · obtain ⟨a, v, ha, -⟩ := htok.stops hn hu fun _ hk => absurd hk List.not_mem_nil
      cases h.symm.trans ha

end Modules

/-- The depth that a parse is given is enough for the root to be entered. -/
theorem apply_root (ts : List Token) : grammar.apply grammar.root (.ofTokens ts) =
    Parser.wrapped Nonterminal.root.name
      (root.run (grammar.applyWithin (16 * ts.length + 15))) (.ofTokens ts) :=
  congrFun (applyWithin_name (16 * ts.length + 15) .root) _

theorem reads_within (ts : List Token) : ∀ m ≤ ts.length, ∀ r ≠ .root,
    Reads ts m (grammar.applyWithin (16 * ts.length + 15) r.name) (.rule r) r.continues := by
  intro m hm r hr
  have := r.rank_le
  exact reads_rule hr (by omega)

theorem derives_of_apply_root {tree : Node} {s : ParseState}
    (h : grammar.apply grammar.root (.ofTokens ts) {} = (.ok tree, s)) :
    Derives (.rule .root) ((ts.take s.cursor).map (·.kind)) ((ts.drop s.cursor).map (·.kind)) := by
  have hreads := (reads_root (reads_within ts)).wrapped Nonterminal.root.name
  have hstart := ParseState.length_kinds ts {}
  rw [apply_root] at h
  rcases hreads.answers (Nat.le_of_eq hstart) with ⟨_, _, hok, w, hw, hd⟩ | ⟨_, _, herr⟩
  · cases h.symm.trans hok
    have hts : ts.map (·.kind) = (ts.take s.cursor).map (·.kind) ++ s.kinds ts := by
      rw [ParseState.kinds, ← List.map_append, List.take_append_drop]
    rw [← List.append_cancel_right (hw.symm.trans hts)]
    exact .rule hd
  · cases h.symm.trans herr

theorem apply_root_of_derives {w tail : List Token}
    (hd : Derives (.rule .root) (w.map (·.kind)) (tail.map (·.kind)))
    (htail : ∀ t ∈ tail, t.isLayout = true) :
    ∃ tree s, grammar.apply grammar.root (.ofTokens (w ++ tail)) {} = (.ok tree, s) ∧
      ∀ t ∈ (w ++ tail).drop s.cursor, t.isLayout = true := by
  have htakes : Nonterminal.root.production.Takes (ParseState.kinds (w ++ tail) {})
      (tail.map (·.kind)) := by
    refine Phrase.takes_rule.1 ⟨w.map (·.kind), ?_, hd⟩
    rw [ParseState.kinds, List.drop_zero, List.map_append]
  have hlayout : ∀ k ∈ tail.map (·.kind), k = Token.newline ∨ k = Token.eos := by
    intro k hk
    obtain ⟨t, ht, rfl⟩ := List.mem_map.1 hk
    simpa [Token.isLayout] using htail t ht
  have hstart := ParseState.length_kinds (w ++ tail) {}
  obtain ⟨a, s, h, hs⟩ := root_stops (reads_within _) (Nat.le_of_eq hstart) htakes hlayout
  obtain ⟨tree, htree⟩ := Parser.wrapped_ok Nonterminal.root.name h
  refine ⟨tree, s, (congrFun (apply_root _) {}).trans htree, fun t ht => ?_⟩
  have hmem : t.kind ∈ tail.map (·.kind) := by
    have hk : t.kind ∈ s.kinds (w ++ tail) := List.mem_map_of_mem ht
    rcases hs with hs | hs
    · rwa [← hs]
    · rw [hs]
      exact List.mem_cons_of_mem _ hk
  simpa [Token.isLayout] using hlayout _ hmem

/-- The parser accepts the tokens that the root derives, with nothing but line breaks and the end of
the tokens after them. -/
theorem accepts_iff_derives : (∃ out, parse none ts = .ok out) ↔
    ∃ w tail, ts = w ++ tail ∧ (∀ t ∈ tail, t.isLayout = true) ∧
      Derives (.rule .root) (w.map (·.kind)) (tail.map (·.kind)) := by
  rw [parse, Grammar.parse_ok_iff rfl]
  constructor
  · rintro ⟨tree, s, h, hend⟩
    exact ⟨ts.take s.cursor, ts.drop s.cursor, (List.take_append_drop ..).symm,
      List.all_eq_true.1 hend, derives_of_apply_root h⟩
  · rintro ⟨w, tail, rfl, htail, hd⟩
    obtain ⟨tree, s, h, hend⟩ := apply_root_of_derives hd htail
    exact ⟨tree, s, h, List.all_eq_true.2 hend⟩

end Jay

end JayFrontEnd
