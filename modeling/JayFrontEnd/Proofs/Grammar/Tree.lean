import JayFrontEnd.Proofs.Grammar.Jay
import JayFrontEnd.Proofs.Parsing.Builds

/-!
# The trees of phrases

`Spells r w n` says that `n` is the tree of the tokens `w`, read as the phrase behind the name `r`:
which tokens its leaves are, what its fields hold and where it starts. Pieces of a phrase that may
be missing, or come any number of times, are pairs of tokens and tree.
-/

namespace JayFrontEnd

/-- The first of the tokens is of the kind. -/
def LedBy (k : TokenKind) (w : List Token) : Prop := ∃ t ∈ w.head?, t.Is k

namespace Nonterminal

/-- What a phrase of the name can be as a whole, but for the end of a line or an operator. -/
def choices : Nonterminal → List Nonterminal
  | declStatement => [functionDecl, variableDecl]
  | statement => [variableDecl, assignment, functionCall, block]
  | expression => [product]
  | product => [parenthesis, functionCall, basicExpression]
  | _ => []

/-- The operators that join a first operand to the rest. -/
def operators : Nonterminal → List TokenKind
  | expression => [.add, .sub]
  | product => [.mul, .div]
  | _ => []

/-- What stands between the commas of a list. -/
def item? : Nonterminal → Option Nonterminal
  | params => some param
  | callArgs => some expression
  | _ => none

end Nonterminal

theorem ne_root_of_mem_choices {r q : Nonterminal} (h : q ∈ r.choices) : q ≠ .root := by
  rintro rfl
  cases r <;> simp [Nonterminal.choices] at h

theorem ne_root_of_item? {r q : Nonterminal} (h : r.item? = some q) : q ≠ .root := by
  rintro rfl
  cases r <;> cases h

/-- The kinds of token that are operands by themselves. -/
def operandKinds : List TokenKind := [.identifier, .string, .integer, .float]

open NodeTag (name) in
/-- The tree of some tokens, read as the phrase behind a name. -/
inductive Spells : Nonterminal → List Token → Node → Prop where
  | importDirective {keyword module lineEnd : Token} : keyword.Is .importKeyword →
      module.Is .string → lineEnd.Is .newline →
      Spells .importDirective [keyword, module, lineEnd]
        (.mk keyword.position (name .importDirective)
          (.composite [("module", some (.ofToken module))]))
  | declStatement {q : Nonterminal} {w : List Token} {n : Node} {lineEnd : Token} :
      q ∈ Nonterminal.declStatement.choices → Spells q w n → lineEnd.Is .newline →
      Spells .declStatement (w ++ [lineEnd]) n
  | statement {q : Nonterminal} {w v : List Token} {n : Node} :
      q ∈ Nonterminal.statement.choices → Spells q w n →
      (v = [] ∨ ∃ lineEnd, lineEnd.Is .newline ∧ v = [lineEnd]) → Spells .statement (w ++ v) n
  | variableDecl {keyword target : Token} {type : Option Token}
      {value : Option (List Token × Node)} : keyword.Is .varKeyword → target.Is .identifier →
      (∀ t ∈ type, t.Is .identifier) → (∀ x ∈ value, LedBy .equals x.1) →
      (∀ x ∈ value, Spells .expression x.1.tail x.2) →
      Spells .variableDecl (keyword :: target :: (type.toList ++ value.elim [] (·.1)))
        (.mk keyword.position (name .variableDecl)
          (.composite [("name", some (.ofToken target)), ("type", type.map .ofToken),
            ("value", value.map (·.2))]))
  | functionDecl {keyword function opening closing : Token} {params : Option (List Token × Node)}
      {returns : Option Token} {w : List Token} {body : Node} : keyword.Is .funcKeyword →
      function.Is .identifier → opening.Is .parenStart →
      (∀ x ∈ params, Spells .params x.1 x.2) → closing.Is .parenEnd →
      (∀ t ∈ returns, t.Is .identifier) → Spells .block w body →
      Spells .functionDecl
        (keyword :: function :: opening ::
          (params.elim [] (·.1) ++ closing :: (returns.toList ++ w)))
        (.mk keyword.position (name .functionDecl)
          (.composite [("name", some (.ofToken function)), ("params", params.map (·.2)),
            ("returns", returns.map .ofToken), ("body", some body)]))
  | list {r q : Nonterminal} {w : List Token} {first : Node} {others : List (List Token × Node)}
      {start : Nat} : r.item? = some q → Spells q w first → StartsAt start w →
      (∀ x ∈ others, LedBy .comma x.1) → (∀ x ∈ others, Spells q x.1.tail x.2) →
      Spells r (w ++ others.flatMap (·.1)) (.mk start r.name (.list (first :: others.map (·.2))))
  | param {parameter type : Token} : parameter.Is .identifier → type.Is .identifier →
      Spells .param [parameter, type]
        (.mk parameter.position (name .param)
          (.composite [("name", some (.ofToken parameter)), ("type", some (.ofToken type))]))
  | block {opening closing : Token} {v : List Token} {statements : List (List Token × Node)} :
      opening.Is .curlStart → (v = [] ∨ ∃ lineEnd, lineEnd.Is .newline ∧ v = [lineEnd]) →
      (∀ x ∈ statements, Spells .statement x.1 x.2) → closing.Is .curlEnd →
      Spells .block (opening :: (v ++ (statements.flatMap (·.1) ++ [closing])))
        (.mk opening.position (name .block) (.list (statements.map (·.2))))
  | assignment {target sign : Token} {w : List Token} {value : Node} :
      target.Is .identifier → sign.Is .equals → Spells .expression w value →
      Spells .assignment (target :: sign :: w)
        (.mk target.position (name .assignment)
          (.composite [("name", some (.ofToken target)), ("value", some value)]))
  | functionCall {first opening closing : Token} {member : Option (Token × Token)}
      {args : Option (List Token × Node)} : first.Is .identifier →
      (∀ x ∈ member, x.1.Is .dot ∧ x.2.Is .identifier) → opening.Is .parenStart →
      (∀ x ∈ args, Spells .callArgs x.1 x.2) → closing.Is .parenEnd →
      Spells .functionCall
        (first :: (member.elim [] (fun x => [x.1, x.2]) ++
          opening :: (args.elim [] (·.1) ++ [closing])))
        (.mk first.position (name .functionCall)
          (.composite [("module", member.map fun _ => .ofToken first),
            ("name", some (.ofToken ((member.map (·.2)).getD first))), ("args", args.map (·.2))]))
  | operand {r q : Nonterminal} {w : List Token} {n : Node} : r = .expression ∨ r = .product →
      q ∈ r.choices → Spells q w n → Spells r w n
  | operator {r q : Nonterminal} {w v : List Token} {left right : Node} {sign : Token}
      {k : TokenKind} {start : Nat} : q ∈ r.choices → Spells q w left → StartsAt start w →
      k ∈ r.operators → sign.Is k → Spells r v right →
      Spells r (w ++ sign :: v) (Jay.binary start (.ofToken sign) left right)
  | parenthesis {opening closing : Token} {w : List Token} {n : Node} : opening.Is .parenStart →
      Spells .expression w n → closing.Is .parenEnd →
      Spells .parenthesis (opening :: (w ++ [closing])) n
  | basicExpression {operand : Token} {k : TokenKind} : k ∈ operandKinds → operand.Is k →
      Spells .basicExpression [operand] (.ofToken operand)
  | root {v : List Token} {imports declarations : List (List Token × Node)} {start : Nat} :
      (v = [] ∨ ∃ lineEnd, lineEnd.Is .newline ∧ v = [lineEnd]) →
      (∀ x ∈ imports, Spells .importDirective x.1 x.2) →
      (∀ x ∈ declarations, Spells .declStatement x.1 x.2) →
      Spells .root (v ++ (imports.flatMap (·.1) ++ declarations.flatMap (·.1)))
        (.mk start (name .root) (.list (imports.map (·.2) ++ declarations.map (·.2))))

theorem LedBy.append {k : TokenKind} {w : List Token} (h : LedBy k w) (v : List Token) :
    LedBy k (w ++ v) := by
  obtain ⟨t, ht, his⟩ := h
  exact ⟨t, List.head?_append_of_ne_nil w (by rintro rfl; cases ht) ▸ ht, his⟩

theorem heads_of_mem_choices {r q : Nonterminal} (h : q ∈ r.choices) :
    ∀ k ∈ q.heads, k ∈ r.heads := by
  cases r <;> revert h <;> cases q <;> decide

theorem heads_of_item? {r q : Nonterminal} (h : r.item? = some q) : ∀ k ∈ q.heads, k ∈ r.heads := by
  cases r <;> cases h <;> decide

/-- A phrase begins with one of the kinds that it can begin with. -/
theorem ledBy_of_spells {r : Nonterminal} {w : List Token} {n : Node} (h : Spells r w n)
    (hr : r ≠ .root) : ∃ k ∈ r.heads, LedBy k w := by
  have hchoice {r q : Nonterminal} {w : List Token} (hq : q ∈ r.choices)
      (ih : q ≠ .root → ∃ k ∈ q.heads, LedBy k w) : ∃ k ∈ r.heads, LedBy k w := by
    obtain ⟨k, hk, hled⟩ := ih (ne_root_of_mem_choices hq)
    exact ⟨k, heads_of_mem_choices hq k hk, hled⟩
  have hfirst {k : TokenKind} {t : Token} {v : List Token} (ht : t.Is k) : LedBy k (t :: v) :=
    ⟨t, rfl, ht⟩
  induction h with
  | importDirective hk => exact ⟨_, List.mem_singleton_self _, hfirst hk⟩
  | declStatement hq _ _ ih | statement hq _ _ ih | operator hq _ _ _ _ _ ih =>
    obtain ⟨k, hk, hled⟩ := hchoice hq ih
    exact ⟨k, hk, hled.append _⟩
  | list hq _ _ _ _ ih =>
    obtain ⟨k, hk, hled⟩ := ih (ne_root_of_item? hq)
    exact ⟨k, heads_of_item? hq k hk, hled.append _⟩
  | operand _ hq _ ih => exact hchoice hq ih
  | basicExpression hk ht => exact ⟨_, hk, hfirst ht⟩
  | root => exact absurd rfl hr
  | variableDecl ht | functionDecl ht | param ht | block ht | assignment ht | functionCall ht
  | parenthesis ht => exact ⟨_, List.mem_singleton_self _, hfirst ht⟩

/-- Only a module can have no tokens. -/
theorem ne_nil_of_spells {r : Nonterminal} {w : List Token} {n : Node} (h : Spells r w n)
    (hr : r ≠ .root) : w ≠ [] := by
  obtain ⟨k, -, t, ht, -⟩ := ledBy_of_spells h hr
  rintro rfl
  cases ht

/-- The result of a rule, of whose values it makes nodes of its name, is a tree of the tokens. -/
def Built (r : Nonterminal) (w : List Token) : Parsed → Prop
  | .value v => ∀ start, StartsAt start w → Spells r w (.mk start r.name v)
  | .node n => Spells r w n

/-- The result is a node of which something holds. -/
def PassesOn (P : List Token → Node → Prop) (w : List Token) : Parsed → Prop
  | .value _ => False
  | .node n => P w n

namespace Builds

variable {ts : List Token} {hasModule? : Option (String → Bool)} {n : Nat}
  {apply : String → Parser Node} {e f : Phrase} {P : List Token → Node → Prop}
  {S : List Token → Parsed → Prop}

/-! ## Requests -/

theorem tok (k : TokenKind) :
    Builds ts hasModule? n (Parser.firstOf (Atom.attempts apply [Jay.tok k])) (.token k)
      fun w a => ∃ t : Token, t.Is k ∧ w = [t] ∧ a = .ofToken t :=
  (token k).restoring

theorem ref {name : String} (hp : Builds ts hasModule? n (apply name) e P) :
    Builds ts hasModule? n (Parser.firstOf (Atom.attempts apply [.rule name])) e P :=
  hp.restoring

theorem inline (kind : String) {script : Script}
    (hp : Builds ts hasModule? n (script.run apply) e (PassesOn P)) :
    Builds ts hasModule? n (Parser.firstOf (Atom.attempts apply [.inline kind script])) e P :=
  (hp.wrapped kind (fun h _ => h.elim) id).restoring

theorem expect {k : TokenKind} {next : Node → Script}
    (hnext : ∀ t : Token, t.Is k → ∀ m < n,
      Builds ts hasModule? m ((next (.ofToken t)).run apply) f fun v b => S (t :: v) b) :
    Builds ts hasModule? n ((Jay.expect k next).run apply) (.seq (.token k) f) S := by
  refine (tok k).one fun a w m ha _ hm => ?_
  obtain ⟨t, ht, rfl, rfl⟩ := ha
  exact hnext t ht m (hm rfl)

theorem call {r : Nonterminal} {next : Node → Script}
    (hp : Builds ts hasModule? n (apply r.name) (.rule r) (Spells r))
    (hnext : ∀ a w m, Spells r w a → m ≤ n →
      Builds ts hasModule? m ((next a).run apply) f fun v b => S (w ++ v) b) :
    Builds ts hasModule? n ((Script.one [.rule r.name] next).run apply) (.seq (.rule r) f) S :=
  (ref hp).one fun a w m ha hm _ => hnext a w m ha hm

theorem optToken {k : TokenKind} {next : Option Node → Script}
    (hnext : ∀ (x : Option Token) m, (∀ t ∈ x, t.Is k) → m ≤ n →
      Builds ts hasModule? m ((next (x.map .ofToken)).run apply) f fun v b => S (x.toList ++ v) b) :
    Builds ts hasModule? n ((Script.opt [Jay.tok k] next).run apply)
      (.seq (.opt (.token k)) f) S := by
  refine (tok k).opt fun x m hx hm => ?_
  cases x with
  | none => exact hnext none m nofun hm
  | some y =>
    obtain ⟨w, a⟩ := y
    obtain ⟨t, ht, rfl, rfl⟩ := hx (w, a) rfl
    exact hnext (some t) m (fun t' h => Option.some.inj h ▸ ht) hm

/-- A choice. -/
theorem choose {a b : Atom} {as : List Atom} (hp : Builds ts hasModule? n (a.attempt apply) e P)
    (hq : Builds ts hasModule? n (Parser.firstOf (Atom.attempts apply (b :: as))) f P) :
    Builds ts hasModule? n (Parser.firstOf (Atom.attempts apply (a :: b :: as))) (.alt e f) P :=
  hp.orElse hq

theorem lineEnd (x : Node) :
    Builds ts hasModule? n ((Script.unlessAt TokenKind.curlEnd.name
      (Jay.expect .newline fun _ => .node x) (.node x)).run apply) (.seq .lineEnd .empty)
      fun w r => (w = [] ∨ ∃ t : Token, t.Is .newline ∧ w = [t]) ∧ r = .node x := by
  have hrun : ∀ s : ParseState, (Script.unlessAt TokenKind.curlEnd.name
      (Jay.expect .newline fun _ => .node x) (.node x)).run apply ⟨.tokens ts, hasModule?⟩ s =
        (if (ts[s.cursor]?).any (·.kind == TokenKind.curlEnd.name) then Script.node x
          else Jay.expect .newline fun _ => .node x).run apply ⟨.tokens ts, hasModule?⟩ s :=
    fun _ => rfl
  have hnewline : Builds ts hasModule? n ((Jay.expect .newline fun _ => .node x).run apply)
      (.seq (.token .newline) .empty)
      fun w r => (w = [] ∨ ∃ t : Token, t.Is .newline ∧ w = [t]) ∧ r = .node x :=
    .expect fun t ht _ _ => .done ⟨.inr ⟨t, ht, rfl⟩, rfl⟩
  refine ⟨fun {s} hn => ?_⟩
  rw [hrun]
  split
  · next h =>
    obtain ⟨rest, hrest⟩ := List.head?_eq_some_iff.1 (ParseState.head?_kinds.2 h)
    refine .inl ⟨_, s, [], rfl, .refl rfl, ?_, ⟨.inl rfl, rfl⟩, .inl rfl⟩
    rw [hrest]
    exact .seq .atBrace .empty
  · refine (hnewline.ofPhrase fun hd => ?_).answers hn
    cases hd with
    | seq he hf =>
      cases he
      exact .seq .newline hf

end Builds

/-! ## Rules

A proof follows the requests of its script and ends with the tree of what they have taken.
-/

namespace Jay

variable {ts : List Token} {hasModule? : Option (String → Bool)} {n : Nat}
  {apply : String → Parser Node}

section Rules

variable (later : ∀ m < n, ∀ r ≠ .root,
  Builds ts hasModule? m (apply r.name) (.rule r) (Spells r))

theorem builds_param : Builds ts hasModule? n (param.run apply) Nonterminal.param.production
    (Built .param) := by
  refine .expect fun name hname _ _ => .expect fun type htype _ _ => .done ?_
  exact fun start hs => hs name rfl ▸ .param hname htype

theorem builds_basicExpression : Builds ts hasModule? n (basicExpression.run apply)
    Nonterminal.basicExpression.production (Built .basicExpression) := by
  have htok : ∀ k ∈ operandKinds, ∀ {w : List Token} {a : Node},
      (∃ t : Token, t.Is k ∧ w = [t] ∧ a = .ofToken t) → Spells .basicExpression w a := by
    rintro k hk w a ⟨t, ht, rfl, rfl⟩
    exact .basicExpression hk ht
  refine .last ?_ id
  exact .choose ((Builds.token .identifier).weaken (htok _ (by decide)))
    (.choose ((Builds.token .string).weaken (htok _ (by decide)))
      (.choose ((Builds.token .integer).weaken (htok _ (by decide)))
        ((Builds.tok .float).weaken (htok _ (by decide)))))

include later in
theorem builds_parenthesis : Builds ts hasModule? n (parenthesis.run apply)
    Nonterminal.parenthesis.production (Built .parenthesis) := by
  refine .expect fun opening ho m hm => ?_
  refine .call (later m hm .expression nofun) fun inner w m' hw _ => ?_
  exact .expect fun closing hc _ _ => .done (.parenthesis ho hw hc)

include later in
theorem builds_assignment : Builds ts hasModule? n (assignment.run apply)
    Nonterminal.assignment.production (Built .assignment) := by
  refine .expect fun target ht m hm => .expect fun sign hsign m' hm' => ?_
  refine .call (later m' (by omega) .expression nofun) fun value w _ hw _ => .done ?_
  rw [List.append_nil]
  exact fun start hs => hs target rfl ▸ .assignment ht hsign hw

include later in
theorem builds_variableDecl : Builds ts hasModule? n (variableDecl.run apply)
    Nonterminal.variableDecl.production (Built .variableDecl) := by
  refine .expect fun keyword hk m hm => .expect fun target ht m' hm' => ?_
  refine .optToken fun type m'' htype hm'' => ?_
  have hinit : Builds ts hasModule? m'' (initializer.run apply)
      (.all [.token .equals, .rule .expression])
      (PassesOn fun w a => LedBy .equals w ∧ Spells .expression w.tail a) := by
    refine .expect fun sign hsign k hk => ?_
    refine .call (later k (by omega) .expression nofun) fun value w _ hw _ => .done ?_
    rw [List.append_nil]
    exact ⟨⟨sign, rfl, hsign⟩, hw⟩
  refine .opt (.inline "initializer" hinit) fun value _ hvalue _ => .done fun start hs => ?_
  rw [List.append_nil]
  exact hs keyword rfl ▸ .variableDecl hk ht htype (fun x hx => (hvalue x hx).1)
    fun x hx => (hvalue x hx).2

include later in
theorem builds_functionDecl : Builds ts hasModule? n (functionDecl.run apply)
    Nonterminal.functionDecl.production (Built .functionDecl) := by
  refine .expect fun keyword hk m hm => .expect fun function hf m₁ hm₁ => ?_
  refine .expect fun opening ho m₂ hm₂ => ?_
  refine .opt (.ref (later m₂ (by omega) .params nofun)) fun params m₃ hparams hm₃ => ?_
  refine .expect fun closing hc m₄ hm₄ => .optToken fun returns m₅ hreturns hm₅ => ?_
  refine .call (later m₅ (by omega) .block nofun) fun body w _ hbody _ => .done fun start hs => ?_
  rw [List.append_nil]
  exact hs keyword rfl ▸ .functionDecl hk hf ho hparams hc hreturns hbody

include later in
theorem builds_block : Builds ts hasModule? n (block.run apply) Nonterminal.block.production
    (Built .block) := by
  refine .expect fun opening ho m hm => .optToken fun lineEnd m' hlineEnd hm' => ?_
  refine .many (.ref (later m' (by omega) .statement nofun)) fun statements _ hstatements _ => ?_
  refine .expect fun closing hc _ _ => .done fun start hs => ?_
  refine hs opening rfl ▸ .block ho ?_ hstatements hc
  cases lineEnd with
  | none => exact .inl rfl
  | some t => exact .inr ⟨t, hlineEnd t rfl, rfl⟩

theorem builds_list {r q : Nonterminal} {comma : Atom} {e : Phrase} (hq : r.item? = some q)
    (hfirst : Builds ts hasModule? n (apply q.name) (.rule q) (Spells q))
    (hothers : ∀ m ≤ n, Builds ts hasModule? m (Parser.firstOf (Atom.attempts apply [comma])) e
      fun w a => LedBy .comma w ∧ Spells q w.tail a) :
    Builds ts hasModule? n ((Script.one [.rule q.name] fun first => .any [comma] fun others =>
      .value (.list (first :: others))).run apply) (.all [.rule q, .many e]) (Built r) := by
  refine .call hfirst fun first w m hw hm => ?_
  refine .many (hothers m hm) fun others _ hxs _ => .done fun start hs => ?_
  rw [List.append_nil] at hs ⊢
  exact .list hq hw hs.of_append (fun x hx => (hxs x hx).1) fun x hx => (hxs x hx).2

include later in
theorem builds_params
    (hparam : Builds ts hasModule? n (apply Nonterminal.param.name) (.rule .param)
      (Spells .param)) :
    Builds ts hasModule? n (params.run apply) Nonterminal.params.production (Built .params) := by
  have hnext : ∀ m ≤ n, Builds ts hasModule? m (nextParam.run apply)
      (.all [.token .comma, .rule .param])
      (PassesOn fun w a => LedBy .comma w ∧ Spells .param w.tail a) := by
    intro m hm
    refine .expect fun comma hc k hk => ?_
    have hparam := (later k (by omega) .param nofun).labelled "parameter"
    refine .one hparam.restoring fun a w _ hw _ _ => .done ?_
    rw [List.append_nil]
    exact ⟨⟨comma, rfl, hc⟩, hw⟩
  exact builds_list rfl hparam fun m hm => .inline "parameter" (hnext m hm)

include later in
theorem builds_callArgs (hexpression : Builds ts hasModule? n (apply Nonterminal.expression.name)
    (.rule .expression) (Spells .expression)) :
    Builds ts hasModule? n (callArgs.run apply) Nonterminal.callArgs.production
      (Built .callArgs) := by
  have hnext : ∀ m ≤ n, Builds ts hasModule? m (nextArg.run apply)
      (.all [.token .comma, .rule .expression])
      (PassesOn fun w a => LedBy .comma w ∧ Spells .expression w.tail a) := by
    intro m hm
    refine .expect fun comma hc k hk => ?_
    refine .call (later k (by omega) .expression nofun) fun a w _ hw _ => .done ?_
    rw [List.append_nil]
    exact ⟨⟨comma, rfl, hc⟩, hw⟩
  exact builds_list rfl hexpression fun m hm => .inline "argument" (hnext m hm)

include later in
theorem builds_functionCall : Builds ts hasModule? n (functionCall.run apply)
    Nonterminal.functionCall.production (Built .functionCall) := by
  refine .expect fun first hf m hm => ?_
  have hmember : Builds ts hasModule? m (member.run apply)
      (.all [.token .dot, .token .identifier])
      (PassesOn fun w a => ∃ x : Token × Token, (x.1.Is .dot ∧ x.2.Is .identifier) ∧
        w = [x.1, x.2] ∧ a = .ofToken x.2) :=
    .expect fun dot hd _ _ => .expect fun name hname _ _ =>
      .done ⟨(dot, name), ⟨hd, hname⟩, rfl, rfl⟩
  refine .opt (.inline "member" hmember) fun member m₁ hmember hm₁ => ?_
  refine .expect fun opening ho m₂ hm₂ => ?_
  refine .opt (.ref (later m₂ (by omega) .callArgs nofun)) fun args _ hargs _ => ?_
  refine .expect fun closing hc _ _ => .done fun start hs => ?_
  cases member with
  | none =>
    have hnone : ∀ x ∈ (none : Option (Token × Token)), x.1.Is .dot ∧ x.2.Is .identifier := nofun
    exact hs first rfl ▸ .functionCall hf hnone ho hargs hc
  | some y =>
    obtain ⟨w, a⟩ := y
    obtain ⟨x, hx, rfl, rfl⟩ := hmember (w, a) rfl
    have hsome : ∀ z ∈ some x, z.1.Is .dot ∧ z.2.Is .identifier :=
      fun z hz => Option.some.inj hz ▸ hx
    exact hs first rfl ▸ .functionCall hf hsome ho hargs hc

theorem builds_declStatement
    (hfunctionDecl : Builds ts hasModule? n (apply Nonterminal.functionDecl.name)
      (.rule .functionDecl) (Spells .functionDecl))
    (hvariableDecl : Builds ts hasModule? n (apply Nonterminal.variableDecl.name)
      (.rule .variableDecl) (Spells .variableDecl)) :
    Builds ts hasModule? n (declStatement.run apply) Nonterminal.declStatement.production
      (Built .declStatement) := by
  have hchoice : Builds ts hasModule? n (Parser.firstOf (Atom.attempts apply
      [.named "declaration" (ref .functionDecl), .named "declaration" (ref .variableDecl)]))
      (.oneOf (.rule .functionDecl) [.rule .variableDecl])
      fun w a => ∃ q ∈ Nonterminal.declStatement.choices, Spells q w a :=
    .choose ((hfunctionDecl.labelled "declaration").weaken fun h => ⟨_, by decide, h⟩)
      ((hvariableDecl.labelled "declaration").restoring.weaken fun h => ⟨_, by decide, h⟩)
  refine .one hchoice fun a w m hw _ _ => .expect fun lineEnd hl _ _ => .done ?_
  obtain ⟨q, hq, hw⟩ := hw
  exact .declStatement hq hw hl

theorem builds_statement
    (below : ∀ q ∈ Nonterminal.statement.choices,
      Builds ts hasModule? n (apply q.name) (.rule q) (Spells q)) :
    Builds ts hasModule? n (statement.run apply) Nonterminal.statement.production
      (Built .statement) := by
  have halt : ∀ q ∈ Nonterminal.statement.choices, Builds ts hasModule? n (apply q.name) (.rule q)
      fun w a => ∃ q ∈ Nonterminal.statement.choices, Spells q w a :=
    fun q hq => (below q hq).weaken fun h => ⟨q, hq, h⟩
  have hchoice : Builds ts hasModule? n (Parser.firstOf (Atom.attempts apply
      [ref .variableDecl, ref .assignment, ref .functionCall, ref .block]))
      (.oneOf (.rule .variableDecl) [.rule .assignment, .rule .functionCall, .rule .block])
      fun w a => ∃ q ∈ Nonterminal.statement.choices, Spells q w a :=
    .choose (halt .variableDecl (by decide)) (.choose (halt .assignment (by decide))
      (.choose (halt .functionCall (by decide)) (.ref (halt .block (by decide)))))
  refine .one hchoice fun a w m hw _ _ => (Builds.lineEnd a).weaken fun {v r} h => ?_
  obtain ⟨q, hq, hw⟩ := hw
  obtain ⟨hv, rfl⟩ := h
  exact .statement hq hw hv

theorem builds_operator (r : Nonterminal) {k l : TokenKind} (hr : r.operators = [k, l]) :
    Builds ts hasModule? n (Parser.firstOf (Atom.attempts apply [tok k, tok l]))
      (.oneOf (.token k) [.token l]) fun w a =>
        ∃ sign : Token, (∃ o ∈ r.operators, sign.Is o) ∧ w = [sign] ∧ a = .ofToken sign := by
  have hweak : ∀ o ∈ r.operators, ∀ {w : List Token} {a : Node},
      (∃ t : Token, t.Is o ∧ w = [t] ∧ a = .ofToken t) →
        ∃ sign : Token, (∃ o ∈ r.operators, sign.Is o) ∧ w = [sign] ∧ a = .ofToken sign :=
    fun o ho _ _ ⟨t, ht, hw, ha⟩ => ⟨t, ⟨o, ho, ht⟩, hw, ha⟩
  exact .choose ((Builds.token k).weaken (hweak k (by simp [hr])))
    ((Builds.tok l).weaken (hweak l (by simp [hr])))

/-- An operand, or an operator between an operand and the rest. -/
theorem builds_binary {r : Nonterminal} {k l : TokenKind} {atoms : List Atom} {e : Phrase}
    (hr : r = .expression ∨ r = .product) (hops : r.operators = [k, l])
    (hfirst : Builds ts hasModule? n (Parser.firstOf (Atom.attempts apply atoms)) e
      fun w a => ∃ q ∈ r.choices, Spells q w a)
    (hrest : ∀ m < n, Builds ts hasModule? m (apply r.name) (.rule r) (Spells r)) :
    Builds ts hasModule? n ((Script.offset fun start => .one atoms fun lhs =>
      .opt [tok k, tok l] fun
        | none => .node lhs
        | some operator => .one [.rule r.name] fun rhs =>
          .node (binary start operator lhs rhs)).run apply)
      (.all [e, .opt (.all [.oneOf (.token k) [.token l], .rule r])]) (Built r) := by
  refine .offset fun start => .one hfirst fun lhs w m hw hm _ => ?_
  obtain ⟨q, hq, hw⟩ := hw
  refine .optThen (builds_operator r hops) (fun _ => .done fun _ => ?_)
    fun a v m' hv _ hlt => ?_
  · rw [List.append_nil]
    exact .operand hr hq hw
  · obtain ⟨sign, ⟨o, ho, hsign⟩, rfl, rfl⟩ := hv
    have hlt := hlt rfl
    refine .call (hrest m' (by omega)) fun rhs u _ hu _ => .done fun hs => ?_
    rw [List.append_nil] at hs ⊢
    exact .operator hq hw (hs.of_append) ho hsign hu

theorem builds_expression
    (hproduct : Builds ts hasModule? n (apply Nonterminal.product.name) (.rule .product)
      (Spells .product))
    (later : ∀ m < n, Builds ts hasModule? m (apply Nonterminal.expression.name)
      (.rule .expression) (Spells .expression)) :
    Builds ts hasModule? n (expression.run apply) Nonterminal.expression.production
      (Built .expression) := by
  have hfirst := (Builds.ref hproduct).weaken fun {w a} h =>
    (⟨_, List.mem_singleton_self _, h⟩ : ∃ q ∈ Nonterminal.expression.choices, Spells q w a)
  exact builds_binary (.inl rfl) rfl hfirst later

theorem builds_product
    (below : ∀ q ∈ Nonterminal.product.choices,
      Builds ts hasModule? n (apply q.name) (.rule q) (Spells q))
    (later : ∀ m < n, Builds ts hasModule? m (apply Nonterminal.product.name)
      (.rule .product) (Spells .product)) :
    Builds ts hasModule? n (product.run apply) Nonterminal.product.production
      (Built .product) := by
  have halt : ∀ q ∈ Nonterminal.product.choices, Builds ts hasModule? n (apply q.name) (.rule q)
      fun w a => ∃ q ∈ Nonterminal.product.choices, Spells q w a :=
    fun q hq => (below q hq).weaken fun h => ⟨q, hq, h⟩
  have hterm : Builds ts hasModule? n (Parser.firstOf (Atom.attempts apply
      [ref .parenthesis, ref .functionCall, ref .basicExpression])) .term
      fun w a => ∃ q ∈ Nonterminal.product.choices, Spells q w a :=
    .choose (halt .parenthesis (by decide)) (.choose (halt .functionCall (by decide))
      (.ref (halt .basicExpression (by decide))))
  exact builds_binary (.inr rfl) rfl hterm later

end Rules

/-! ## Directives -/

/-- What a directive takes before it asks for its module. -/
def directiveTokens : Script :=
  expect .importKeyword fun _ =>
  expect .string fun module =>
  expect .newline fun _ =>
  .node module

theorem run_importDirective (apply : String → Parser Node) (c : Setting) (s : ParseState) :
    importDirective.run apply c s = match (directiveTokens.run apply : Parser Parsed) c s with
      | (.ok (.node module), t) => (Script.importModule module.textD module.position
          (.value (.composite [("module", some module)]))).run apply c t
      | r => r := by
  simp only [importDirective, directiveTokens, expect, Script.run, Bind.bind]
  rcases Parser.firstOf (Atom.attempts apply [tok .importKeyword]) c s with ⟨_ | _, t⟩
  · rfl
  dsimp only
  rcases Parser.firstOf (Atom.attempts apply [tok .string]) c t with ⟨_ | _, u⟩
  · rfl
  dsimp only
  rcases Parser.firstOf (Atom.attempts apply [tok .newline]) c u with ⟨_ | _, v⟩ <;> rfl

theorem run_importModule (apply : String → Parser Node) (module : Node) (v : Value)
    (s : ParseState) :
    (Script.importModule module.textD module.position (.value v)).run apply
      ⟨.tokens ts, hasModule?⟩ s =
        if hasModule?.any (! · module.textD) then
          (.error (.backtrack ⟨.unlocatedModule module.textD, module.position⟩),
            s.note ⟨.unlocatedModule module.textD, module.position⟩)
        else (.ok (.value v), s.require ⟨module.textD, module.position⟩) := by
  have himport : Parser.importModule module.textD module.position ⟨.tokens ts, hasModule?⟩ s =
      if hasModule?.any (! · module.textD) then
        Parser.failAt (.unlocatedModule module.textD) module.position ⟨.tokens ts, hasModule?⟩ s
      else (.ok (), s.require ⟨module.textD, module.position⟩) := rfl
  by_cases h : hasModule?.any (! · module.textD) = true
  · rw [if_pos h] at himport ⊢
    simp only [Script.run, Bind.bind, himport]
    rfl
  · rw [if_neg h] at himport ⊢
    simp only [Script.run, Bind.bind, himport]
    rfl

theorem builds_directiveTokens : Builds ts hasModule? n (directiveTokens.run apply)
    Nonterminal.importDirective.production (PassesOn fun w a => ∃ keyword module lineEnd : Token,
      keyword.Is .importKeyword ∧ module.Is .string ∧ lineEnd.Is .newline ∧
        w = [keyword, module, lineEnd] ∧ a = .ofToken module) :=
  .expect fun _ hk _ _ => .expect fun _ hm _ _ => .expect fun _ hl _ _ =>
    .done ⟨_, _, _, hk, hm, hl, rfl, rfl⟩

theorem builds_importDirective : Builds ts hasModule? n (importDirective.run apply)
    Nonterminal.importDirective.production (Built .importDirective) := by
  refine ⟨fun {s} hn => ?_⟩
  rw [run_importDirective]
  rcases builds_directiveTokens.answers hn with ⟨a, t, w, hrun, hw, hd, ha, hk⟩ | ⟨err, t, hrun, h⟩
  · rw [hrun]
    cases a with
    | value v => exact ha.elim
    | node m =>
      obtain ⟨keyword, module, lineEnd, hkeyword, hmodule, hl, rfl, rfl⟩ := ha
      dsimp only
      rw [run_importModule]
      split
      · have hget : ts[s.cursor + 1]? = some module := by
          rw [← List.getElem?_drop, hw.tokens]
          rfl
        have hsees : s.Sees ts Nonterminal.importDirective.production
            ⟨.unlocatedModule module.textD, module.position⟩ := by
          have hts : [keyword, module, lineEnd] <:+: ts :=
            (List.prefix_append _ _).isInfix.trans (hw.tokens ▸ (List.drop_suffix ..).isInfix)
          refine ⟨[keyword], ⟨_, hw.tokens.symm⟩, ?_, ?_,
            .unlocatedModule hts hkeyword hmodule hl⟩
          · obtain ⟨v, hv⟩ := Phrase.opens_of_derives hd
            exact ⟨_, hv⟩
          · simp only [Input.offset, List.length_singleton, hget]
            rfl
        exact .inr ⟨_, _, rfl, hk.note hsees, ParseState.isSome_note ..⟩
      · have hcursor := t.cursor_require ⟨(Node.ofToken module).textD, module.position⟩
        refine .inl ⟨_, _, _, rfl, hw.congr hcursor, ?_, ?_, ?_⟩
        · exact ParseState.kinds_congr hcursor ▸ hd
        · exact fun start hs => hs keyword rfl ▸ .importDirective hkeyword hmodule hl
        · unfold ParseState.Keeps
          rw [ParseState.furthest_require]
          exact hk
  · rw [hrun]
    exact .inr ⟨err, t, rfl, h⟩

/-! ## Modules -/

/-- One level of a rule: what it asks for right away has a smaller rank. -/
theorem builds_script {r : Nonterminal} (hr : r ≠ .root)
    (later : ∀ m < n, ∀ q ≠ .root, Builds ts hasModule? m (apply q.name) (.rule q) (Spells q))
    (below : ∀ q ≠ .root, q.rank < r.rank →
      Builds ts hasModule? n (apply q.name) (.rule q) (Spells q)) :
    Builds ts hasModule? n (r.script.run apply) r.production (Built r) := by
  have hchoices : ∀ q ∈ r.choices, q ≠ .root ∧ q.rank < r.rank := by
    cases r <;> decide
  have hbelow : ∀ q ∈ r.choices, Builds ts hasModule? n (apply q.name) (.rule q) (Spells q) :=
    fun q hq => below q (hchoices q hq).1 (hchoices q hq).2
  cases r with
  | root => cases hr rfl
  | importDirective => exact builds_importDirective
  | declStatement =>
    exact builds_declStatement (hbelow .functionDecl (by decide)) (hbelow .variableDecl (by decide))
  | statement => exact builds_statement hbelow
  | variableDecl => exact builds_variableDecl later
  | functionDecl => exact builds_functionDecl later
  | params => exact builds_params later (below .param nofun (by decide))
  | param => exact builds_param
  | block => exact builds_block later
  | assignment => exact builds_assignment later
  | functionCall => exact builds_functionCall later
  | callArgs => exact builds_callArgs later (below .expression nofun (by decide))
  | expression =>
    exact builds_expression (hbelow .product (by decide)) fun m hm => later m hm .expression nofun
  | product => exact builds_product hbelow fun m hm => later m hm .product nofun
  | parenthesis => exact builds_parenthesis later
  | basicExpression => exact builds_basicExpression

theorem Built.wrapped {r : Nonterminal} {p : Parser Parsed} {e : Phrase}
    (hp : Builds ts hasModule? n p e (Built r)) :
    Builds ts hasModule? n (Parser.wrapped r.name p) e (Spells r) :=
  Builds.wrapped r.name hp (fun h hs => h _ hs) id

/-- With fuel for all ranks at each token that is left, a rule builds its tree. -/
theorem builds_rule {fuel : Nat} {r : Nonterminal} (hr : r ≠ .root)
    (hfuel : 4 * n + r.rank ≤ fuel) :
    Builds ts hasModule? n (grammar.applyWithin fuel r.name) (.rule r) (Spells r) := by
  induction fuel generalizing n r with
  | zero =>
    have := r.one_le_rank
    omega
  | succ fuel ih =>
    have later : ∀ m < n, ∀ q ≠ .root,
        Builds ts hasModule? m (grammar.applyWithin fuel q.name) (.rule q) (Spells q) := by
      intro m hm q hq
      have := q.rank_le
      have := r.one_le_rank
      exact ih hq (by omega)
    have below : ∀ q ≠ .root, q.rank < r.rank →
        Builds ts hasModule? n (grammar.applyWithin fuel q.name) (.rule q) (Spells q) := by
      intro q hq hlt
      exact ih hq (by omega)
    rw [applyWithin_name]
    exact (Built.wrapped (builds_script hr later below)).rule

/-- The trees of the directives and declarations of a module. -/
def Contents (w : List Token) (r : Parsed) : Prop :=
  ∃ imports declarations : List (List Token × Node),
    (∀ x ∈ imports, Spells .importDirective x.1 x.2) ∧
    (∀ x ∈ declarations, Spells .declStatement x.1 x.2) ∧
    w = imports.flatMap (·.1) ++ declarations.flatMap (·.1) ∧
    r = .value (.list (imports.map (·.2) ++ declarations.map (·.2)))

section Modules

variable (rules : ∀ m ≤ n, ∀ r ≠ .root,
  Builds ts hasModule? m (apply r.name) (.rule r) (Spells r))

include rules

theorem builds_contents :
    Builds ts hasModule? n (contents.run apply) contentsPhrase Contents := by
  have hdirective := rules n (Nat.le_refl n) .importDirective nofun
  refine .many (.ref hdirective) fun imports m himports hm => ?_
  have hdeclaration := rules m hm .declStatement nofun
  refine .many (.ref hdeclaration) fun declarations _ hdeclarations _ => .done ?_
  rw [List.append_nil]
  exact ⟨imports, declarations, himports, hdeclarations, rfl, rfl⟩

theorem builds_root :
    Builds ts hasModule? n (root.run apply) Nonterminal.root.production (Built .root) := by
  refine .optToken fun first m hfirst hm => ?_
  refine (builds_contents fun m' hm' => rules m' (by omega)).weaken fun {w r} h => ?_
  obtain ⟨imports, declarations, himports, hdeclarations, rfl, rfl⟩ := h
  refine fun start hs => .root ?_ himports hdeclarations
  cases first with
  | none => exact .inl rfl
  | some t => exact .inr ⟨t, hfirst t rfl, rfl⟩

end Modules

abbrev rootRules (ts : List Token) : String → Parser Node :=
  grammar.applyWithin (16 * ts.length + 15)

theorem apply_root_eq (ts : List Token) (hasModule? : Option (String → Bool)) :
    grammar.apply grammar.root ⟨.tokens ts, hasModule?⟩ =
      Parser.wrapped Nonterminal.root.name (root.run (rootRules ts)) ⟨.tokens ts, hasModule?⟩ :=
  congrFun (applyWithin_name (16 * ts.length + 15) .root) _

/-- A parse is a run of the root from the start, which has to come to the end of the tokens. -/
theorem parse_eq (ts : List Token) (hasModule? : Option (String → Bool)) :
    parse hasModule? ts =
      match Parser.wrapped Nonterminal.root.name (root.run (rootRules ts))
        ⟨.tokens ts, hasModule?⟩ {} with
      | (.ok tree, s) =>
        if (Input.tokens ts).isEnd s.cursor then .ok ⟨tree, s.imports⟩
        else .error (s.furthest.getD ⟨.unparsedRest, (Input.tokens ts).offset s.cursor⟩).fault
      | (.error (.backtrack e), s) => .error (s.furthest.getD e).fault
      | (.error (.fatal f), _) => .error f := by
  have hvalid : grammar.validate = .ok () := rfl
  have hrule : grammar.rule grammar.root = Parser.restoring (grammar.apply grammar.root) := rfl
  rw [parse, Grammar.parse, hvalid, hrule, Parser.restoring, apply_root_eq]
  rcases Parser.wrapped Nonterminal.root.name (root.run (rootRules ts)) ⟨.tokens ts, hasModule?⟩ {}
    with ⟨(e | f) | tree, s⟩ <;> rfl

theorem builds_within (ts : List Token) (hasModule? : Option (String → Bool)) :
    ∀ m ≤ ts.length, ∀ r ≠ .root,
      Builds ts hasModule? m (rootRules ts r.name) (.rule r) (Spells r) := by
  intro m hm r hr
  have := r.rank_le
  exact builds_rule hr (by omega)

abbrev firstBreak (ts : List Token) : Parser Node :=
  Parser.firstOf (Atom.attempts (rootRules ts) [tok .newline])

abbrev directive (ts : List Token) : Parser Node :=
  Parser.firstOf (Atom.attempts (rootRules ts) [ref .importDirective])

theorem builds_directive (ts : List Token) (hasModule? : Option (String → Bool)) :
    Builds ts hasModule? ts.length (directive ts) (.rule .importDirective)
      (Spells .importDirective) :=
  .ref (builds_within ts hasModule? _ (Nat.le_refl _) .importDirective nofun)

abbrev declaration (ts : List Token) : Parser Node :=
  Parser.firstOf (Atom.attempts (rootRules ts) [ref .declStatement])

theorem builds_declaration (ts : List Token) (hasModule? : Option (String → Bool)) :
    Builds ts hasModule? ts.length (declaration ts) (.rule .declStatement)
      (Spells .declStatement) :=
  .ref (builds_within ts hasModule? _ (Nat.le_refl _) .declStatement nofun)

/-- What a parse comes to: the root takes some tokens and makes a tree of them, or it fails at a
token up to which there is a beginning of a module. -/
theorem builds_module (ts : List Token) (hasModule? : Option (String → Bool)) :
    Builds ts hasModule? ts.length (Parser.wrapped Nonterminal.root.name (root.run (rootRules ts)))
      (.rule .root) (Spells .root) :=
  (Built.wrapped (builds_root (builds_within ts hasModule?))).rule

theorem builds_apply (ts : List Token) (hasModule? : Option (String → Bool)) (r : Nonterminal) :
    Builds ts hasModule? ts.length (grammar.applyWithin (grammar.depth (.tokens ts)) r.name)
      (.rule r) (Spells r) := by
  by_cases hr : r = .root
  · have hdepth : grammar.depth (.tokens ts) = 16 * ts.length + 15 + 1 := rfl
    rw [hr, hdepth, applyWithin_name]
    exact builds_module ts hasModule?
  · have hdepth : grammar.depth (.tokens ts) = 16 * (ts.length + 1) := rfl
    have := r.rank_le
    exact builds_rule hr (by omega)

end Jay

end JayFrontEnd
