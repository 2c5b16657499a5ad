import JayFrontEnd.Proofs.Analysis.Replay

/-!
# The analysis follows the events of the tree

Expressions, statements and whole modules replay their events: `run_eq_ok` says that the analysis
of a tree succeeds with the analyzer that follows the tree's events to the end. An expression only
notes uses, so its type hangs on no more than the types of the variables seen before it.
-/

namespace JayFrontEnd

open Analysis

/-- Induction over expressions, calls and lists of arguments, as the analysis takes them apart. -/
theorem Node.expression_induction {E C : Node → Prop} {A : List Node → Prop}
    (operator : ∀ n tag, NodeTag.ofName? n.kind = some tag → tag.isOperator = true →
      (∀ l, n.field? "lhs" = some l → E l) → (∀ r, n.field? "rhs" = some r → E r) → E n)
    (call : ∀ n, NodeTag.ofName? n.kind = some .functionCall → C n → E n)
    (other : ∀ n tag, NodeTag.ofName? n.kind = some tag → tag.isOperator = false →
      tag ≠ .functionCall → E n)
    (leaf : ∀ n, NodeTag.ofName? n.kind = none → E n)
    (args : ∀ n, (∀ args, n.field? "args" = some args → A args.items) → C n)
    (nil : A []) (cons : ∀ n ns, E n → A ns → A (n :: ns)) :
    (∀ n, E n) ∧ (∀ n, C n) ∧ ∀ ns, A ns := by
  refine infer.mutual_induct E C A ?_ ?_ ?_ ?_ call ?_ ?_ ?_ ?_ args nil cons
  case refine_5 =>
    intro n tag h1 h2 h3 h4 h5 ht
    refine other n tag ht ?_ h5
    cases tag <;> first | rfl | exact absurd rfl ‹_›
  case refine_6 => exact fun n h _ => leaf n h
  case refine_7 => exact fun n h _ _ _ => leaf n h
  case refine_8 => exact fun n h _ => leaf n h
  all_goals exact fun n ht hl hr => operator n _ ht rfl hl hr

/-- Induction over statements and lists of them, as the analysis takes them apart. -/
theorem Node.statement_induction {S : Node → Prop} {A : List Node → Prop}
    (variableDecl : ∀ n, NodeTag.ofName? n.kind = some .variableDecl → S n)
    (functionDecl : ∀ n, NodeTag.ofName? n.kind = some .functionDecl →
      (∀ body, n.field? "body" = some body → A body.items) → S n)
    (assignment : ∀ n, NodeTag.ofName? n.kind = some .assignment → S n)
    (call : ∀ n, NodeTag.ofName? n.kind = some .functionCall → S n)
    (block : ∀ n, NodeTag.ofName? n.kind = some .block → A n.items → S n)
    (other : ∀ n, (∀ tag ∈ NodeTag.ofName? n.kind,
      tag ∉ [.variableDecl, .functionDecl, .assignment, .functionCall, .block]) → S n)
    (nil : A []) (cons : ∀ n ns, S n → A ns → A (n :: ns)) : (∀ n, S n) ∧ ∀ ns, A ns := by
  refine statement.mutual_induct S A variableDecl functionDecl assignment call block ?_ nil cons
  intro n hvariable hfunction hassignment hcall hblock
  refine other n fun tag ht => ?_
  cases tag <;> first | decide | exact absurd ht ‹_›

/-! ## Expressions -/

def Event.isUse : Event → Bool
  | use _ | useRemote _ _ | refuse _ => true
  | _ => false

theorem Event.mem_whenOk {α : Type} {x : Except Fault α} {es : α → List Event} {e : Event}
    (h : e ∈ whenOk x es) : (∃ y, x = .ok y ∧ e ∈ es y) ∨ e.isUse = true := by
  cases x with
  | ok y => exact .inl ⟨y, rfl, h⟩
  | error fault => exact .inr (List.mem_singleton.1 h ▸ rfl)

section equations

variable {n : Node} {tag : NodeTag}

theorem infer_operator (ht : NodeTag.ofName? n.kind = some tag) (hop : tag.isOperator = true) :
    infer n = (do
      let l ← n.require "lhs"
      let x ← infer l.1
      let r ← n.require "rhs"
      let y ← infer r.1
      pure (operatorType x y)) := by
  rw [infer, ht]
  cases tag <;> first | rfl | cases hop

theorem infer_other (ht : NodeTag.ofName? n.kind = some tag) (hop : tag.isOperator = false)
    (hc : tag ≠ .functionCall) : infer n = pure none := by
  rw [infer, ht]
  cases tag <;> first | rfl | exact absurd rfl hc | cases hop

theorem infer_leaf (ht : NodeTag.ofName? n.kind = none) :
    infer n =
      if TokenKind.ofName? n.kind = some .identifier then do
        expectLocal n
        let a ← get
        pure (a.variableType? n.textD)
      else pure ((TokenKind.ofName? n.kind).bind PrimitiveType.ofLiteral?) := by
  rw [infer, ht]
  cases hk : TokenKind.ofName? n.kind with
  | none => rfl
  | some k => cases k <;> rfl

theorem functionCall_eq (n : Node) :
    functionCall n = (do
      let name ← n.require "name"
      (n.field? "module").elim (expectLocal name.1) (expectRemote · name.1)
      inferAll n.arguments) := by
  rw [functionCall, Node.arguments]
  refine bind_congr fun ⟨name, _⟩ => ?_
  cases n.field? "module" <;> refine bind_congr fun _ => ?_
  all_goals
    split
    · next args hargs => rw [hargs]; rfl
    · next hargs => rw [hargs, Option.map_none, Option.getD_none, inferAll]

theorem Node.typeIn_operator (known : String → Option PrimitiveType)
    (ht : NodeTag.ofName? n.kind = some tag) (hop : tag.isOperator = true) :
    n.typeIn known = operatorType ((n.field? "lhs").bind (·.typeIn known))
      ((n.field? "rhs").bind (·.typeIn known)) := by
  rw [typeIn, ht]
  simp only [hop, if_true]
  split
  · next l r hl hr => simp only [hl, hr, Option.bind_some]
  · next h =>
    cases hl : n.field? "lhs" with
    | none => rfl
    | some l =>
      cases hr : n.field? "rhs" with
      | none => simp only [Option.bind_some, Option.bind_none]; cases l.typeIn known <;> rfl
      | some r => exact (h l r hl hr).elim

theorem Node.typeIn_tagged (known : String → Option PrimitiveType)
    (ht : NodeTag.ofName? n.kind = some tag) (hop : tag.isOperator = false) :
    n.typeIn known = none := by
  rw [typeIn, ht]
  simp only [hop, Bool.false_eq_true, if_false]

theorem Node.typeIn_leaf (known : String → Option PrimitiveType)
    (ht : NodeTag.ofName? n.kind = none) :
    n.typeIn known = if TokenKind.ofName? n.kind = some .identifier then known n.textD
      else (TokenKind.ofName? n.kind).bind PrimitiveType.ofLiteral? := by
  rw [typeIn, ht]
  cases hk : TokenKind.ofName? n.kind with
  | none => rfl
  | some k => cases k <;> rfl

theorem Event.ofExpression_operator (ht : NodeTag.ofName? n.kind = some tag)
    (hop : tag.isOperator = true) :
    ofExpression n = whenOk (n.require "lhs") fun l => ofExpression l.1 ++
      whenOk (n.require "rhs") fun r => ofExpression r.1 := by
  rw [ofExpression, ht]
  simp only [hop, if_true]

theorem Event.ofExpression_call (ht : NodeTag.ofName? n.kind = some .functionCall) :
    ofExpression n = ofCall n := by
  rw [ofExpression, ht]
  rfl

theorem Event.ofExpression_other (ht : NodeTag.ofName? n.kind = some tag)
    (hop : tag.isOperator = false) (hc : tag ≠ .functionCall) : ofExpression n = [] := by
  rw [ofExpression, ht]
  simp only [hop, Bool.false_eq_true, if_false, hc]

theorem Event.ofExpression_leaf (ht : NodeTag.ofName? n.kind = none) :
    ofExpression n =
      if TokenKind.ofName? n.kind = some .identifier then [.use n] else [] := by
  rw [ofExpression, ht]

end equations

theorem Event.isUse_of_mem :
    (∀ n, ∀ e ∈ ofExpression n, e.isUse = true) ∧ (∀ n, ∀ e ∈ ofCall n, e.isUse = true) ∧
      ∀ ns, ∀ e ∈ ofExpressions ns, e.isUse = true := by
  refine Node.expression_induction ?_ ?_ ?_ ?_ ?_ ?_ ?_
  · intro n tag ht hop ihl ihr e he
    rw [ofExpression_operator ht hop] at he
    obtain ⟨⟨l, hl⟩, -, he⟩ | he := mem_whenOk he
    · rcases List.mem_append.1 he with he | he
      · exact ihl l hl e he
      · obtain ⟨⟨r, hr⟩, -, he⟩ | he := mem_whenOk he
        · exact ihr r hr e he
        · exact he
    · exact he
  · intro n ht ih e he
    exact ih e (ofExpression_call ht ▸ he)
  · intro n tag ht hop hc e he
    rw [ofExpression_other ht hop hc] at he
    cases he
  · intro n ht e he
    rw [ofExpression_leaf ht] at he
    split at he
    · rw [List.mem_singleton.1 he]; rfl
    · cases he
  · intro n ih e he
    rw [ofCall] at he
    obtain ⟨name, -, he⟩ | he := mem_whenOk he
    · rcases List.mem_cons.1 he with rfl | he
      · cases n.field? "module" <;> rfl
      · unfold Node.arguments at he
        cases hf : n.field? "args" with
        | none =>
          rw [hf, Option.map_none, Option.getD_none, ofExpressions] at he
          cases he
        | some args => exact ih args hf e (by rwa [hf] at he)
    · exact he
  · intro e he
    rw [ofExpressions] at he
    cases he
  · intro n ns ihn ihs e he
    rw [ofExpressions] at he
    rcases List.mem_append.1 he with he | he
    · exact ihn e he
    · exact ihs e he

namespace Analyzer

variable {a b : Analyzer}

theorem sameDeclarations_of_follow_uses {es : List Event} (hes : ∀ e ∈ es, e.isUse = true)
    (h : a.follow es = .ok b) :
    ScopeTree.SameDeclarations a.scopes b.scopes ∧ b.current = a.current := by
  induction es generalizing a with
  | nil => cases h; exact ⟨.refl _, rfl⟩
  | cons e es ih =>
    obtain ⟨c, hc, h⟩ := follow_cons_eq_ok h
    obtain ⟨hs, hcur⟩ := ih (fun e he => hes e (List.mem_cons_of_mem _ he)) h
    have hstep : ScopeTree.SameDeclarations a.scopes c.scopes ∧ c.current = a.current := by
      have hu := hes e (List.mem_cons_self ..)
      cases e with
      | use n => cases hc; exact ⟨.addLocalRef .., rfl⟩
      | useRemote module n => cases hc; exact ⟨.addRemoteRef .., rfl⟩
      | refuse fault => cases hc
      | _ => cases hu
    exact ⟨hstep.1.trans hs, hcur.trans hstep.2⟩

theorem visible?_of_sameDeclarations (hs : ScopeTree.SameDeclarations a.scopes b.scopes)
    (hc : b.current = a.current) (name : String) : b.visible? name = a.visible? name := by
  simp only [visible?, hc, hs.lookup?, ScopeTree.symbol?, hs.symbols]

theorem variableType?_of_follow_uses {es : List Event} (hes : ∀ e ∈ es, e.isUse = true)
    (h : a.follow es = .ok b) : b.variableType? = a.variableType? := by
  obtain ⟨hs, hc⟩ := sameDeclarations_of_follow_uses hes h
  funext name
  simp only [variableType?, visible?_of_sameDeclarations hs hc]

end Analyzer

/-! ## Replaying the events -/

namespace Analysis

theorem replays_expression :
    (∀ n, Replays (infer n) (Event.ofExpression n) fun b => n.typeIn b.variableType?) ∧
      (∀ n, Replays (functionCall n) (Event.ofCall n) fun _ => ()) ∧
      ∀ ns, Replays (inferAll ns) (Event.ofExpressions ns) fun _ => () := by
  refine Node.expression_induction ?_ ?_ ?_ ?_ ?_ ?_ ?_
  · intro n tag ht hop ihl ihr
    rw [infer_operator ht hop, Event.ofExpression_operator ht hop]
    refine .whenOk fun ⟨l, hl⟩ _ => ?_
    have hrhs : ∀ x, Replays (do
        let r ← n.require "rhs"
        let y ← infer r.1
        pure (operatorType x y))
        (Event.whenOk (n.require "rhs") fun r => Event.ofExpression r.1)
        fun b => operatorType x ((n.field? "rhs").bind (·.typeIn b.variableType?)) := fun x =>
      .whenOk fun ⟨r, hr⟩ _ => by
        simp only [hr, Option.bind_some]
        exact (ihr r hr).map (operatorType x)
    have huses : ∀ e ∈ Event.whenOk (n.require "rhs") fun r => Event.ofExpression r.1,
        e.isUse = true := fun e he => by
      obtain ⟨r, -, he⟩ | he := Event.mem_whenOk he
      · exact Event.isUse_of_mem.1 _ e he
      · exact he
    have := (ihl l hl).bind hrhs fun h => by
      simp only [Analyzer.variableType?_of_follow_uses huses h]
    simpa only [Node.typeIn_operator _ ht hop, hl, Option.bind_some] using this
  · intro n ht ih
    rw [infer, ht, Event.ofExpression_call ht]
    simp only [Node.typeIn_tagged _ ht rfl]
    exact ih.map fun _ => none
  · intro n tag ht hop hc
    rw [infer_other ht hop hc, Event.ofExpression_other ht hop hc]
    simp only [Node.typeIn_tagged _ ht hop]
    exact .pure none
  · intro n ht
    rw [infer_leaf ht, Event.ofExpression_leaf ht]
    simp only [Node.typeIn_leaf _ ht]
    split
    · have hget : Replays (do
          let a ← get
          pure (a.variableType? n.textD)) [] fun b => b.variableType? n.textD :=
        ⟨fun _ => rfl, fun _ h => by cases h; rfl⟩
      exact (Replays.expectLocal n).andThen hget
    · exact .pure _
  · intro n ih
    rw [functionCall_eq, Event.ofCall]
    refine .whenOk fun name _ => ?_
    have hargs : Replays (inferAll n.arguments) (Event.ofExpressions n.arguments) fun _ => () := by
      unfold Node.arguments
      cases hf : n.field? "args" with
      | none =>
        rw [Option.map_none, Option.getD_none, inferAll, Event.ofExpressions]
        exact .pure ()
      | some args => exact ih args hf
    cases n.field? "module" with
    | none => exact (Replays.expectLocal name.1).andThen hargs
    | some module => exact (Replays.expectRemote module name.1).andThen hargs
  · rw [inferAll, Event.ofExpressions]
    exact .pure ()
  · intro n ns ihn ihs
    rw [inferAll, Event.ofExpressions]
    exact ihn.andThen ihs

theorem replays_value (name value : Node) :
    Replays (do assign name (← infer value) value) (Event.ofValue name value) fun _ => () :=
  (replays_expression.1 value).thenEvent (fun b => outcome_attempt _ b) fun h => by
    obtain rfl | ⟨_, _, _, -, -, -, rfl⟩ := Analyzer.assign_eq_ok h <;> rfl

theorem declaredType?_eq (n : Option Node) :
    (declaredType? n : Analysis _) = liftM (Event.declaredType? n) := by
  cases n with
  | none => rfl
  | some n =>
    show some <$> (liftM (Analyzer.resolveType n.textD n.position) : Analysis _) =
      liftM (some <$> Analyzer.resolveType n.textD n.position)
    cases Analyzer.resolveType n.textD n.position <;> rfl

theorem params_eq (ps : List Node) : params ps = liftM (Event.params ps) := by
  induction ps with
  | nil => rfl
  | cons p ps ih =>
    simp only [params, Event.params, lift_bind, ih]
    rfl

theorem replays_variableDecl (n : Node) :
    Replays (variableDecl n) (Event.ofVariableDecl n) fun _ => () := by
  unfold variableDecl Event.ofVariableDecl
  refine .whenOk fun ⟨name, _⟩ _ => ?_
  rw [declaredType?_eq]
  refine .whenOk fun type _ => (Replays.register name (.variable type)).andThen ?_
  cases n.field? "value" with
  | none => exact .pure ()
  | some value => exact replays_value name value

theorem replays_assignment (n : Node) :
    Replays (assignment n) (Event.ofAssignment n) fun _ => () := by
  unfold assignment Event.ofAssignment
  refine .whenOk fun ⟨name, _⟩ _ => .whenOk fun ⟨value, _⟩ _ => ?_
  exact (Replays.expectLocal name).andThen (replays_value name value)

section equations

variable {n : Node}

theorem statement_functionDecl (ht : NodeTag.ofName? n.kind = some .functionDecl) :
    statement n = (do
      let name ← n.require "name"
      let body ← n.require "body"
      let params ← params (((n.field? "params").map (·.items)).getD [])
      let returns ← declaredType? (n.field? "returns")
      register name.1 (.function (params.map (·.2)) returns)
      inScope name.1.textD .function do
        params.forM fun x => register x.1 (.variable (some x.2))
        statements body.1.items) := by
  rw [statement, ht]

theorem ofStatement_functionDecl (ht : NodeTag.ofName? n.kind = some .functionDecl) :
    Event.ofStatement n =
      Event.whenOk (n.require "name") fun name =>
      Event.whenOk (n.require "body") fun body =>
      Event.whenOk (Event.params (((n.field? "params").map (·.items)).getD [])) fun params =>
      Event.whenOk (Event.declaredType? (n.field? "returns")) fun returns =>
        .declare name.1 (.function (params.map (·.2)) returns) ::
          (.enter name.1.textD .function ::
            (params.map (fun x => .declare x.1 (.variable (some x.2))) ++
              Event.ofStatements body.1.items) ++ [.leave]) := by
  rw [Event.ofStatement, ht]

end equations

theorem replays_functionDecl {n : Node} (ht : NodeTag.ofName? n.kind = some .functionDecl)
    (ih : ∀ body, n.field? "body" = some body →
      Replays (statements body.items) (Event.ofStatements body.items) fun _ => ()) :
    Replays (statement n) (Event.ofStatement n) fun _ => () := by
  rw [statement_functionDecl ht, ofStatement_functionDecl ht, params_eq, declaredType?_eq]
  refine .whenOk fun name _ => .whenOk fun body _ => .whenOk fun params _ =>
    .whenOk fun returns _ => ?_
  have hparams := Replays.forM (fun x : Node × PrimitiveType =>
    Replays.register x.1 (.variable (some x.2))) params
  exact (Replays.register name.1 _).andThen (.inScope (hparams.andThen (ih body.1 body.2)))

theorem replays_statement :
    (∀ n, Replays (statement n) (Event.ofStatement n) fun _ => ()) ∧
      ∀ ns, Replays (statements ns) (Event.ofStatements ns) fun _ => () := by
  refine Node.statement_induction ?_ ?_ ?_ ?_ ?_ ?_ ?_ ?_
  · intro n ht
    rw [statement, Event.ofStatement, ht]
    exact replays_variableDecl n
  · intro n ht ih
    exact replays_functionDecl ht ih
  · intro n ht
    rw [statement, Event.ofStatement, ht]
    exact replays_assignment n
  · intro n ht
    rw [statement, Event.ofStatement, ht]
    exact replays_expression.2.1 n
  · intro n ht ih
    rw [statement, Event.ofStatement, ht]
    exact .inScope ih
  · intro n hother
    rw [statement, Event.ofStatement]
    cases ht : NodeTag.ofName? n.kind with
    | none => exact .pure ()
    | some tag =>
      have := hother tag ht
      cases tag <;> first | exact .pure () | exact absurd (by decide) this
  · rw [statements, Event.ofStatements]
    exact .pure ()
  · intro n ns ihn ihs
    rw [statements, Event.ofStatements]
    exact ihn.andThen ihs

end Analysis

/-- An analysis that succeeds leaves the analyzer that follows the events of the tree. -/
theorem Analyzer.run_eq_ok {a b : Analyzer} {tree : Node} (ha : a.WellFormed) :
    a.run tree = (.ok (), b) ↔ a.follow tree.events = .ok b := by
  have h := (Analysis.replays_statement.2 tree.items).outcome_eq ha
  unfold Analysis.outcome at h
  unfold run Node.events
  cases hm : Analysis.statements tree.items a with
  | mk answer c =>
    cases answer with
    | ok u =>
      cases hf : a.follow (Event.ofStatements tree.items) with
      | error fault => simp only [hm, hf, Except.map] at h; cases h
      | ok d =>
        simp only [hm, hf, Except.map] at h
        cases h
        constructor <;> rintro ⟨⟩ <;> rfl
    | error fault =>
      cases hf : a.follow (Event.ofStatements tree.items) with
      | error fault => constructor <;> rintro ⟨⟩
      | ok d => simp only [hm, hf, Except.map] at h; cases h

/-! ## Statements inside others -/

/-- The statements in the body of a function or in a block. -/
def Node.innerStatements (n : Node) : List Node :=
  match NodeTag.ofName? n.kind with
  | some .functionDecl => ((n.field? "body").map (·.items)).getD []
  | some .block => n.items
  | _ => []

inductive Node.IsAmong (stmt : Node) : List Node → Prop where
  | here {ns : List Node} : stmt.IsAmong (stmt :: ns)
  | later {n : Node} {ns : List Node} : stmt.IsAmong ns → stmt.IsAmong (n :: ns)
  | inner {n : Node} {ns : List Node} : stmt.IsAmong n.innerStatements → stmt.IsAmong (n :: ns)

namespace Analyzer

variable {a b c : Analyzer}

theorem follow_whenOk_eq_ok {α : Type} {x : Except Fault α} {es : α → List Event}
    (h : a.follow (Event.whenOk x es) = .ok b) : ∃ y, x = .ok y ∧ a.follow (es y) = .ok b := by
  cases x with
  | ok y => exact ⟨y, rfl, h⟩
  | error fault => cases h

/-- The events of a statement go through those of the statements in it. -/
theorem ofStatement_inner {n : Node} (h : a.follow (Event.ofStatement n) = .ok b) :
    n.innerStatements = [] ∨ ∃ before after,
      Event.ofStatement n = before ++ (Event.ofStatements n.innerStatements ++ after) := by
  unfold Node.innerStatements
  split
  · next ht =>
    rw [Analysis.ofStatement_functionDecl ht] at h ⊢
    obtain ⟨name, hname, h⟩ := follow_whenOk_eq_ok h
    obtain ⟨⟨body, hfield⟩, hbody, h⟩ := follow_whenOk_eq_ok h
    obtain ⟨params, hparams, h⟩ := follow_whenOk_eq_ok h
    obtain ⟨returns, hreturns, h⟩ := follow_whenOk_eq_ok h
    have hitems : ((n.field? "body").map (·.items)).getD [] = body.items := by
      rw [hfield, Option.map_some, Option.getD_some]
    rw [hname, hbody, hparams, hreturns, hitems]
    refine .inr ⟨.declare name.1 (.function (params.map (·.2)) returns) ::
      .enter name.1.textD .function ::
        params.map (fun x => .declare x.1 (.variable (some x.2))), [.leave], ?_⟩
    simp [Event.whenOk]
  · next ht =>
    rw [Event.ofStatement, ht]
    exact .inr ⟨[.enter "block" .block], [.leave], rfl⟩
  · exact .inl rfl

theorem ofStatements_of_isAmong {stmt : Node} {ns : List Node} (hs : stmt.IsAmong ns)
    (h : a.follow (Event.ofStatements ns) = .ok b) :
    ∃ before after, Event.ofStatements ns = before ++ (Event.ofStatement stmt ++ after) := by
  induction hs generalizing a b with
  | @here ns => exact ⟨[], Event.ofStatements ns, by rw [Event.ofStatements]; rfl⟩
  | @later n ns _ ih =>
    rw [Event.ofStatements] at h ⊢
    obtain ⟨c, -, h⟩ := follow_append_eq_ok h
    obtain ⟨before, after, he⟩ := ih h
    exact ⟨Event.ofStatement n ++ before, after, by rw [he, List.append_assoc]⟩
  | @inner n ns hin ih =>
    rw [Event.ofStatements] at h ⊢
    obtain ⟨c, h, -⟩ := follow_append_eq_ok h
    rcases ofStatement_inner h with hnil | ⟨pre, post, hn⟩
    · rw [hnil] at hin
      cases hin
    · rw [hn] at h ⊢
      obtain ⟨d, -, h⟩ := follow_append_eq_ok h
      obtain ⟨e, h, -⟩ := follow_append_eq_ok h
      obtain ⟨before, after, he⟩ := ih h
      refine ⟨pre ++ before, after ++ post ++ Event.ofStatements ns, ?_⟩
      rw [he]
      simp only [List.append_assoc]

end Analyzer

end JayFrontEnd
