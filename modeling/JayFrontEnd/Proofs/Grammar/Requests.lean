import JayFrontEnd.Proofs.Grammar.Jay
import JayFrontEnd.Proofs.Parsing.Respects

/-!
# What the rules of Jay ask for

The rules ask for tokens and for other rules, never for the root. Only the root asks for directives,
and only a directive asks for a module. No rule fails at an offset of its own.
-/

namespace JayFrontEnd.Jay

section Requests

variable {A : Requests} {next : Node → Script}

theorem within_expect (k : TokenKind) (h : ∀ n, (next n).Within A) : (expect k next).Within A :=
  ⟨⟨trivial, trivial⟩, h⟩

theorem within_call {r : Nonterminal} (hr : A.rule r.name) (h : ∀ n, (next n).Within A) :
    (Script.one [.rule r.name] next).Within A :=
  ⟨⟨hr, trivial⟩, h⟩

/-- The scripts ask for nothing but tokens and rules, and modules in a directive. -/
theorem within_script (r : Nonterminal)
    (hrule : ∀ q : Nonterminal, q ≠ .root → q ≠ .importDirective → A.rule q.name)
    (hroot : r = .root → A.rule Nonterminal.importDirective.name)
    (hmodule : r = .importDirective → A.module) : r.script.Within A := by
  have hparam := hrule .param nofun nofun
  have hexpression := hrule .expression nofun nofun
  have hproduct := hrule .product nofun nofun
  cases r with
  | root =>
    have hdeclaration := hrule .declStatement nofun nofun
    exact ⟨⟨trivial, trivial⟩, fun _ => ⟨⟨hroot rfl, trivial⟩, fun _ =>
      ⟨⟨hdeclaration, trivial⟩, fun _ => trivial⟩⟩⟩
  | importDirective =>
    exact within_expect _ fun _ => within_expect _ fun _ => within_expect _ fun _ =>
      ⟨hmodule rfl, trivial⟩
  | declStatement =>
    have hfunction := hrule .functionDecl nofun nofun
    have hvariable := hrule .variableDecl nofun nofun
    exact ⟨⟨hfunction, hvariable, trivial⟩, fun _ => within_expect _ fun _ => trivial⟩
  | statement =>
    have hvariable := hrule .variableDecl nofun nofun
    have hassignment := hrule .assignment nofun nofun
    have hcall := hrule .functionCall nofun nofun
    have hblock := hrule .block nofun nofun
    refine ⟨⟨hvariable, hassignment, hcall, hblock, trivial⟩, fun n t => ?_⟩
    show Script.Within A (if t.any (·.kind == TokenKind.curlEnd.name) then .node n else _)
    split
    · trivial
    · exact within_expect _ fun _ => trivial
  | variableDecl =>
    exact within_expect _ fun _ => within_expect _ fun _ => ⟨⟨trivial, trivial⟩, fun _ =>
      ⟨⟨within_expect _ fun _ => within_call hexpression fun _ => trivial, trivial⟩,
        fun _ => trivial⟩⟩
  | functionDecl =>
    have hparams := hrule .params nofun nofun
    have hblock := hrule .block nofun nofun
    exact within_expect _ fun _ => within_expect _ fun _ => within_expect _ fun _ =>
      ⟨⟨hparams, trivial⟩, fun _ => within_expect _ fun _ => ⟨⟨trivial, trivial⟩, fun _ =>
        within_call hblock fun _ => trivial⟩⟩
  | params =>
    exact within_call hparam fun _ => ⟨⟨within_expect _ fun _ =>
      ⟨⟨hparam, trivial⟩, fun _ => trivial⟩, trivial⟩, fun _ => trivial⟩
  | param => exact within_expect _ fun _ => within_expect _ fun _ => trivial
  | block =>
    have hstatement := hrule .statement nofun nofun
    exact within_expect _ fun _ => ⟨⟨trivial, trivial⟩, fun _ => ⟨⟨hstatement, trivial⟩, fun _ =>
      within_expect _ fun _ => trivial⟩⟩
  | assignment =>
    exact within_expect _ fun _ => within_expect _ fun _ => within_call hexpression fun _ => trivial
  | functionCall =>
    have hargs := hrule .callArgs nofun nofun
    exact within_expect _ fun _ => ⟨⟨within_expect _ fun _ => within_expect _ fun _ => trivial,
      trivial⟩, fun _ => within_expect _ fun _ => ⟨⟨hargs, trivial⟩, fun _ =>
        within_expect _ fun _ => trivial⟩⟩
  | callArgs =>
    exact within_call hexpression fun _ => ⟨⟨within_expect _ fun _ =>
      within_call hexpression fun _ => trivial, trivial⟩, fun _ => trivial⟩
  | expression =>
    refine fun _ => within_call hproduct fun _ => ⟨⟨trivial, trivial, trivial⟩, fun o => ?_⟩
    cases o with
    | none => trivial
    | some _ => exact within_call hexpression fun _ => trivial
  | product =>
    have hparenthesis := hrule .parenthesis nofun nofun
    have hcall := hrule .functionCall nofun nofun
    have hbasic := hrule .basicExpression nofun nofun
    refine fun _ => ⟨⟨hparenthesis, hcall, hbasic, trivial⟩, fun _ =>
      ⟨⟨trivial, trivial, trivial⟩, fun o => ?_⟩⟩
    cases o with
    | none => trivial
    | some _ => exact within_call hproduct fun _ => trivial
  | parenthesis =>
    exact within_expect _ fun _ => within_call hexpression fun _ => within_expect _ fun _ => trivial
  | basicExpression => exact ⟨⟨trivial, trivial, trivial, trivial, trivial⟩, fun _ => trivial⟩

end Requests

theorem exists_of_rule? {name : String} {script : Script}
    (h : grammar.rule? name = some script) :
    ∃ r : Nonterminal, name = r.name ∧ script = r.script := by
  obtain ⟨before, after, hrules, -⟩ := List.lookup_eq_some_iff.1 h
  have hmem : (name, script) ∈ grammar.rules := by
    rw [hrules]
    exact List.mem_append_right _ (List.mem_cons_self ..)
  have hall : grammar.rules = [.root, .importDirective, .declStatement, .statement, .variableDecl,
      .functionDecl, .params, .param, .block, .assignment, .functionCall, .callArgs, .expression,
      .product, .parenthesis, .basicExpression].map fun r : Nonterminal => (r.name, r.script) := rfl
  obtain ⟨r, -, hr⟩ := List.mem_map.1 (hall ▸ hmem)
  cases hr
  exact ⟨r, rfl, rfl⟩

end JayFrontEnd.Jay
