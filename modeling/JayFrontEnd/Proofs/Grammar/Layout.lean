import JayFrontEnd.Proofs.Grammar.Requests
import JayFrontEnd.Proofs.Parsing.Mirroring

/-!
# The grammar of Jay is blind to layout

The rules of Jay ask for tokens by their kinds, and the positions they are told only go into trees
and errors. So what a text parses to hangs on the kinds and texts of its tokens.
-/

namespace JayFrontEnd.Jay

section Mirrors

variable {f g : Node → Script}

theorem mirrors_tok (k : TokenKind) : Atom.AllMirror [tok k] [tok k] := .cons (.token _) .nil

theorem mirrors_ref (name : String) : Atom.AllMirror [.rule name] [.rule name] :=
  .cons (.rule _) .nil

theorem mirrors_expect (k : TokenKind) (h : ∀ {m n}, m.erased = n.erased → (f m).Mirrors (g n)) :
    (expect k f).Mirrors (expect k g) :=
  .one (mirrors_tok k) h

theorem mirrors_call (name : String) (h : ∀ {m n}, m.erased = n.erased → (f m).Mirrors (g n)) :
    (Script.one [.rule name] f).Mirrors (.one [.rule name] g) :=
  .one (mirrors_ref name) h

theorem mirrors_value {v w : Value} (h : v.erased = w.erased) :
    (Script.value v).Mirrors (.value w) :=
  .done (congrArg Parsed.value h)

theorem mirrors_node {m n : Node} (h : m.erased = n.erased) : (Script.node m).Mirrors (.node n) :=
  .done (congrArg Parsed.node h)

theorem mirrors_composite {fs gs : List (String × Option Node)}
    (h : fs.map (Prod.map id (Option.map Node.erased)) =
      gs.map (Prod.map id (Option.map Node.erased))) :
    (Script.value (.composite fs)).Mirrors (.value (.composite gs)) :=
  mirrors_value (by rw [Value.erased_composite, Value.erased_composite, h])

theorem mirrors_list {ms ns : List Node} (h : ms.map Node.erased = ns.map Node.erased) :
    (Script.value (.list ms)).Mirrors (.value (.list ns)) :=
  mirrors_value (by rw [Value.erased_list, Value.erased_list, h])

theorem kind_eq {m n : Node} (h : m.erased = n.erased) : m.kind = n.kind := by
  rw [← m.kind_erased, h, n.kind_erased]

theorem textD_eq {m n : Node} (h : m.erased = n.erased) : m.textD = n.textD := by
  rw [← m.textD_erased, h, n.textD_erased]

theorem erased_binary {i j : Nat} {o o' l l' r r' : Node} (ho : o.erased = o'.erased)
    (hl : l.erased = l'.erased) (hr : r.erased = r'.erased) :
    (binary i o l r).erased = (binary j o' l' r').erased := by
  simp only [binary, kind_eq ho, Node.erased_mk, Value.erased_composite, List.map_cons,
    List.map_nil, Prod.map_apply, Option.map_some, hl, hr]

/-- A script does the same wherever the tokens stand. -/
theorem mirrors_script (r : Nonterminal) : r.script.Mirrors r.script := by
  cases r with
  | root =>
    refine .opt (mirrors_tok _) fun _ => .any (mirrors_ref _) fun himports =>
      .any (mirrors_ref _) fun hdeclarations => mirrors_list ?_
    rw [List.map_append, List.map_append, himports, hdeclarations]
  | importDirective =>
    refine mirrors_expect _ fun _ => mirrors_expect _ fun hmodule => mirrors_expect _ fun _ => ?_
    rw [textD_eq hmodule]
    exact .importModule (mirrors_composite (by simp [hmodule]))
  | declStatement =>
    exact .one (.cons (.named _ (.rule _)) (.cons (.named _ (.rule _)) .nil)) fun h =>
      mirrors_expect _ fun _ => mirrors_node h
  | statement =>
    refine .one (.cons (.rule _) (.cons (.rule _) (.cons (.rule _) (.cons (.rule _) .nil))))
      fun h => .peek fun {x y} ht => ?_
    have hkind : x.any (·.kind == TokenKind.curlEnd.name) =
        y.any (·.kind == TokenKind.curlEnd.name) := by
      have hany := congrArg (Option.any (·.kind == TokenKind.curlEnd.name)) ht
      rwa [Option.any_map, Option.any_map] at hany
    rw [hkind]
    split
    · exact mirrors_node h
    · exact mirrors_expect _ fun _ => mirrors_node h
  | variableDecl =>
    have hinitializer : initializer.Mirrors initializer :=
      mirrors_expect _ fun _ => mirrors_call _ fun h => mirrors_node h
    exact mirrors_expect _ fun _ => mirrors_expect _ fun hname => .opt (mirrors_tok _) fun htype =>
      .opt (.cons (.inline _ hinitializer) .nil) fun hvalue =>
        mirrors_composite (by simp [hname, htype, hvalue])
  | functionDecl =>
    exact mirrors_expect _ fun _ => mirrors_expect _ fun hname => mirrors_expect _ fun _ =>
      .opt (mirrors_ref _) fun hparams => mirrors_expect _ fun _ => .opt (mirrors_tok _)
        fun hreturns => mirrors_call _ fun hbody =>
          mirrors_composite (by simp [hname, hparams, hreturns, hbody])
  | params =>
    have hnext : nextParam.Mirrors nextParam := mirrors_expect _ fun _ =>
      .one (.cons (.named _ (.rule _)) .nil) fun h => mirrors_node h
    exact mirrors_call _ fun hfirst => .any (.cons (.inline _ hnext) .nil) fun hothers =>
      mirrors_list (by simp [hfirst, hothers])
  | param =>
    exact mirrors_expect _ fun hname => mirrors_expect _ fun htype =>
      mirrors_composite (by simp [hname, htype])
  | block =>
    exact mirrors_expect _ fun _ => .opt (mirrors_tok _) fun _ => .any (mirrors_ref _)
      fun hstatements => mirrors_expect _ fun _ => mirrors_list hstatements
  | assignment =>
    exact mirrors_expect _ fun hname => mirrors_expect _ fun _ => mirrors_call _ fun hvalue =>
      mirrors_composite (by simp [hname, hvalue])
  | functionCall =>
    have hmember : member.Mirrors member :=
      mirrors_expect _ fun _ => mirrors_expect _ fun h => mirrors_node h
    refine mirrors_expect _ fun hfirst => .opt (.cons (.inline _ hmember) .nil) fun {x y} hmember =>
      mirrors_expect _ fun _ => .opt (mirrors_ref _) fun hargs => mirrors_expect _ fun _ => ?_
    rcases x with _ | x <;> rcases y with _ | y
    · exact mirrors_composite (by simp [hfirst, hargs])
    · cases hmember
    · cases hmember
    · exact mirrors_composite (by simp [hfirst, Option.some.inj hmember, hargs])
  | callArgs =>
    have hnext : nextArg.Mirrors nextArg :=
      mirrors_expect _ fun _ => mirrors_call _ fun h => mirrors_node h
    exact mirrors_call _ fun hfirst => .any (.cons (.inline _ hnext) .nil) fun hothers =>
      mirrors_list (by simp [hfirst, hothers])
  | expression =>
    refine .offset <| mirrors_call _ fun hlhs =>
      .opt (.cons (.token _) (mirrors_tok _)) fun {x y} hoperator => ?_
    rcases x with _ | x <;> rcases y with _ | y
    · exact mirrors_node hlhs
    · cases hoperator
    · cases hoperator
    · exact mirrors_call _ fun hrhs =>
        mirrors_node (erased_binary (Option.some.inj hoperator) hlhs hrhs)
  | product =>
    refine .offset <| .one (.cons (.rule _) (.cons (.rule _) (mirrors_ref _))) fun hlhs =>
      .opt (.cons (.token _) (mirrors_tok _)) fun {x y} hoperator => ?_
    rcases x with _ | x <;> rcases y with _ | y
    · exact mirrors_node hlhs
    · cases hoperator
    · cases hoperator
    · exact mirrors_call _ fun hrhs =>
        mirrors_node (erased_binary (Option.some.inj hoperator) hlhs hrhs)
  | parenthesis =>
    exact mirrors_expect _ fun _ => mirrors_call _ fun hinner => mirrors_expect _ fun _ =>
      mirrors_node hinner
  | basicExpression =>
    exact .one (.cons (.token _) (.cons (.token _) (.cons (.token _) (mirrors_tok _))))
      fun h => mirrors_node h

end Mirrors

theorem blind : grammar.Blind := by
  intro name script h
  obtain ⟨r, -, rfl⟩ := exists_of_rule? h
  exact mirrors_script r

/-- Tokens of the same kinds and texts are accepted alike, and make the same tree. -/
theorem parse_of_erased_eq {ts us : List Token}
    (h : ts.map Token.erased = us.map Token.erased) (hasModule? : Option (String → Bool)) :
    SucceedAlike ParseOutput.Mirrors (parse hasModule? ts) (parse hasModule? us) :=
  blind.parse (.tokens hasModule? h)

end JayFrontEnd.Jay
