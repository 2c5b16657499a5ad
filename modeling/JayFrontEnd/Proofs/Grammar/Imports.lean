import JayFrontEnd.Proofs.Grammar.Requests
import JayFrontEnd.Proofs.Grammar.Tree
import JayFrontEnd.Proofs.Lexing
import JayFrontEnd.Proofs.Parsing.Imports
import JayFrontEnd.Proofs.Repetition

/-!
# What a parse asks for

The modules that a parse asks for are those of the directives in its tree, each asked for where it
is named first. Nothing but a directive asks for a module, and a directive does so only once all of
it is there, so no directive that was given up leaves a trace.
-/

namespace JayFrontEnd

namespace Node

/-- What the node asks for, if it is an import directive. -/
def directive? (n : Node) : Option Import :=
  if n.kind = NodeTag.importDirective.name then
    (n.field? "module").map fun m => ⟨m.textD, m.position⟩
  else none

/-- What the directives of a module ask for, in the order of the text. -/
def directives (n : Node) : List Import := n.items.filterMap directive?

end Node

/-- The modules asked for, each where it comes first, after those that have been asked for. -/
def addImports (imports asked : List Import) : List Import :=
  asked.foldl (fun is i => if is.any (·.module == i.module) then is else is ++ [i]) imports

theorem ParseState.imports_require (s : ParseState) (i : Import) :
    (s.require i).imports = addImports s.imports [i] := by
  unfold ParseState.require addImports
  simp only [List.foldl_cons, List.foldl_nil]
  split <;> rfl

theorem addImports_nil (asked : List Import) :
    addImports [] asked = asked.eraseDupsBy fun i j => j.module == i.module :=
  foldl_addNew_nil _ asked

theorem addImports_append (imports as bs : List Import) :
    addImports imports (as ++ bs) = addImports (addImports imports as) bs :=
  List.foldl_append

namespace Jay

variable {ts : List Token} {hasModule? : Option (String → Bool)} {s t : ParseState}

/-- The rules below the root, but for directives, ask for no modules. -/
theorem quiet_rule (fuel : Nat) {r : Nonterminal} (hroot : r ≠ .root)
    (hdirective : r ≠ .importDirective) : (grammar.applyWithin fuel r.name).Quiet := by
  refine (Parser.Quiet.respects fun name => ∃ q : Nonterminal, name = q.name ∧ q ≠ .root ∧
    q ≠ .importDirective).applyWithin ?_ fuel fuel ⟨r, rfl, hroot, hdirective⟩
  rintro _ script ⟨q, rfl, hroot, hdirective⟩ hscript
  rw [q.rule?_name] at hscript
  cases hscript
  exact within_script q (fun p hp hd => ⟨p, rfl, hp, hd⟩) (fun h => absurd h hroot)
    fun h => absurd h hdirective

/-! ## Directives -/

/-- A directive asks for its module when all of it is there, and else for nothing. -/
def Asks (c : Setting) (p : Parser Node) : Prop :=
  ∀ s, (∃ n i t, p c s = (.ok n, t) ∧ n.directive? = some i ∧
      t.imports = addImports s.imports [i]) ∨
    ∃ e t, p c s = (.error (.backtrack e), t) ∧ t.imports = s.imports

theorem quiet_directiveTokens (apply : String → Parser Node) :
    (directiveTokens.run apply).Quiet :=
  @Respects.run _ _ (Parser.Quiet.respects fun _ => False) apply apply (fun _ h => h.elim)
    directiveTokens
    (within_expect _ fun _ => within_expect _ fun _ => within_expect _ fun _ => trivial)

theorem asks_importDirective (apply : String → Parser Node) : Asks ⟨.tokens ts, hasModule?⟩
    (Parser.wrapped Nonterminal.importDirective.name (importDirective.run apply)) := by
  intro s
  have hquiet := quiet_directiveTokens apply
  unfold Parser.wrapped
  rw [run_importDirective]
  have hbuilds : Builds ts hasModule? (s.kinds ts).length (directiveTokens.run apply) _ _ :=
    builds_directiveTokens
  rcases hbuilds.answers (Nat.le_refl _) with
    ⟨v | m, t, w, hrun, -, -, ha, -⟩ | ⟨err, t, hrun, -⟩
  · exact ha.elim
  · have ht := hquiet.imports_eq hrun
    by_cases hmissing : hasModule?.any (! · m.textD) = true
    · simp only [hrun, run_importModule, if_pos hmissing]
      exact .inr ⟨_, _, rfl, ht⟩
    · simp only [hrun, run_importModule, if_neg hmissing]
      exact .inl ⟨_, _, _, rfl, rfl, by rw [ParseState.imports_require, ht]⟩
  · have ht := hquiet.imports_eq hrun
    simp only [hrun]
    exact .inr ⟨_, _, rfl, ht⟩

theorem Asks.restoring {c : Setting} {p : Parser Node} (hp : Asks c p) :
    Asks c (Parser.restoring p) := by
  intro s
  unfold Parser.restoring
  rcases hp s with ⟨n, i, t, hrun, h⟩ | ⟨e, t, hrun, h⟩
  all_goals simp only [hrun]
  · exact .inl ⟨n, i, t, rfl, h⟩
  · exact .inr ⟨e, _, rfl, h⟩

theorem Asks.upTo {c : Setting} {p : Parser Node} (hp : Asks c p) {count : Nat}
    {ns : List Node × Option ParseError} (h : Parser.upTo p count c s = (.ok ns, t)) :
    t.imports = addImports s.imports (ns.1.filterMap Node.directive?) := by
  induction count generalizing s ns with
  | zero => cases h; rfl
  | succ count ih =>
    unfold Parser.upTo at h
    rcases hp s with ⟨n, i, u, hrun, hi, hu⟩ | ⟨e, u, hrun, hu⟩
    · simp only [hrun] at h
      split at h
      · cases h
        rw [List.filterMap_cons_some hi]
        exact hu
      · split at h
        · next ms e v hrest =>
          cases h
          rw [List.filterMap_cons_some hi, ih hrest, hu, ← addImports_append]
          rfl
        · cases h
    · simp only [hrun] at h
      cases h
      exact hu

/-! ## Modules -/

def directiveNode (keyword module : Token) : Node :=
  .mk keyword.position NodeTag.importDirective.name
    (.composite [("module", some (.ofToken module))])

theorem eq_directiveNode {w : List Token} {n : Node} (h : Spells .importDirective w n) :
    ∃ keyword module lineEnd : Token, w = [keyword, module, lineEnd] ∧
      keyword.Is .importKeyword ∧ module.Is .string ∧ lineEnd.Is .newline ∧
      n = directiveNode keyword module := by
  cases h with
  | importDirective hk hm hl => exact ⟨_, _, _, rfl, hk, hm, hl, rfl⟩
  | list hq => cases hq
  | operand hq => rcases hq with hq | hq <;> cases hq
  | operator hq => cases hq

theorem directive?_of_spells_importDirective {w : List Token} {n : Node}
    (h : Spells .importDirective w n) : ∃ keyword module lineEnd : Token,
      w = [keyword, module, lineEnd] ∧ keyword.Is .importKeyword ∧ module.Is .string ∧
        lineEnd.Is .newline ∧ n.directive? = some ⟨module.textD, module.position⟩ := by
  obtain ⟨keyword, module, lineEnd, hw, hk, hm, hl, rfl⟩ := eq_directiveNode h
  exact ⟨keyword, module, lineEnd, hw, hk, hm, hl, rfl⟩

theorem kind_of_spells_declStatement {w : List Token} {n : Node}
    (h : Spells .declStatement w n) : n.kind ≠ NodeTag.importDirective.name := by
  cases h with
  | @declStatement q w n _ hq hn _ =>
    have hkind : n.kind = q.name := by
      rcases List.mem_pair.1 hq with rfl | rfl
      all_goals
        cases hn with
        | list hq => cases hq
        | operand hq => rcases hq with hq | hq <;> cases hq
        | operator _ _ _ hk => cases hk
        | _ => rfl
    rw [hkind]
    rcases List.mem_pair.1 hq with rfl | rfl <;> decide
  | list hq => cases hq
  | operand hq => rcases hq with hq | hq <;> cases hq
  | operator _ _ _ hk => cases hk

theorem directive?_of_spells_declStatement {w : List Token} {n : Node}
    (h : Spells .declStatement w n) : n.directive? = none :=
  if_neg (kind_of_spells_declStatement h)

theorem directives_of_spells_importDirective {xs : List (List Token × Node)}
    (hxs : ∀ x ∈ xs, Spells .importDirective x.1 x.2) :
    ∃ modules : List Token, modules.Sublist (xs.flatMap (·.1)) ∧ (∀ m ∈ modules, m.Is .string) ∧
      (xs.map (·.2)).filterMap Node.directive? = modules.map fun m => ⟨m.textD, m.position⟩ := by
  induction xs with
  | nil => exact ⟨[], .slnil, nofun, rfl⟩
  | cons x xs ih =>
    obtain ⟨hx, hxs⟩ := List.forall_mem_cons.1 hxs
    obtain ⟨modules, hsub, hstring, hmap⟩ := ih hxs
    obtain ⟨keyword, module, lineEnd, hw, -, hm, -, hd⟩ :=
      directive?_of_spells_importDirective hx
    refine ⟨module :: modules, ?_, List.forall_mem_cons.2 ⟨hm, hstring⟩, ?_⟩
    · rw [List.flatMap_cons, hw]
      exact .cons _ (.cons_cons _ (.cons _ hsub))
    · rw [List.map_cons, List.filterMap_cons_some hd, hmap]
      rfl

theorem directives_of_spells_declStatement {xs : List (List Token × Node)}
    (hxs : ∀ x ∈ xs, Spells .declStatement x.1 x.2) :
    (xs.map (·.2)).filterMap Node.directive? = [] := by
  rw [List.filterMap_eq_nil_iff]
  intro n hn
  obtain ⟨x, hx, rfl⟩ := List.mem_map.1 hn
  exact directive?_of_spells_declStatement (hxs x hx)

/-- The directives of a module name some of its strings, in the order of the text. -/
theorem directives_of_spells_root {w : List Token} {n : Node} (h : Spells .root w n) :
    ∃ modules : List Token, modules.Sublist w ∧ (∀ m ∈ modules, m.Is .string) ∧
      n.directives = modules.map fun m => ⟨m.textD, m.position⟩ := by
  cases h with
  | @root v imports declarations start hv himports hdeclarations =>
    obtain ⟨modules, hsub, hstring, hmap⟩ := directives_of_spells_importDirective himports
    refine ⟨modules, (hsub.trans (List.sublist_append_left ..)).trans
      (List.sublist_append_right ..), hstring, ?_⟩
    show (imports.map (·.2) ++ declarations.map (·.2)).filterMap Node.directive? = _
    rw [List.filterMap_append, directives_of_spells_declStatement hdeclarations, List.append_nil,
      hmap]
  | list hq => cases hq
  | operand hq => rcases hq with hq | hq <;> cases hq
  | operator _ _ _ hk => cases hk

/-- What a module asks for is named in a directive among its tokens. -/
theorem directiveAt_of_spells_root {w : List Token} {n : Node} (h : Spells .root w n)
    (hts : Worded ts) (hw : w <:+: ts) {i : Import} (hi : i ∈ n.directives) :
    DirectiveAt ts i.module i.position := by
  cases h with
  | root _ himports hdeclarations =>
    obtain ⟨hdirectives, -⟩ := infix_of_append (infix_of_append hw).2
    obtain ⟨m, hm, hi⟩ := List.mem_filterMap.1 hi
    rcases List.mem_append.1 hm with hm | hm
    · obtain ⟨x, hx, rfl⟩ := List.mem_map.1 hm
      obtain ⟨keyword, module, lineEnd, hv, hk, hs, hl, hd⟩ :=
        directive?_of_spells_importDirective (himports x hx)
      cases hd.symm.trans hi
      exact hts.directiveAt (hv ▸ infix_of_flatMap hdirectives hx) hk hs hl
    · obtain ⟨x, hx, rfl⟩ := List.mem_map.1 hm
      cases (directive?_of_spells_declStatement (hdeclarations x hx)).symm.trans hi
  | list hq => cases hq
  | operand hq => rcases hq with hq | hq <;> cases hq
  | operator _ _ _ hk => cases hk

/-- What the root does: after a first line break it repeats directives and then declarations. Only
the directives among its items ask for something. -/
theorem exists_runs_of_root {tree : Node}
    (h : Parser.wrapped Nonterminal.root.name (root.run (rootRules ts)) ⟨.tokens ts, hasModule?⟩ s =
      (.ok tree, t)) : ∃ first u asked v declarations,
    Parser.optional (firstBreak ts) ⟨.tokens ts, hasModule?⟩ s = (.ok first, u) ∧
    Parser.repeated (directive ts) ⟨.tokens ts, hasModule?⟩ u = (.ok asked, v) ∧
    Parser.any (declaration ts) ⟨.tokens ts, hasModule?⟩ v = (.ok declarations, t) ∧
    tree.directives = asked.1.filterMap Node.directive? := by
  obtain ⟨r, hroot⟩ := Parser.exists_of_wrapped h
  obtain ⟨first, u, hopt, hrun⟩ := Parser.bind_eq_ok.1 hroot
  obtain ⟨imports, v, himports, hrun⟩ := Parser.bind_eq_ok.1 hrun
  obtain ⟨declarations, t', hdeclarations, hrun⟩ := Parser.bind_eq_ok.1 hrun
  cases hrun
  simp only [Parser.wrapped, hroot] at h
  cases h
  have hspells : declarations.filterMap Node.directive? = [] := by
    rcases (builds_declaration ts hasModule?).any.answers (ParseState.length_kinds_le ts v) with
      ⟨_, _, _, hok, -, -, ⟨xs, hxs, -, rfl⟩, -⟩ | ⟨_, _, herr, -⟩
    · cases hdeclarations.symm.trans hok
      exact directives_of_spells_declStatement hxs
    · cases hdeclarations.symm.trans herr
  obtain ⟨asked, v', hrepeated, hv⟩ := Parser.bind_eq_ok.1 himports
  cases hv
  refine ⟨first, u, asked, v, declarations, hopt, hrepeated, hdeclarations, ?_⟩
  show (asked.1 ++ declarations).filterMap Node.directive? = _
  rw [List.filterMap_append, hspells, List.append_nil]

theorem imports_root {tree : Node}
    (h : Parser.wrapped Nonterminal.root.name (root.run (rootRules ts)) ⟨.tokens ts, hasModule?⟩ s =
      (.ok tree, t)) : t.imports = addImports s.imports tree.directives := by
  have hnewline : (firstBreak ts).Quiet := .restoring (.token _)
  have hdeclaration : (declaration ts).Quiet :=
    .restoring (quiet_rule _ (r := .declStatement) nofun nofun)
  have hdirective : Asks ⟨.tokens ts, hasModule?⟩ (directive ts) := by
    refine .restoring ?_
    show Asks _ (grammar.applyWithin (16 * ts.length + 14 + 1) Nonterminal.importDirective.name)
    rw [applyWithin_name]
    exact asks_importDirective _
  obtain ⟨first, u, asked, v, declarations, hopt, hrepeated, hdeclarations, htree⟩ :=
    exists_runs_of_root h
  rw [htree, hdeclaration.any.imports_eq hdeclarations, hdirective.upTo hrepeated,
    hnewline.optional.imports_eq hopt]

/-- The run of the root behind a parse that succeeds: it takes all but line breaks and the end of
the tokens. -/
theorem exists_run_of_parse {out : ParseOutput} (h : parse hasModule? ts = .ok out) :
    ∃ t w, Parser.wrapped Nonterminal.root.name (root.run (rootRules ts))
        ⟨.tokens ts, hasModule?⟩ {} = (.ok out.tree, t) ∧ out.imports = t.imports ∧
      ParseState.Passes ts {} w t ∧ (∀ x ∈ ts.drop t.cursor, x.isLayout = true) ∧
      Derives (.rule .root) (w.map (·.kind)) (t.kinds ts) ∧ Spells .root w out.tree := by
  rw [parse_eq] at h
  have hstart := Nat.le_of_eq (ParseState.length_kinds ts {})
  rcases (builds_module ts hasModule?).answers hstart with
    ⟨tree, t, w, hrun, hw, hd, hspells, -⟩ | ⟨err, t, hrun, -⟩
  all_goals simp only [hrun] at h
  · split at h
    · next hend =>
      cases h
      exact ⟨t, w, hrun, rfl, hw, List.all_eq_true.1 hend, hd, hspells⟩
    · cases h
  · cases h

/-- What a parse that succeeds gives: a tree of the tokens before the end, and the modules its
directives name, each where it is named first. -/
theorem parse_eq_ok {out : ParseOutput} (h : parse hasModule? ts = .ok out) :
    out.imports = addImports [] out.tree.directives ∧
      ∃ w tail, ts = w ++ tail ∧ Spells .root w out.tree := by
  obtain ⟨t, w, hrun, himports, hw, -, -, hspells⟩ := exists_run_of_parse h
  exact ⟨himports.trans (imports_root hrun), w, _, hw.tokens, hspells⟩

end Jay

end JayFrontEnd
