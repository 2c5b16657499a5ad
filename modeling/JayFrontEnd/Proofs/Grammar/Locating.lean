import JayFrontEnd.Proofs.Grammar.Leaves
import JayFrontEnd.Proofs.Grammar.FirstError
import JayFrontEnd.Proofs.Parsing.Accumulators

/-!
# Parsing with a locator

A parse that knows which modules there are succeeds if all modules are there that the directives in
its tree name. If one is not there, the directives end before it. No declaration begins there, and
what is said about that stands at the keyword, before the name of the module, so the missing module
is what the parse reports.
-/

namespace JayFrontEnd

/-! ## The strings of directives -/

def Node.isDirective (n : Node) : Bool := n.kind == NodeTag.importDirective.name

/-- The leaves of the import directives of a module. -/
def Node.importStrings (n : Node) : List Node := (n.items.filter isDirective).flatMap leaves

def Node.asked (n : Node) : Import := ⟨n.textD, n.position⟩

namespace Jay

variable {ts rest : List Token} {hasModule? : Option (String → Bool)} {hasModule : String → Bool}
  {s t u : ParseState} {keyword module lineEnd : Token}

theorem importStrings_of_spells_root {w : List Token} {n : Node} (h : Spells .root w n) :
    n.directives = n.importStrings.map Node.asked ∧
      ∀ m ∈ n.importStrings, m.kind = TokenKind.string.name := by
  cases h with
  | @root v imports declarations start _ himports hdeclarations =>
    have hnone : (declarations.map (·.2)).filter Node.isDirective = [] := by
      refine List.filter_eq_nil_iff.2 fun n hn => ?_
      obtain ⟨x, hx, rfl⟩ := List.mem_map.1 hn
      rw [Node.isDirective, beq_iff_eq]
      exact kind_of_spells_declStatement (hdeclarations x hx)
    show (imports.map (·.2) ++ declarations.map (·.2)).filterMap Node.directive? =
        (((imports.map (·.2) ++ declarations.map (·.2)).filter _).flatMap _).map Node.asked ∧
      ∀ m ∈ ((imports.map (·.2) ++ declarations.map (·.2)).filter _).flatMap _, _
    rw [List.filterMap_append, directives_of_spells_declStatement hdeclarations, List.append_nil,
      List.filter_append, hnone, List.append_nil]
    clear hnone
    induction imports with
    | nil => exact ⟨rfl, nofun⟩
    | cons x imports ih =>
      obtain ⟨hx, himports⟩ := List.forall_mem_cons.1 himports
      obtain ⟨hasked, hkinds⟩ := ih himports
      obtain ⟨keyword, module, lineEnd, -, -, hm, -, hnode⟩ := eq_directiveNode hx
      have hdirective : x.2.directive? = some (Node.ofToken module).asked := by rw [hnode]; rfl
      have hkind : x.2.isDirective = true := by rw [hnode]; rfl
      have hleaves : x.2.leaves = [.ofToken module] := by rw [hnode]; rfl
      rw [List.map_cons, List.filterMap_cons_some hdirective, List.filter_cons_of_pos hkind,
        List.flatMap_cons, hleaves]
      exact ⟨congrArg _ hasked, List.forall_mem_cons.2 ⟨hm, hkinds⟩⟩
  | list hq => cases hq
  | operand hq => rcases hq with hq | hq <;> cases hq
  | operator _ _ _ hk => cases hk

/-! ## Directives -/

section Cursor

variable {x : Token} (hts : ts.drop s.cursor = x :: rest)

include hts

theorem getElem?_cursor : ts[s.cursor]? = some x := by
  rw [← Nat.add_zero s.cursor, ← List.getElem?_drop, hts]
  rfl

theorem offset_cursor : (Input.tokens ts).offset s.cursor = x.position := by
  simp only [Input.offset, getElem?_cursor hts]
  rfl

theorem drop_next : ts.drop (s.moveTo (s.cursor + 1)).cursor = rest := by
  show ts.drop (s.cursor + 1) = rest
  rw [← List.drop_drop, hts]
  rfl

theorem run_expect {k : TokenKind} {next : Node → Script} {apply : String → Parser Node}
    (hx : x.Is k) : (expect k next).run apply ⟨.tokens ts, hasModule?⟩ s =
      (next (.ofToken x)).run apply ⟨.tokens ts, hasModule?⟩ (s.moveTo (s.cursor + 1)) := by
  have htoken : Parser.token k.name ⟨.tokens ts, hasModule?⟩ s =
      (.ok (.ofToken x), s.moveTo (s.cursor + 1)) := Parser.token_of_kind (getElem?_cursor hts) hx
  show (Parser.restoring (Parser.token k.name) >>= fun n => (next n).run apply) _ s = _
  simp only [Bind.bind, Parser.restoring, htoken]

end Cursor

/-- A directive stands at the cursor. -/
def AtDirective (ts : List Token) (s : ParseState) (keyword module : Token) : Prop :=
  ∃ lineEnd rest, ts.drop s.cursor = keyword :: module :: lineEnd :: rest ∧
    keyword.Is .importKeyword ∧ module.Is .string ∧ lineEnd.Is .newline

/-- The error of a directive whose module is not there. -/
def missing (module : Token) : ParseError := ⟨.unlocatedModule module.textD, module.position⟩

/-- The state behind a directive that has asked for its module. -/
def behindDirective (s : ParseState) (module : Token) : ParseState :=
  (s.moveTo (s.cursor + 3)).require ⟨module.textD, module.position⟩

theorem run_directive (h : AtDirective ts s keyword module) :
    directive ts ⟨.tokens ts, hasModule?⟩ s =
      if hasModule?.any (! · module.textD) then
        (.error (.backtrack (missing module)), s.note (missing module))
      else (.ok (directiveNode keyword module), behindDirective s module) := by
  obtain ⟨lineEnd, rest, hts, hk, hm, hl⟩ := h
  have hdirective : directive ts = Parser.restoring (Parser.wrapped
      Nonterminal.importDirective.name
      (importDirective.run (grammar.applyWithin (16 * ts.length + 14)))) :=
    congrArg Parser.restoring (applyWithin_name (16 * ts.length + 14) .importDirective)
  have hrun : importDirective.run (grammar.applyWithin (16 * ts.length + 14))
      ⟨.tokens ts, hasModule?⟩ s = _ :=
    (run_expect hts hk).trans ((run_expect (drop_next hts) hm).trans
      ((run_expect (drop_next (drop_next hts)) hl).trans (run_importModule _ _ _ _)))
  have hname : (Node.ofToken module).textD = module.textD := rfl
  simp only [hdirective, Parser.restoring, Parser.wrapped, hrun, offset_cursor hts, hname]
  by_cases hmissing : hasModule?.any (! · module.textD) = true
  · simp only [if_pos hmissing]
    rfl
  · simp only [if_neg hmissing]
    rfl

theorem cursor_behindDirective (s : ParseState) (module : Token) :
    (behindDirective s module).cursor ≠ s.cursor := by
  rw [behindDirective, ParseState.cursor_require]
  show s.cursor + 3 ≠ s.cursor
  omega

theorem furthest_behindDirective (s : ParseState) (module : Token) :
    (behindDirective s module).furthest = s.furthest := ParseState.furthest_require ..

theorem furthest_note {e : ParseError} (h : ∀ err, s.furthest = some err → err.offset ≤ e.offset) :
    (s.note e).furthest = some e := by
  cases hs : s.furthest with
  | none => simp only [ParseState.note, hs]
  | some f => simp only [ParseState.note, hs, ParseError.max, if_pos (h f hs)]

theorem note_furthest_congr (h : t.furthest = s.furthest) (e : ParseError) :
    (t.note e).furthest = (s.note e).furthest := by
  simp only [ParseState.note, h]

theorem atDirective_of_ok {n : Node} (h : directive ts ⟨.tokens ts, hasModule?⟩ s = (.ok n, t)) :
    ∃ keyword module, AtDirective ts s keyword module := by
  rcases (builds_directive ts hasModule?).answers (ParseState.length_kinds_le ts s) with
    ⟨_, _, w, hok, hw, -, hspells, -⟩ | ⟨_, _, herr, -⟩
  · obtain ⟨keyword, module, lineEnd, rfl, hk, hm, hl, -⟩ := eq_directiveNode hspells
    exact ⟨keyword, module, lineEnd, _, hw.tokens, hk, hm, hl⟩
  · cases h.symm.trans herr

/-- The first directive whose module is missing ends the repetition of directives, with an error at
the name of the module. -/
theorem upTo_directive_missing {count : Nat} {asked : List Node × Option ParseError} {i : Import}
    (h : Parser.upTo (directive ts) count ⟨.tokens ts, none⟩ s = (.ok asked, t))
    (hi : (asked.1.filterMap Node.directive?).find? (! hasModule ·.module) = some i) :
    ∃ u found keyword module, Parser.upTo (directive ts) count ⟨.tokens ts, some hasModule⟩ s =
        (.ok found, u) ∧ AtDirective ts u keyword module ∧ i = ⟨module.textD, module.position⟩ ∧
      u.furthest = (s.note (missing module)).furthest := by
  induction count generalizing s asked with
  | zero =>
    cases h
    cases hi
  | succ count ih =>
    rcases Parser.upTo_succ_eq_ok h with ⟨_, _, -, rfl, -⟩ | ⟨n, hrun, hstay, -⟩ |
      ⟨n, u, rest, hrun, -, hrest, rfl⟩
    · cases hi
    · -- a directive uses input
      obtain ⟨keyword, module, hat⟩ := atDirective_of_ok hrun
      cases hrun.symm.trans (run_directive hat)
      exact absurd hstay (cursor_behindDirective s module)
    · obtain ⟨keyword, module, hat⟩ := atDirective_of_ok hrun
      cases hrun.symm.trans (run_directive hat)
      have hdirective : (directiveNode keyword module).directive? =
          some ⟨module.textD, module.position⟩ := rfl
      rw [List.filterMap_cons_some hdirective] at hi
      have hlocated : directive ts ⟨.tokens ts, some hasModule⟩ s =
          if (! hasModule module.textD) = true then
            (.error (.backtrack (missing module)), s.note (missing module))
          else (.ok (directiveNode keyword module), behindDirective s module) := run_directive hat
      rw [List.find?_cons] at hi
      cases hthere : hasModule module.textD
      · simp only [hthere, Bool.not_false, if_true] at hlocated hi
        cases hi
        refine ⟨s.note (missing module), ([], some (missing module)), keyword, module, ?_, hat, rfl,
          rfl⟩
        simp only [Parser.upTo, hlocated]
        rfl
      · simp only [hthere, Bool.not_true, if_neg Bool.false_ne_true] at hlocated hi
        obtain ⟨v, found, keyword', module', hfound, hat', hi', hfar⟩ := ih hrest hi
        refine ⟨v, _, keyword', module',
          Parser.upTo_succ_of_ok hlocated (cursor_behindDirective s module) hfound, hat', hi', ?_⟩
        exact hfar.trans (note_furthest_congr (furthest_behindDirective s module) _)

/-! ## What comes after the directives -/

/-- Where a directive stands, no declaration does. An error further on is kept. -/
theorem declaration_at_directive (hasModule? : Option (String → Bool))
    (h : AtDirective ts s keyword module) :
    ∃ e t, declaration ts ⟨.tokens ts, hasModule?⟩ s = (.error (.backtrack e), t) ∧
      ∀ err, s.furthest = some err → keyword.position < err.offset → t.furthest = some err := by
  obtain ⟨lineEnd, rest, hts, hk, -, -⟩ := h
  have hnone : ¬ StartsWith (Phrase.rule .declStatement).heads (s.kinds ts) := by
    rintro ⟨k, hmem, hstarts⟩
    rw [ParseState.kinds, hts] at hstarts
    cases TokenKind.name_injective (hk.symm.trans (Option.some.inj hstarts))
    exact absurd hmem (by decide)
  have hinert : (declaration ts).Inert := .restoring (Parser.Inert.applyWithin grammar _ _)
  -- what comes of it is seen best with nothing gathered before
  have hfresh := hinert ⟨.tokens ts, hasModule?⟩ s { cursor := s.cursor }
  rw [ParseState.fresh_onto] at hfresh
  rcases (builds_declaration ts hasModule?).answers
      (ParseState.length_kinds_le ts { cursor := s.cursor }) with
    ⟨_, t, _, -, hw, hd, -⟩ | ⟨e, t, hrun, hkeeps, hsome⟩
  · rcases (hw.takes hd).startsWith with hstarts | ⟨hpasses, -⟩
    · exact absurd hstarts hnone
    · cases hpasses
  · rw [hrun] at hfresh
    refine ⟨e, _, hfresh, fun err herr hlt => ?_⟩
    rcases hkeeps with hsame | ⟨err', herr', v, ⟨tail, hv⟩, hopens, hoffset, -⟩
    · rw [hsame] at hsome
      cases hsome
    · have hnil : v = [] := by
        rcases v with _ | ⟨x, v⟩
        · rfl
        · refine absurd ?_ hnone
          rw [ParseState.kinds, ← hv]
          exact hopens.startsWith
      have hhere : err'.offset = keyword.position := by
        rw [hoffset, hnil]
        exact offset_cursor hts
      simp only [ParseState.onto, herr, herr', ParseError.max, hhere, if_neg (Nat.not_le.2 hlt)]

/-- So the declarations end before they begin. -/
theorem any_declaration_at_directive (hasModule? : Option (String → Bool))
    (h : AtDirective ts s keyword module) :
    ∃ t, Parser.any (declaration ts) ⟨.tokens ts, hasModule?⟩ s = (.ok [], t) ∧
      t.cursor = s.cursor ∧
      ∀ err, s.furthest = some err → keyword.position < err.offset → t.furthest = some err := by
  obtain ⟨e, t, hrun, hkept⟩ := declaration_at_directive hasModule? h
  refine ⟨t.moveTo s.cursor, Parser.bind_eq_ok.2 ⟨([], some e), _, ?_, rfl⟩, rfl, hkept⟩
  simp only [Parser.repeated, Parser.upTo, hrun]

/-! ## What comes before the directives -/

/-- That a line break does not come first is said of the start. -/
theorem furthest_firstBreak {first : Option Node}
    (h : Parser.optional (firstBreak ts) ⟨.tokens ts, hasModule?⟩ {} = (.ok first, t)) :
    ∀ err, t.furthest = some err → err.offset = (Input.tokens ts).offset 0 := by
  have hrun : Parser.optional (Parser.restoring (Parser.token TokenKind.newline.name))
      ⟨.tokens ts, hasModule?⟩ {} = (.ok first, t) := h
  rcases hfirst : ts[({} : ParseState).cursor]? with _ | x
  · simp only [Parser.optional, Parser.restoring, Parser.token, hfirst, Parser.fail, Parser.failAt]
      at hrun
    cases hrun
    intro err herr
    cases herr
    rfl
  · by_cases hx : (x.kind == TokenKind.newline.name) = true
    · simp only [Parser.optional, Parser.restoring, Parser.token, hfirst, hx, if_true] at hrun
      cases hrun
      intro err herr
      cases herr
    · simp only [Parser.optional, Parser.restoring, Parser.token, hfirst, hx, Parser.failAt]
        at hrun
      cases hrun
      intro err herr
      cases herr
      have hoffset : (Input.tokens ts).offset 0 = x.position := by
        simp only [Input.offset, hfirst]
        rfl
      exact hoffset.symm

/-- The keyword of a directive stands before the name of the module. -/
theorem position_lt_of_atDirective {text : List Char} (hlex : lex TokenRule.jay text = .ok ts)
    (h : AtDirective ts s keyword module) : keyword.position < module.position := by
  obtain ⟨lineEnd, rest, hts, hk, hm, -⟩ := h
  have hmarks : ((ts.drop s.cursor).filter (!·.isLayout)).Pairwise (·.position < ·.position) :=
    (marks_sorted_of_lex hlex).sublist ((List.drop_sublist ..).filter _)
  have hkeyword : keyword.isLayout = false := by
    simp only [Token.isLayout, show keyword.kind = _ from hk]
    rfl
  have hmodule : module.isLayout = false := by
    simp only [Token.isLayout, show module.kind = _ from hm]
    rfl
  simp only [hts, List.filter_cons, hkeyword, hmodule, Bool.not_false, if_true] at hmarks
  exact (List.pairwise_cons.1 hmarks).1 _ List.mem_cons_self

/-! ## Parses -/

/-- The first module that is missing is what a parse reports. -/
theorem parse_eq_missing {text : List Char} (hlex : lex TokenRule.jay text = .ok ts)
    {out : ParseOutput} (h : parse none ts = .ok out) {n : Node}
    (hn : out.tree.importStrings.find? (! hasModule ·.textD) = some n) :
    parse (some hasModule) ts = .error (.parse (.unlocatedModule n.textD) n.position) := by
  obtain ⟨t, w, hrun, -, -, -, -, hspells⟩ := exists_run_of_parse h
  obtain ⟨first, u, asked, v, declarations, hopt, hrepeated, -, htree⟩ := exists_runs_of_root hrun
  have hi : (asked.1.filterMap Node.directive?).find? (! hasModule ·.module) = some n.asked := by
    rw [← htree, (importStrings_of_spells_root hspells).1, List.find?_map]
    exact congrArg (Option.map Node.asked) hn
  obtain ⟨x, found, keyword, module, hfound, hat, hasked, hfar⟩ :=
    upTo_directive_missing hrepeated hi
  obtain ⟨htext, hposition⟩ := Import.mk.inj hasked
  obtain ⟨lineEnd, rest, hts, hk, -⟩ := id hat
  -- nothing said before the directives is further on
  have hmodule : (Input.tokens ts).offset (x.cursor + 1) = module.position :=
    offset_cursor (drop_next hts)
  have hfirst : (Input.tokens ts).offset 0 ≤ module.position :=
    hmodule ▸ Input.offset_mono (lexed_of_lex hlex).sorted (Nat.zero_le _)
  have hfurthest : x.furthest = some (missing module) :=
    hfar.trans (furthest_note fun err herr => furthest_firstBreak hopt err herr ▸ hfirst)
  obtain ⟨y, hany, hcursor, hkept⟩ := any_declaration_at_directive (some hasModule) hat
  have hkept := hkept _ hfurthest (position_lt_of_atDirective hlex hat)
  have hopt : Parser.optional (firstBreak ts) ⟨.tokens ts, some hasModule⟩ {} = (.ok first, u) :=
    hopt
  have hroot : root.run (rootRules ts) ⟨.tokens ts, some hasModule⟩ {} = (.ok _, y) :=
    Parser.bind_eq_ok.2 ⟨_, _, hopt, Parser.bind_eq_ok.2 ⟨_, _,
      Parser.bind_eq_ok.2 ⟨_, _, hfound, rfl⟩, Parser.bind_eq_ok.2 ⟨_, _, hany, rfl⟩⟩⟩
  have hend : (Input.tokens ts).isEnd y.cursor = false := by
    simp only [Input.isEnd, hcursor, hts, List.all_cons, Token.isLayout,
      show keyword.kind = _ from hk]
    rfl
  simp only [parse_eq, Parser.wrapped, hroot, hend, hkept]
  rw [htext, hposition]
  rfl

/-- A parse that looks for modules succeeds as one that does not, if those that the directives in
its tree name are there. What is asked for is what these directives name, each module where it
comes first. Otherwise the first module that is not there is reported, where it is named. -/
theorem parse_with_locator {text : List Char} (hlex : lex TokenRule.jay text = .ok ts) :
    (∀ (hasModule : String → Bool) (out : ParseOutput), parse (some hasModule) ts = .ok out ↔
      parse none ts = .ok out ∧ ∀ n ∈ out.tree.importStrings, hasModule n.textD = true) ∧
    (∀ (hasModule? : Option (String → Bool)) (out : ParseOutput), parse hasModule? ts = .ok out →
      (∀ n ∈ out.tree.importStrings, n.kind = TokenKind.string.name) ∧
      out.imports = (out.tree.importStrings.map Node.asked).eraseDupsBy (·.module == ·.module)) ∧
    ∀ (hasModule : String → Bool) (out : ParseOutput) (n : Node), parse none ts = .ok out →
      out.tree.importStrings.find? (! hasModule ·.textD) = some n →
      ∃ problem, parse (some hasModule) ts = .error (.parse problem n.position) ∧
        problem.message = "could not locate module '" ++ n.textD ++ "'" := by
  have himports : ∀ (hasModule? : Option (String → Bool)) (out : ParseOutput),
      parse hasModule? ts = .ok out →
      (∀ n ∈ out.tree.importStrings, n.kind = TokenKind.string.name) ∧
      out.imports = (out.tree.importStrings.map Node.asked).eraseDupsBy (·.module == ·.module) := by
    intro hasModule? out h
    obtain ⟨hasked, w, tail, -, hspells⟩ := parse_eq_ok h
    obtain ⟨hdirectives, hkinds⟩ := importStrings_of_spells_root hspells
    refine ⟨hkinds, ?_⟩
    rw [hasked, hdirectives, addImports_nil]
    exact congrArg (List.eraseDupsBy · _) (funext₂ fun _ _ => BEq.comm)
  have hlocated : ∀ (hasModule : String → Bool) (out : ParseOutput), parse none ts = .ok out →
      (∀ n ∈ out.tree.importStrings, hasModule n.textD = true) →
      parse (some hasModule) ts = .ok out := by
    intro hasModule out h hall
    refine Grammar.parse_eq_ok_of_located h fun i hi => ?_
    rw [(himports none out h).2] at hi
    obtain ⟨n, hn, rfl⟩ := List.mem_map.1 ((eraseDupsBy_sublist _ _).subset hi)
    exact hall n hn
  refine ⟨fun hasModule out => ⟨fun h => ?_, fun h => hlocated hasModule out h.1 h.2⟩, himports,
    fun hasModule out n h hn => ⟨_, parse_eq_missing hlex h hn, rfl⟩⟩
  -- without the locator the parse succeeds as well, on the same way
  obtain ⟨t, w, -, -, hw, htail, hd, -⟩ := exists_run_of_parse h
  have hts : ts = w ++ ts.drop t.cursor := hw.tokens
  obtain ⟨out', hout'⟩ := parse_ok_of_derives hd htail
  rw [← hts] at hout'
  cases hmissing : out'.tree.importStrings.find? (! hasModule ·.textD) with
  | some n => cases h.symm.trans (parse_eq_missing hlex hout' hmissing)
  | none =>
    have hall : ∀ n ∈ out'.tree.importStrings, hasModule n.textD = true := by
      intro n hn
      simpa using List.find?_eq_none.1 hmissing n hn
    cases h.symm.trans (hlocated hasModule out' hout' hall)
    exact ⟨hout', hall⟩

/-- A module that uses one module twice and one that is not there. -/
def twoUses : List Char := "import \"m\"\nimport \"n\"\nimport \"m\"\nvar x = 1\n".toList

theorem parse_with_locator_twoUses : ∃ ts out, lex TokenRule.jay twoUses = .ok ts ∧
    parse none ts = .ok out ∧
    out.tree.importStrings.map Node.asked = [⟨"m", 7⟩, ⟨"n", 18⟩, ⟨"m", 29⟩] ∧
    out.imports = [⟨"m", 7⟩, ⟨"n", 18⟩] ∧ parse (some fun _ => true) ts = .ok out ∧
    ∃ problem, parse (some (· == "m")) ts = .error (.parse problem 18) ∧
      problem.message = "could not locate module 'n'" := by
  have h : (do
      let ts ← lex TokenRule.jay twoUses
      let out ← parse none ts
      pure (out.tree.importStrings.map Node.asked)) =
        Except.ok [⟨"m", 7⟩, ⟨"n", 18⟩, ⟨"m", 29⟩] := by
    decide +kernel
  obtain ⟨ts, hlex, h⟩ := Except.bind_eq_ok.1 h
  obtain ⟨out, hparse, h⟩ := Except.bind_eq_ok.1 h
  have hasked := Except.ok.inj h
  obtain ⟨hlocated, himports, hmissing⟩ := parse_with_locator hlex
  have hfirst : out.imports = [⟨"m", 7⟩, ⟨"n", 18⟩] := by
    rw [(himports none out hparse).2, hasked]
    rfl
  have hthere : parse (some fun _ => true) ts = .ok out :=
    (hlocated _ out).2 ⟨hparse, fun _ _ => rfl⟩
  have hfind : (out.tree.importStrings.map Node.asked).find? (! ·.module == "m") =
      some ⟨"n", 18⟩ := by
    rw [hasked]
    rfl
  rw [List.find?_map] at hfind
  obtain ⟨n, hn, hnode⟩ := Option.map_eq_some_iff.1 hfind
  obtain ⟨htext, hposition⟩ := Import.mk.inj hnode
  obtain ⟨problem, herror, hmessage⟩ := hmissing (· == "m") out n hparse hn
  exact ⟨ts, out, hlex, hparse, hasked, hfirst, hthere, problem, hposition ▸ herror,
    hmessage.trans (by rw [htext]; rfl)⟩

end Jay

end JayFrontEnd
