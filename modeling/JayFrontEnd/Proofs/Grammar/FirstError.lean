import JayFrontEnd.Proofs.Grammar.Requests
import JayFrontEnd.Proofs.Grammar.Tree
import JayFrontEnd.Proofs.Lexing
import JayFrontEnd.Proofs.Parsing.Lookahead

/-!
# The first bad token

A parse that fails points at the first token that cannot stand where it does: the tokens before it
can be completed to a module, with it they cannot. The error is not further on, since it stands
after a beginning of a module. It is not before that token either: up to there the parser does what
it does over a completion, and once it has looked at the token this shows in its furthest error.
-/

namespace JayFrontEnd

/-! ## What a derivation is made of -/

theorem Derives.exists_kind {e : Phrase} {w rest : List String} (h : Derives e w rest) :
    ∀ x ∈ w, ∃ k : TokenKind, x = k.name := by
  induction h with
  | token => exact List.forall_mem_singleton.2 ⟨_, rfl⟩
  | newline => exact List.forall_mem_singleton.2 ⟨_, rfl⟩
  | seq _ _ ihe ihf => exact List.forall_mem_append.2 ⟨ihe, ihf⟩
  | more _ _ ihe ihm => exact List.forall_mem_append.2 ⟨ihe, ihm⟩
  | rule _ ih => exact ih
  | left _ ih => exact ih
  | right _ ih => exact ih
  | present _ ih => exact ih
  | _ => exact nofun

theorem Derives.eos_not_mem {e : Phrase} {w rest : List String} (h : Derives e w rest) :
    Token.eos ∉ w := by
  intro hmem
  obtain ⟨k, hk⟩ := h.exists_kind _ hmem
  cases k <;> exact absurd hk (by decide)

/-- Whether the texts of the phrase end with a line break, unless they are empty. -/
def Phrase.closes : Phrase → Bool
  | empty | lineEnd => true
  | token k => k == .newline
  | rule r => [.root, .importDirective, .declStatement].contains r
  | seq e f => f.closes && (e.closes || f.consumes)
  | alt e f => e.closes && f.closes
  | opt e | many e => e.closes

theorem Nonterminal.closes_production (r : Nonterminal) (h : (Phrase.rule r).closes = true) :
    r.production.closes = true := by
  cases r <;> first | rfl | cases h

/-- A text is empty or ends with a line break. -/
def Closed (w : List String) : Prop := w = [] ∨ w.getLast? = some Token.newline

theorem Closed.append {v w : List String} (hw : Closed w) (hv : w = [] → Closed v) :
    Closed (v ++ w) := by
  rcases hw with rfl | hw
  · rw [List.append_nil]
    exact hv rfl
  · exact .inr (by rw [List.getLast?_append, hw]; rfl)

theorem Derives.closed {e : Phrase} {w rest : List String} (h : Derives e w rest)
    (he : e.closes = true) : Closed w := by
  induction h with
  | empty => exact .inl rfl
  | @token k => exact .inr (by rw [beq_iff_eq.1 he]; rfl)
  | @rule r _ _ _ ih => exact ih (r.closes_production he)
  | seq _ hf ihe ihf =>
    obtain ⟨hcf, hce⟩ := Bool.and_eq_true_iff.1 he
    refine (ihf hcf).append fun hnil => ?_
    exact ihe ((Bool.or_eq_true_iff.1 hce).resolve_right fun hc => hf.ne_nil hc hnil)
  | left _ ih => exact ih (Bool.and_eq_true_iff.1 he).1
  | right _ ih => exact ih (Bool.and_eq_true_iff.1 he).2
  | absent => exact .inl rfl
  | present _ ih => exact ih he
  | done => exact .inl rfl
  | more _ _ ihe ihm => exact (ihm he).append fun _ => ihe he
  | newline => exact .inr rfl
  | atBrace => exact .inl rfl

namespace Jay

/-! ## Completions -/

/-- The tokens can be completed to some that the parser accepts. -/
def Viable (ts : List Token) : Prop := ∃ more out, parse none (ts ++ more) = .ok out

theorem Viable.of_append {ts us : List Token} (h : Viable (ts ++ us)) : Viable ts := by
  obtain ⟨more, out, h⟩ := h
  exact ⟨us ++ more, out, List.append_assoc .. ▸ h⟩

theorem Viable.take {ts : List Token} {m n : Nat} (h : Viable (ts.take n)) (hmn : m ≤ n) :
    Viable (ts.take m) := by
  rw [← List.take_append_drop m (ts.take n), List.take_take, Nat.min_eq_left hmn] at h
  exact h.of_append

theorem parse_ok_of_derives {w tail : List Token}
    (hd : Derives (.rule .root) (w.map (·.kind)) (tail.map (·.kind)))
    (htail : ∀ t ∈ tail, t.isLayout = true) : ∃ out, parse none (w ++ tail) = .ok out := by
  obtain ⟨tree, s, h, hend⟩ := apply_root_of_derives hd htail
  exact (Grammar.parse_ok_iff rfl).2 ⟨tree, s, h, List.all_eq_true.2 hend⟩

theorem viable_of_opens {ts : List Token} (h : (Phrase.rule .root).Opens (ts.map (·.kind))) :
    Viable ts := by
  obtain ⟨v, hv⟩ := h
  have hkinds : (ts ++ v.map fun k => (⟨0, k, none⟩ : Token)).map (·.kind) =
      ts.map (·.kind) ++ v := by simp [Function.comp_def]
  have hnone : ∀ t ∈ ([] : List Token), t.isLayout = true := nofun
  obtain ⟨out, hout⟩ := parse_ok_of_derives (hkinds ▸ hv []) hnone
  exact ⟨_, out, List.append_nil _ ▸ hout⟩

/-- Tokens that the end of the tokens closes can be completed only if they are accepted. -/
theorem parse_ok_of_viable {body : List Token} {last : Token} (hlast : last.kind = Token.eos)
    (h : Viable (body ++ [last])) : ∃ out, parse none (body ++ [last]) = .ok out := by
  obtain ⟨more, out, h⟩ := h
  obtain ⟨tree, s, hroot, hend⟩ := (Grammar.parse_ok_iff rfl).1 ⟨out, h⟩
  have hd := derives_of_apply_root hroot
  have hlayout := List.all_eq_true.1 hend
  have hmem : last ∈ body ++ [last] := List.mem_append_right _ (List.mem_singleton_self _)
  generalize body ++ [last] = ts at *
  -- the derivation stops before the end of the tokens
  have hcursor : s.cursor < ts.length := by
    refine Nat.lt_of_not_le fun hle => hd.eos_not_mem ?_
    rw [List.take_append, List.take_of_length_le hle, ← hlast]
    exact List.mem_map_of_mem (List.mem_append_left _ hmem)
  rw [List.take_append_of_le_length (Nat.le_of_lt hcursor),
    List.drop_append_of_le_length (Nat.le_of_lt hcursor)] at hd
  have hrest : ∀ t ∈ ts.drop s.cursor, t.isLayout = true := by
    intro t ht
    refine hlayout t ?_
    show t ∈ (ts ++ more).drop s.cursor
    rw [List.drop_append_of_le_length (Nat.le_of_lt hcursor)]
    exact List.mem_append_left _ ht
  have hhead : ((ts.drop s.cursor).map (·.kind)).head? =
      ((ts.drop s.cursor ++ more).map (·.kind)).head? := by
    rw [List.drop_eq_getElem_cons hcursor]
    rfl
  obtain ⟨out, hout⟩ := parse_ok_of_derives (hd.of_head?_eq hhead) hrest
  exact ⟨out, List.take_append_drop s.cursor ts ▸ hout⟩

/-! ## Where an error stands -/

variable {ts : List Token} {hasModule? : Option (String → Bool)} {apply : String → Parser Node}

/-- The last thing the root does is to look for a declaration where there is none. -/
theorem root_ends {s t : ParseState} {tree : Node}
    (h : Parser.wrapped Nonterminal.root.name (root.run (rootRules ts)) ⟨.tokens ts, hasModule?⟩ s =
      (.ok tree, t)) :
    ∃ u v err, declaration ts ⟨.tokens ts, hasModule?⟩ u = (.error (.backtrack err), v) ∧
      t = v.moveTo u.cursor ∧ v.furthest.isSome = true := by
  have hdeclaration := builds_declaration ts hasModule?
  obtain ⟨r, hrun⟩ := Parser.exists_of_wrapped h
  obtain ⟨_, _, -, hrun⟩ := Parser.bind_eq_ok.1 hrun
  obtain ⟨_, _, -, hrun⟩ := Parser.bind_eq_ok.1 hrun
  obtain ⟨_, _, hany, hrun⟩ := Parser.bind_eq_ok.1 hrun
  cases hrun
  obtain ⟨u, v, err, hfail, ht⟩ := hdeclaration.any_ends rfl (ParseState.length_kinds_le ..) hany
  refine ⟨u, v, err, hfail, ht, ?_⟩
  rcases hdeclaration.answers (ParseState.length_kinds_le ts u) with
    ⟨_, _, _, hok, -⟩ | ⟨_, _, herr, -, hsome⟩
  · cases hfail.symm.trans hok
  · cases hfail.symm.trans herr
    exact hsome

theorem lt_cursor_of_newline {s t : ParseState} {tree : Node} {x : Token}
    (hx : ts[s.cursor]? = some x) (hk : x.kind = Token.newline)
    (h : Parser.wrapped Nonterminal.root.name (root.run (rootRules ts)) ⟨.tokens ts, hasModule?⟩ s =
      (.ok tree, t)) : s.cursor < t.cursor := by
  obtain ⟨r, hrun⟩ := Parser.exists_of_wrapped h
  obtain ⟨_, u, hopt, hrun⟩ := Parser.bind_eq_ok.1 hrun
  have htoken : Parser.token TokenKind.newline.name ⟨.tokens ts, hasModule?⟩ s =
      (.ok (.ofToken x), s.moveTo (s.cursor + 1)) := Parser.token_of_kind hx hk
  have hu : u = s.moveTo (s.cursor + 1) := by
    have hopt' : Parser.optional (Parser.restoring (Parser.token TokenKind.newline.name))
      ⟨.tokens ts, hasModule?⟩ s = (.ok _, u) := hopt
    simp only [Parser.optional, Parser.restoring, htoken] at hopt'
    cases hopt'
    rfl
  rcases (builds_contents (builds_within ts hasModule?)).answers
      (ParseState.length_kinds_le ts u) with
    ⟨_, _, _, hok, hpass, -⟩ | ⟨_, _, herr, -⟩
  · cases hrun.symm.trans hok
    have := hpass.cursor
    have : u.cursor = s.cursor + 1 := by rw [hu]; rfl
    omega
  · cases hrun.symm.trans herr

/-- What a parse that fails says: the error is one of tokens, and stands after a beginning of a
module. -/
structure Points (ts : List Token) (fault : Fault) (j : Nat) : Prop where
  le_length : j ≤ ts.length
  opens : (Phrase.rule .root).Opens ((ts.take j).map (·.kind))
  fault : ∃ err : ParseError, err.ArisesIn ts ∧ err.offset = (Input.tokens ts).offset j ∧
    fault = err.fault

/-- How a parse fails: the root fails or stops too early, and the furthest error is reported. -/
theorem exists_of_parse_error {fault : Fault} (h : parse hasModule? ts = .error fault) :
    ∃ r t err, Parser.wrapped Nonterminal.root.name (root.run (rootRules ts))
        ⟨.tokens ts, hasModule?⟩ {} = (r, t) ∧ (∀ f, r ≠ .error (.fatal f)) ∧
      t.furthest = some err ∧ fault = err.fault ∧
      ParseState.Keeps ts (.rule .root) {} t := by
  rw [parse_eq] at h
  have hstart := Nat.le_of_eq (ParseState.length_kinds ts {})
  rcases (builds_module ts hasModule?).answers hstart with
    ⟨tree, t, _, hrun, -, -, -, hkeeps⟩ | ⟨err, t, hrun, hkeeps, hsome⟩
  · obtain ⟨u, v, _, -, rfl, hsome⟩ := root_ends hrun
    obtain ⟨err, hfurthest⟩ := Option.isSome_iff_exists.1 hsome
    replace hfurthest : (v.moveTo u.cursor).furthest = some err := hfurthest
    simp only [hrun] at h
    split at h
    · cases h
    · rw [hfurthest] at h
      exact ⟨_, _, err, hrun, (fun _ h => by cases h), hfurthest, (Except.error.inj h).symm, hkeeps⟩
  · obtain ⟨e, hfurthest⟩ := Option.isSome_iff_exists.1 hsome
    simp only [hrun, hfurthest] at h
    exact ⟨_, _, e, hrun, (fun _ h => by cases h), hfurthest, (Except.error.inj h).symm, hkeeps⟩

theorem exists_points {fault : Fault} (h : parse hasModule? ts = .error fault) :
    ∃ j, Points ts fault j := by
  obtain ⟨_, _, err, -, -, hfurthest, rfl, hkeeps⟩ := exists_of_parse_error h
  rcases hkeeps with hnone | ⟨err', herr', v, ⟨rest, hv⟩, hopens, hoffset, harises⟩
  · cases hfurthest.symm.trans hnone
  · cases hfurthest.symm.trans herr'
    rw [List.drop_zero] at hv
    refine ⟨v.length, ?_, ?_, err, harises, ?_, rfl⟩
    · rw [← hv, List.length_append]
      exact Nat.le_add_right ..
    · rw [← hv, List.take_left]
      exact hopens
    · rwa [Nat.zero_add] at hoffset

theorem message_ne_of_arisesIn {err : ParseError} (h : err.ArisesIn ts) :
    err.problem.message ≠ ParseProblem.unparsedRest.message := by
  have happend : ∀ {c : Char} {a b : String}, a.toList.head? = some c →
      (a ++ b).toList.head? = some c := by
    intro c a b ha
    obtain ⟨cs, hcs⟩ := List.head?_eq_some_iff.1 ha
    rw [String.toList_append, hcs]
    rfl
  -- the first letter tells
  have hfirst : err.problem.message.toList.head? = some 'e' ∨
      err.problem.message.toList.head? = some 'c' := by
    cases h with
    | expectedToken => exact .inl (happend (happend (happend (a := "expected ") rfl)))
    | expected => exact .inl (happend (a := "expected ") rfl)
    | unlocatedModule => exact .inr (happend (happend (a := "could not locate module '") rfl))
  intro heq
  rw [heq] at hfirst
  exact absurd hfirst (by decide)

/-! ## How far the parser has looked -/

/-- The rules do the same over two lists of tokens up to where they differ. -/
theorem local_rules {k : Nat} {us : List Token} (hk : Agrees k ts us) (name : String) :
    Local k ts us (rootRules ts name) (rootRules us name) := by
  refine (Local.respects hk).applyWithin (fun _ script _ hscript => ?_) _ _ trivial
  obtain ⟨r, -, rfl⟩ := exists_of_rule? hscript
  exact within_script r (fun _ _ _ => trivial) (fun _ => trivial) fun _ => trivial

theorem local_module {k : Nat} {us : List Token} (hk : Agrees k ts us) :
    Local k ts us (Parser.wrapped Nonterminal.root.name (root.run (rootRules ts)))
      (Parser.wrapped Nonterminal.root.name (root.run (rootRules us))) :=
  .wrapped hk _ ((Local.respects hk).run (fun name _ => local_rules hk name) root
    (within_script .root (fun _ _ _ => trivial) (fun _ => trivial) fun _ => trivial))

theorem local_declaration {k : Nat} {us : List Token} (hk : Agrees k ts us) :
    Local k ts us (declaration ts) (declaration us) :=
  (Local.respects hk).firstOf (fun name _ => local_rules hk name) _ ⟨trivial, trivial⟩

section Lexed

variable {text : List Char} {k : Nat} {t : ParseState} {tree : Node}

/-- The root does not stop before a line break, nor at the end of the tokens with more to come. -/
theorem isLayout_eq_false (hlex : Lexed text ts)
    (hrun : Parser.wrapped Nonterminal.root.name (root.run (rootRules ts)) ⟨.tokens ts, none⟩ {} =
      (.ok tree, t)) (hlt : t.cursor + 1 < ts.length) : ts[t.cursor].isLayout = false := by
  rw [Bool.eq_false_iff]
  intro hlayout
  rcases Bool.or_eq_true_iff.1 hlayout with hk | hk
  · -- a line break is taken if it comes first, and it comes after none
    replace hk := beq_iff_eq.1 hk
    have hd := derives_of_apply_root ((congrFun (apply_root_eq ts none) {}).trans hrun)
    cases hcursor : t.cursor with
    | zero =>
      have hfirst : ts[({} : ParseState).cursor]? = some ts[t.cursor] := by
        simp only [hcursor]
        exact List.getElem?_eq_getElem _
      have := lt_cursor_of_newline hfirst hk hrun
      exact absurd hcursor (Nat.ne_of_gt this)
    | succ c =>
      have hprevious : ts[c].kind = Token.newline := by
        rcases hd.closed rfl with hnil | hlast
        · rw [List.map_eq_nil_iff, List.take_eq_nil_iff] at hnil
          rcases hnil with hnil | hnil
          · omega
          · rw [hnil] at hlt
            cases hlt
        · rw [List.getLast?_map, List.getLast?_take, hcursor] at hlast
          simpa [List.getElem?_eq_getElem (show c < ts.length by omega)] using hlast
      refine (List.isChain_iff_getElem.1 hlex.separate c (by omega)) hprevious ?_
      simpa only [hcursor] using hk
  · obtain ⟨body, stop, rfl, hbody⟩ := hlex.ends
    rw [List.length_append, List.length_singleton] at hlt
    rw [List.getElem_append_left (by omega)] at hk
    exact hbody _ (List.getElem_mem _) (beq_iff_eq.1 hk)

/-- The parser has looked at the first token that cannot stand where it does. -/
theorem past_of_not_viable (hlex : Lexed text ts) (hk : k < ts.length)
    (hbefore : Viable (ts.take k)) (hbad : ¬ Viable (ts.take (k + 1))) {r : Except Failure Node}
    (hrun : Parser.wrapped Nonterminal.root.name (root.run (rootRules ts)) ⟨.tokens ts, none⟩ {} =
      (r, t)) (hfatal : ∀ f, r ≠ .error (.fatal f)) : t.Past ts k := by
  obtain ⟨more, out, hout⟩ := hbefore
  obtain ⟨tree, s, haccepts, hend⟩ := (Grammar.parse_ok_iff rfl).1 ⟨out, hout⟩
  rw [apply_root_eq] at haccepts
  have hagrees : Agrees k ts (ts.take k ++ more) := by
    refine ⟨hk, fun i hi => ?_, ?_, hlex.sorted⟩
    · rw [List.getElem?_append_left (by rw [List.length_take]; omega), List.getElem?_take_of_lt hi]
    · rw [List.length_append, List.length_take]
      omega
  have hmodule := local_module hagrees
  -- over the completion the parser succeeds, and it is not done before token `k`
  have hcases : Looked ts k (r, t) ∨ 0 < k ∧ r = .ok tree ∧ t = s ∧ s.cursor < k := by
    rw [← hrun]
    rcases Nat.eq_zero_or_pos k with hzero | hpos
    · exact .inl (hmodule.beyond (.inr (Nat.le_of_eq hzero)))
    · rcases hmodule.before (s := {}) hpos with h | ⟨fault, u, h⟩ | ⟨h, hstays⟩
      · exact .inl h
      · cases haccepts.symm.trans h
      · have heq := hrun.symm.trans (h.trans haccepts)
        cases heq
        exact .inr ⟨hpos, rfl, rfl, (hstays _ _ hrun).2⟩
  rcases hcases with hlooked | ⟨hpos, rfl, rfl, hlt⟩
  · rcases r with (e | fault) | tree'
    · exact hlooked
    · exact absurd rfl (hfatal fault)
    · refine hlooked.elim id fun hle => ?_
      -- what the root has taken is a module, so it has not taken token `k`
      have hd := derives_of_apply_root ((congrFun (apply_root_eq ts none) {}).trans hrun)
      have hcursor : t.cursor = k := by
        refine Nat.le_antisymm (Nat.le_of_not_lt fun hlt => hbad ?_) hle
        exact (viable_of_opens (Phrase.opens_of_derives hd)).take hlt
      obtain ⟨u, v, err, hfail, rfl, -⟩ := root_ends hrun
      have hbeyond : u.Beyond ts k := .inr (Nat.le_of_eq hcursor.symm)
      have hlast := (local_declaration hagrees).beyond hbeyond
      rw [hfail] at hlast
      exact hlast
  · have hlayout := isLayout_eq_false hlex hrun (by omega)
    have hmem : ts[t.cursor] ∈ (ts.take k ++ more).drop t.cursor := by
      refine List.mem_of_getElem? (i := 0) ?_
      rw [List.getElem?_drop, Nat.add_zero, hagrees.getElem? _ hlt]
      exact List.getElem?_eq_getElem _
    rw [List.all_eq_true.1 hend _ hmem] at hlayout
    cases hlayout

end Lexed

/-- There is a first token that cannot stand where it does, unless all of them can. -/
theorem exists_first_bad (h : ¬ Viable ts) :
    ∃ k < ts.length, Viable (ts.take k) ∧ ¬ Viable (ts.take (k + 1)) := by
  by_contra hnone
  -- otherwise one token after the other can stay
  have hall : ∀ k ≤ ts.length, Viable (ts.take k) := by
    intro k hk
    induction k with
    | zero => exact viable_of_opens (Phrase.opens_nil _)
    | succ k ih => exact by_contra fun hbad => hnone ⟨k, hk, ih (Nat.le_of_succ_le hk), hbad⟩
  exact h (ts.take_length ▸ hall _ (Nat.le_refl _))

/-- A text that lexes but does not parse: the error stands at the first token with which the tokens
so far cannot be completed to a module. No parse of tokens ever says that it did not go on. -/
theorem parse_error_at_first_bad :
    (∀ (text : List Char) (ts : List Token) (fault : Fault), lex TokenRule.jay text = .ok ts →
      parse none ts = .error fault → ∃ problem before t after, ts = before ++ t :: after ∧
        fault = .parse problem t.position ∧ Viable before ∧ ¬ Viable (before ++ [t])) ∧
    ∀ (ts : List Token) (hasModule? : Option (String → Bool)) (fault : Fault),
      parse hasModule? ts = .error fault → fault.message ≠ "did not parse further" := by
  refine ⟨fun text ts fault hlex h => ?_, fun ts hasModule? fault h => ?_⟩
  · have hlexed := lexed_of_lex hlex
    have hbad : ¬ Viable ts := by
      obtain ⟨body, stop, rfl, -⟩ := hlexed.ends
      intro hviable
      obtain ⟨out, hok⟩ := parse_ok_of_viable rfl hviable
      cases h.symm.trans hok
    obtain ⟨k, hk, hbefore, hafter⟩ := exists_first_bad hbad
    obtain ⟨j, hj⟩ := exists_points h
    obtain ⟨error, -, hj', rfl⟩ := hj.fault
    obtain ⟨r, s, err, hrun, hfatal, hfurthest, hfault, -⟩ := exists_of_parse_error h
    obtain ⟨e, he, hpast⟩ := past_of_not_viable hlexed hk hbefore hafter hrun hfatal
    cases he.symm.trans hfurthest
    rw [← (Fault.parse.inj hfault).2, hj'] at hpast
    -- neither after the token nor before it
    have hjk : j ≤ k := Nat.le_of_not_lt fun hlt => hafter ((viable_of_opens hj.opens).take hlt)
    have hordered : (Input.tokens ts).Ordered := hlexed.sorted
    have hoffset : (Input.tokens ts).offset j = ts[k].position := by
      rw [Nat.le_antisymm (Input.offset_mono hordered hjk) hpast]
      simp [Input.offset, List.getElem?_eq_getElem hk]
    refine ⟨_, ts.take k, ts[k], ts.drop (k + 1), ?_, congrArg _ (hj'.trans hoffset), hbefore, ?_⟩
    · rw [← List.drop_eq_getElem_cons hk, List.take_append_drop]
    · rwa [← List.take_succ_eq_append_getElem hk]
  · obtain ⟨_, _, _, error, harises, -, rfl⟩ := exists_points h
    exact message_ne_of_arisesIn harises

/-- An initialiser without a value. -/
theorem parse_error_at_first_bad_missingValue :
    ∃ ts fault, lex TokenRule.jay "var x =\n".toList = .ok ts ∧ parse none ts = .error fault ∧
      (∃ problem before t after, ts = before ++ t :: after ∧
        fault = .parse problem t.position ∧ Viable before ∧ ¬ Viable (before ++ [t])) ∧
      fault.message ≠ "did not parse further" := by
  have hlex : lex TokenRule.jay "var x =\n".toList = .ok [⟨0, "VAR", none⟩,
      ⟨4, "IDENTIFIER", some "x"⟩, ⟨6, "EQUALS", none⟩, ⟨7, "NEWLINE", none⟩,
      ⟨8, "EOS", none⟩] := by
    decide +kernel
  have hparse : parse none [⟨0, "VAR", none⟩, ⟨4, "IDENTIFIER", some "x"⟩, ⟨6, "EQUALS", none⟩,
      ⟨7, "NEWLINE", none⟩, ⟨8, "EOS", none⟩] =
      .error (.parse (.expectedToken "FLOAT" (some "NEWLINE")) 7) := by
    rfl
  exact ⟨_, _, hlex, hparse, parse_error_at_first_bad.1 _ _ _ hlex hparse,
    parse_error_at_first_bad.2 _ _ _ hparse⟩

end Jay

end JayFrontEnd
