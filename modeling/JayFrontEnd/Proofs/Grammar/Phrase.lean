import JayFrontEnd.Vocabulary.TokenKind

/-!
# Phrases of Jay

The grammar of Jay as data: `production` gives the phrase behind each name, and `Derives e w rest`
says that `e` derives the token kinds `w` when the kinds `rest` come after them. Only the end of a
statement looks at what comes after. `Takes` says the same of what is left before and after a
phrase. For the choices of a parser, a phrase tells which kinds it can start with, whether it can
be empty and whether it uses input.
-/

namespace JayFrontEnd

/-- The names in the grammar. -/
inductive Nonterminal where
  | root
  | importDirective
  | declStatement
  | statement
  | variableDecl
  | functionDecl
  | params
  | param
  | block
  | assignment
  | functionCall
  | callArgs
  | expression
  | product
  | parenthesis
  | basicExpression
  deriving DecidableEq, Repr

inductive Phrase where
  | empty
  | token (k : TokenKind)
  | rule (r : Nonterminal)
  | seq (first second : Phrase)
  | alt (first second : Phrase)
  | opt (e : Phrase)
  | many (e : Phrase)
  /-- A line break, which may be missing before a closing brace. -/
  | lineEnd

namespace Phrase

def all (es : List Phrase) : Phrase := es.foldr seq empty

def oneOf (e : Phrase) : List Phrase → Phrase
  | [] => e
  | f :: fs => alt e (oneOf f fs)

def term : Phrase := oneOf (rule .parenthesis) [rule .functionCall, rule .basicExpression]

end Phrase

open Phrase in
/-- The phrase behind a name. -/
def Nonterminal.production : Nonterminal → Phrase
  | root => all [opt (token .newline), many (rule .importDirective), many (rule .declStatement)]
  | importDirective => all [token .importKeyword, token .string, token .newline]
  | declStatement => all [oneOf (rule .functionDecl) [rule .variableDecl], token .newline]
  | statement =>
    all [oneOf (rule .variableDecl) [rule .assignment, rule .functionCall, rule .block], lineEnd]
  | variableDecl =>
    all [token .varKeyword, token .identifier, opt (token .identifier),
      opt (all [token .equals, rule .expression])]
  | functionDecl =>
    all [token .funcKeyword, token .identifier, token .parenStart, opt (rule .params),
      token .parenEnd, opt (token .identifier), rule .block]
  | params => all [rule .param, many (all [token .comma, rule .param])]
  | param => all [token .identifier, token .identifier]
  | block => all [token .curlStart, opt (token .newline), many (rule .statement), token .curlEnd]
  | assignment => all [token .identifier, token .equals, rule .expression]
  | functionCall =>
    all [token .identifier, opt (all [token .dot, token .identifier]), token .parenStart,
      opt (rule .callArgs), token .parenEnd]
  | callArgs => all [rule .expression, many (all [token .comma, rule .expression])]
  | expression =>
    all [rule .product, opt (all [oneOf (token .add) [token .sub], rule .expression])]
  | product => all [term, opt (all [oneOf (token .mul) [token .div], rule .product])]
  | parenthesis => all [token .parenStart, rule .expression, token .parenEnd]
  | basicExpression =>
    oneOf (token .identifier) [token .string, token .integer, token .float]

/-- The phrase derives the kinds, when others come after them. -/
inductive Derives : Phrase → List String → List String → Prop where
  | empty {rest : List String} : Derives .empty [] rest
  | token {k : TokenKind} {rest : List String} : Derives (.token k) [k.name] rest
  | rule {r : Nonterminal} {w rest : List String} : Derives r.production w rest →
      Derives (.rule r) w rest
  | seq {e f : Phrase} {v w rest : List String} : Derives e v (w ++ rest) → Derives f w rest →
      Derives (.seq e f) (v ++ w) rest
  | left {e f : Phrase} {w rest : List String} : Derives e w rest → Derives (.alt e f) w rest
  | right {e f : Phrase} {w rest : List String} : Derives f w rest → Derives (.alt e f) w rest
  | absent {e : Phrase} {rest : List String} : Derives (.opt e) [] rest
  | present {e : Phrase} {w rest : List String} : Derives e w rest → Derives (.opt e) w rest
  | done {e : Phrase} {rest : List String} : Derives (.many e) [] rest
  | more {e : Phrase} {v w rest : List String} : Derives e v (w ++ rest) →
      Derives (.many e) w rest → Derives (.many e) (v ++ w) rest
  | newline {rest : List String} : Derives .lineEnd [TokenKind.newline.name] rest
  | atBrace {rest : List String} : Derives .lineEnd [] (TokenKind.curlEnd.name :: rest)

namespace Phrase

/-- The phrase leads from some kinds that are left to others. -/
def Takes (e : Phrase) (s t : List String) : Prop := ∃ w, s = w ++ t ∧ Derives e w t

variable {e f : Phrase} {s t : List String}

theorem takes_empty : Phrase.empty.Takes s t ↔ s = t := by
  constructor
  · rintro ⟨w, rfl, h⟩
    cases h
    rfl
  · rintro rfl
    exact ⟨[], rfl, .empty⟩

theorem takes_token {k : TokenKind} : (token k).Takes s t ↔ s = k.name :: t := by
  constructor
  · rintro ⟨w, rfl, h⟩
    cases h
    rfl
  · rintro rfl
    exact ⟨[k.name], rfl, .token⟩

theorem takes_rule {r : Nonterminal} : (rule r).Takes s t ↔ r.production.Takes s t := by
  constructor
  · rintro ⟨w, rfl, h⟩
    cases h with
    | rule h => exact ⟨w, rfl, h⟩
  · rintro ⟨w, rfl, h⟩
    exact ⟨w, rfl, .rule h⟩

theorem takes_seq : (seq e f).Takes s t ↔ ∃ u, e.Takes s u ∧ f.Takes u t := by
  constructor
  · rintro ⟨w, rfl, h⟩
    cases h with
    | @seq _ _ v w _ he hf => exact ⟨w ++ t, ⟨v, List.append_assoc .., he⟩, w, rfl, hf⟩
  · rintro ⟨u, ⟨v, rfl, he⟩, w, rfl, hf⟩
    exact ⟨v ++ w, (List.append_assoc ..).symm, .seq he hf⟩

theorem takes_token_seq {k : TokenKind} :
    (seq (token k) f).Takes s t ↔ ∃ u, s = k.name :: u ∧ f.Takes u t := by
  simp only [takes_seq, takes_token]

theorem takes_alt : (alt e f).Takes s t ↔ e.Takes s t ∨ f.Takes s t := by
  constructor
  · rintro ⟨w, rfl, h⟩
    cases h with
    | left h => exact .inl ⟨w, rfl, h⟩
    | right h => exact .inr ⟨w, rfl, h⟩
  · rintro (⟨w, rfl, h⟩ | ⟨w, rfl, h⟩)
    · exact ⟨w, rfl, .left h⟩
    · exact ⟨w, rfl, .right h⟩

theorem takes_opt : (opt e).Takes s t ↔ s = t ∨ e.Takes s t := by
  constructor
  · rintro ⟨w, rfl, h⟩
    cases h with
    | absent => exact .inl rfl
    | present h => exact .inr ⟨w, rfl, h⟩
  · rintro (rfl | ⟨w, rfl, h⟩)
    · exact ⟨[], rfl, .absent⟩
    · exact ⟨w, rfl, .present h⟩

theorem takes_many : (many e).Takes s t ↔ s = t ∨ ∃ u, e.Takes s u ∧ (many e).Takes u t := by
  constructor
  · rintro ⟨w, rfl, h⟩
    cases h with
    | done => exact .inl rfl
    | @more _ v w _ he hm => exact .inr ⟨w ++ t, ⟨v, List.append_assoc .., he⟩, w, rfl, hm⟩
  · rintro (rfl | ⟨u, ⟨v, rfl, he⟩, w, rfl, hm⟩)
    · exact ⟨[], rfl, .done⟩
    · exact ⟨v ++ w, (List.append_assoc ..).symm, .more he hm⟩

theorem takes_lineEnd : lineEnd.Takes s t ↔
    s = TokenKind.newline.name :: t ∨ s = t ∧ t.head? = some TokenKind.curlEnd.name := by
  constructor
  · rintro ⟨w, rfl, h⟩
    cases h with
    | newline => exact .inl rfl
    | atBrace => exact .inr ⟨rfl, rfl⟩
  · rintro (rfl | ⟨rfl, h⟩)
    · exact ⟨_, rfl, .newline⟩
    · cases s with
      | nil => cases h
      | cons k s =>
        cases h
        exact ⟨[], rfl, .atBrace⟩

end Phrase

/-! ## What a phrase starts with -/

namespace Nonterminal

/-- The kinds that the phrase behind a name can start with. -/
def heads : Nonterminal → List TokenKind
  | root => [.newline, .importKeyword, .funcKeyword, .varKeyword]
  | importDirective => [.importKeyword]
  | declStatement => [.funcKeyword, .varKeyword]
  | statement => [.varKeyword, .identifier, .curlStart]
  | variableDecl => [.varKeyword]
  | functionDecl => [.funcKeyword]
  | params | param | assignment | functionCall => [.identifier]
  | block => [.curlStart]
  | callArgs | expression | product => [.parenStart, .identifier, .string, .integer, .float]
  | parenthesis => [.parenStart]
  | basicExpression => [.identifier, .string, .integer, .float]

end Nonterminal

namespace Phrase

/-- Whether the phrase can be empty, whatever comes after it. -/
def passes : Phrase → Bool
  | empty | opt _ | many _ => true
  | token _ | lineEnd => false
  | rule r => r == .root
  | seq e f => e.passes && f.passes
  | alt e f => e.passes || f.passes

/-- The kinds that can come first where the phrase stands, unless it is empty. -/
def heads : Phrase → List TokenKind
  | empty => []
  | token k => [k]
  | rule r => r.heads
  | seq e f => e.heads ++ if e.passes then f.heads else []
  | alt e f => e.heads ++ f.heads
  | opt e | many e => e.heads
  | lineEnd => [.newline, .curlEnd]

/-- Whether the phrase uses input. -/
def consumes : Phrase → Bool
  | empty | opt _ | many _ | lineEnd => false
  | token _ => true
  | rule r => r != .root
  | seq e f => e.consumes || f.consumes
  | alt e f => e.consumes && f.consumes

end Phrase

theorem Nonterminal.heads_production (r : Nonterminal) :
    ∀ k ∈ r.production.heads, k ∈ r.heads := by
  cases r <;> decide

theorem Nonterminal.passes_production (r : Nonterminal) :
    r.production.passes = (Phrase.rule r).passes := by
  cases r <;> rfl

theorem Nonterminal.consumes_production (r : Nonterminal) :
    r.production.consumes = (Phrase.rule r).consumes := by
  cases r <;> rfl

/-- One of the kinds comes first. -/
def StartsWith (ks : List TokenKind) (s : List String) : Prop := ∃ k ∈ ks, s.head? = some k.name

theorem StartsWith.mono {ks ls : List TokenKind} {s : List String} (h : StartsWith ks s)
    (hks : ∀ k ∈ ks, k ∈ ls) : StartsWith ls s := by
  obtain ⟨k, hk, hs⟩ := h
  exact ⟨k, hks k hk, hs⟩

theorem Derives.startsWith {e : Phrase} {w rest : List String} (h : Derives e w rest) :
    StartsWith e.heads (w ++ rest) ∨ e.passes = true ∧ w = [] := by
  induction h with
  | empty => exact .inr ⟨rfl, rfl⟩
  | token => exact .inl ⟨_, List.mem_singleton_self _, rfl⟩
  | @rule r w rest _ ih =>
    rw [r.passes_production] at ih
    exact ih.imp_left (·.mono r.heads_production)
  | @seq e f v w rest _ _ ihe ihf =>
    rcases ihe with he | ⟨he, rfl⟩
    · rw [List.append_assoc]
      exact .inl (he.mono fun _ => List.mem_append_left _)
    · rcases ihf with hf | ⟨hf, rfl⟩
      · refine .inl (hf.mono fun k hk => List.mem_append_right _ ?_)
        rwa [if_pos he]
      · exact .inr ⟨by rw [Phrase.passes, he, hf]; rfl, rfl⟩
  | left _ ih =>
    refine ih.imp (·.mono fun _ => List.mem_append_left _) fun h => ⟨?_, h.2⟩
    rw [Phrase.passes, h.1, Bool.true_or]
  | right _ ih =>
    refine ih.imp (·.mono fun _ => List.mem_append_right _) fun h => ⟨?_, h.2⟩
    rw [Phrase.passes, h.1, Bool.or_true]
  | absent => exact .inr ⟨rfl, rfl⟩
  | present _ ih => exact ih.imp id fun h => ⟨rfl, h.2⟩
  | done => exact .inr ⟨rfl, rfl⟩
  | @more e v w rest _ _ ihe ihm =>
    rcases ihe with he | ⟨-, rfl⟩
    · rw [List.append_assoc]
      exact .inl he
    · exact ihm
  | newline => exact .inl ⟨.newline, List.mem_cons_self .., rfl⟩
  | atBrace => exact .inl ⟨.curlEnd, List.mem_cons_of_mem _ (List.mem_cons_self ..), rfl⟩

theorem Derives.ne_nil {e : Phrase} {w rest : List String} (h : Derives e w rest)
    (he : e.consumes = true) : w ≠ [] := by
  induction h with
  | token => exact List.cons_ne_nil _ _
  | @rule r w rest _ ih => exact ih (r.consumes_production.trans he)
  | @seq e f v w rest _ _ ihe ihf =>
    intro hnil
    obtain ⟨hv, hw⟩ := List.append_eq_nil_iff.1 hnil
    rcases Bool.or_eq_true_iff.1 he with he | hf
    · exact ihe he hv
    · exact ihf hf hw
  | left _ ih => exact ih (Bool.and_eq_true_iff.1 he).1
  | right _ ih => exact ih (Bool.and_eq_true_iff.1 he).2
  | _ => cases he

namespace Phrase

variable {e : Phrase} {s t : List String}

theorem Takes.startsWith (h : e.Takes s t) : StartsWith e.heads s ∨ e.passes = true ∧ s = t := by
  obtain ⟨w, rfl, h⟩ := h
  exact h.startsWith.imp_right fun h => ⟨h.1, by rw [h.2]; rfl⟩

theorem Takes.length_le (h : e.Takes s t) : t.length ≤ s.length := by
  obtain ⟨w, rfl, -⟩ := h
  rw [List.length_append]
  omega

theorem Takes.length_lt (h : e.Takes s t) (he : e.consumes = true) : t.length < s.length := by
  obtain ⟨w, rfl, h⟩ := h
  have := List.length_pos_iff.2 (h.ne_nil he)
  rw [List.length_append]
  omega

end Phrase

/-! ## What comes after a phrase -/

/-- None of the kinds comes first. -/
def Clear (ks : List TokenKind) (s : List String) : Prop := ∀ k ∈ ks, s.head? ≠ some k.name

theorem Clear.mono {ks ls : List TokenKind} {s : List String} (h : Clear ls s)
    (hks : ∀ k ∈ ks, k ∈ ls) : Clear ks s :=
  fun k hk => h k (hks k hk)

theorem StartsWith.clear {ks ls : List TokenKind} {s : List String} (h : StartsWith ls s)
    (hks : ∀ k ∈ ls, k ∉ ks) : Clear ks s := by
  obtain ⟨l, hl, hs⟩ := h
  intro k hk hs'
  have : l = k := TokenKind.name_injective (Option.some.inj (hs.symm.trans hs'))
  exact hks l hl (this ▸ hk)

/-- Where the phrase stands, none of the kinds `ks` comes first, if none of `ls` comes after it. -/
def Phrase.clears (e : Phrase) (ks ls : List TokenKind) : Bool :=
  e.heads.all (!ks.contains ·) && (!e.passes || ks.all (ls.contains ·))

theorem Phrase.Takes.clear {e : Phrase} {s t : List String} {ks ls : List TokenKind}
    (h : e.Takes s t) (hc : Clear ls t) (he : e.clears ks ls = true) : Clear ks s := by
  simp only [clears, Bool.and_eq_true, Bool.or_eq_true, Bool.not_eq_true', List.all_eq_true,
    List.contains_eq_mem, decide_eq_true_eq, decide_eq_false_iff_not] at he
  rcases h.startsWith with hs | ⟨hp, rfl⟩
  · exact hs.clear he.1
  · exact hc.mono (he.2.resolve_left (by rw [hp]; exact Bool.noConfusion))

/-- No text is taken by both phrases. -/
def Phrase.apart (e f : Phrase) : Bool :=
  !e.passes && !f.passes && e.heads.all (!f.heads.contains ·)

theorem Phrase.Takes.apart {e f : Phrase} {s t u : List String} (h : e.Takes s t)
    (h' : f.Takes s u) (hef : e.apart f = true) : False := by
  simp only [Phrase.apart, Bool.and_eq_true, Bool.not_eq_true', List.all_eq_true,
    List.contains_eq_mem, decide_eq_false_iff_not] at hef
  obtain ⟨⟨he, hf⟩, hheads⟩ := hef
  rcases h.startsWith with hs | ⟨hp, -⟩
  · rcases h'.startsWith with hs' | ⟨hp, -⟩
    · obtain ⟨k, hk, hks⟩ := hs'
      exact (hs.clear hheads) k hk hks
    · rw [hf] at hp
      cases hp
  · rw [he] at hp
    cases hp

end JayFrontEnd
