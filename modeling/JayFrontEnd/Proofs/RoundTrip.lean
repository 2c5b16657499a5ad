import JayFrontEnd.Proofs.Lexing
import JayFrontEnd.Proofs.Spelling
import Mathlib.Data.List.TakeWhile

/-!
# Writing tokens and reading them

`Written` says that a text is made of tokens, each spelled at its position, and of what may stand
between them. A text has tokens with the rules of Jay if and only if it is written so, and they are
the ones that it is made of. Which token stands at a place is settled by its first character, but
for three cases: a comment before a division, a float before an integer and a keyword before a name.
-/

namespace JayFrontEnd

open Text

namespace TokenKind

/-! ## The first character -/

/-- The last in order of the kinds whose tokens may begin alike. -/
def family : TokenKind → TokenKind
  | comment => div
  | importKeyword | varKeyword | funcKeyword => identifier
  | float => integer
  | k => k

/-- The family of the tokens that begin by a character. -/
def familyOf? (c : Char) : Option TokenKind :=
  if isAsciiDigit c then some integer
  else if isNameStart c then some identifier
  else if c = '\n' ∨ c = '\r' then some newline
  else if c = ' ' ∨ c = '\t' then some whitespace
  else if c = '"' then some string
  else all.find? (·.sign? == some [c])

variable {j k : TokenKind} {text : Option String} {c : Char} {cs rest t : List Char} {l : Lexeme}

theorem eq_whitespace (h : k.family = whitespace) : k = whitespace := by
  cases k <;> first | rfl | cases h

theorem mem_all (k : TokenKind) : k ∈ all := by cases k <;> decide

theorem familyOf?_digit (hc : isAsciiDigit c = true) : familyOf? c = some integer := if_pos hc

theorem familyOf?_nameStart (hc : isNameStart c = true) : familyOf? c = some identifier := by
  have hdigit : ¬ isAsciiDigit c = true := by
    rw [isNameStart_iff] at hc
    rw [isAsciiDigit_iff]
    omega
  rw [familyOf?, if_neg hdigit, if_pos hc]

theorem familyOf?_of_spelling (h : Spelling k text (c :: cs)) : familyOf? c = some k.family := by
  generalize hds : c :: cs = ds at h
  cases h with
  | comment =>
    cases hds
    rfl
  | newline hne hbreaks =>
    obtain ⟨b, breaks, rfl⟩ := List.exists_cons_of_ne_nil hne
    rcases hbreaks b (List.mem_cons_self ..) with rfl | rfl <;> cases hds <;> rfl
  | whitespace _ hcs =>
    rcases hcs c (hds ▸ List.mem_cons_self ..) with rfl | rfl <;> rfl
  | sign hsign =>
    subst hds
    cases k <;> cases hsign <;> rfl
  | string =>
    cases hds
    rfl
  | float has =>
    obtain ⟨a, as, rfl⟩ := List.exists_cons_of_ne_nil has.1
    cases hds
    exact familyOf?_digit (has.2 c (List.mem_cons_self ..))
  | integer hdigits => exact familyOf?_digit (hdigits.2 c (hds ▸ List.mem_cons_self ..))
  | identifier hname =>
    obtain ⟨d, ds, rfl, hd, -⟩ := hname
    cases hds
    exact familyOf?_nameStart hd

theorem familyOf?_eq_none (hc : 128 ≤ c.toNat) : familyOf? c = none := by
  have hdigit : ¬ isAsciiDigit c = true := by
    rw [isAsciiDigit_iff]
    omega
  have hname : ¬ isNameStart c = true := by
    rw [isNameStart_iff]
    omega
  have hne : ∀ d : Char, d.toNat < 128 → c ≠ d := by
    rintro d hd rfl
    omega
  rw [familyOf?, if_neg hdigit, if_neg hname, if_neg (by simp [hne]), if_neg (by simp [hne]),
    if_neg (by simp [hne]), List.find?_eq_none]
  intro k _ hk
  rw [beq_iff_eq] at hk
  have hsign : ∀ {d : Char}, k.sign? = some [d] → d.toNat < 128 := by
    intro d hd
    cases k <;> cases hd <;> decide
  exact hne c (hsign hk) rfl

/-- Two kinds that take the beginning of the same text are of one family. -/
theorem family_eq {l' : Lexeme} (hj : j.rule.take? t = some l) (hk : k.rule.take? t = some l') :
    j.family = k.family := by
  obtain ⟨as, has, hjs, -⟩ := take?_eq_some_iff.1 hj
  obtain ⟨bs, hbs, hks, -⟩ := take?_eq_some_iff.1 hk
  obtain ⟨a, as, rfl⟩ := List.exists_cons_of_ne_nil has.ne_nil
  obtain ⟨b, bs, rfl⟩ := List.exists_cons_of_ne_nil hbs.ne_nil
  obtain rfl : a = b := (List.cons.inj (has.text.symm.trans hbs.text)).1
  exact Option.some.inj ((familyOf?_of_spelling hjs).symm.trans (familyOf?_of_spelling hks))

/-- No rule takes any of a text that begins by a character beyond ASCII. -/
theorem stuck_of_not_ascii (hc : 128 ≤ c.toNat) : Stuck TokenRule.jay (c :: cs) := by
  refine ⟨List.cons_ne_nil _ _, fun r hr => ?_⟩
  rw [jay_eq] at hr
  obtain ⟨k, -, rfl⟩ := List.mem_map.1 hr
  rw [Option.eq_none_iff_forall_ne_some]
  intro l hl
  obtain ⟨ds, hds, hspelling, -⟩ := take?_eq_some_iff.1 hl
  obtain ⟨d, ds, rfl⟩ := List.exists_cons_of_ne_nil hds.ne_nil
  obtain rfl : c = d := (List.cons.inj hds.text).1
  have hfamily := familyOf?_of_spelling hspelling
  rw [familyOf?_eq_none hc] at hfamily
  cases hfamily

-- Before a letter beyond ASCII `import` is no keyword, and read as a name it leaves that letter.
example : lex TokenRule.jay "importé".toList = .error (.unexpectedInput 6) := by decide +kernel

/-! ## The first rule -/

/-- The token is not the beginning of another one that goes first. -/
def Apart : TokenKind → List Char → List Char → Prop
  | div, _, rest => ¬ ['/'] <+: rest
  | integer, _, rest => ∀ d, isAsciiDigit d = true → ¬ ['.', d] <+: rest
  | identifier, cs, _ => ∀ k : TokenKind, k.isKeyword = true → k.sign? ≠ some cs
  | _, _, _ => True

/-- The kinds that go before. -/
def before (k : TokenKind) : List TokenKind := all.takeWhile (· != k)

theorem all_eq (k : TokenKind) : ∃ after, all = k.before ++ k :: after := by
  cases k <;> exact ⟨_, rfl⟩

theorem ne_of_mem_before (h : j ∈ k.before) : j ≠ k := by
  have hne := List.mem_takeWhile_imp (p := (· != k)) h
  exact bne_iff_ne.1 hne

/-- What stands before a kind among all of them. -/
theorem before_eq {as bs : List TokenKind} (h : all = as ++ k :: bs) : k.before = as := by
  have hnodup : all.Nodup := by decide
  rw [h] at hnodup
  have hne : ∀ j ∈ as, (j != k) = true := fun j hj =>
    bne_iff_ne.2 ((List.nodup_append.1 hnodup).2.2 j hj k (List.mem_cons_self ..))
  rw [before, h, List.takeWhile_append_of_pos hne, List.takeWhile_cons, bne_self_eq_false]
  simp

theorem keyword_before (h : k.isKeyword = true) : k ∈ identifier.before := by
  cases k <;> first | exact absurd h (by decide) | decide

/-- The kinds of one family. -/
theorem rivals : ∀ k ∈ all, ∀ j ∈ k.before, j.family = k.family →
    j = comment ∧ k = div ∨ j = float ∧ k = integer ∨
      j.isKeyword = true ∧ (k = identifier ∨ k.isKeyword = true) := by decide

/-- Two runs of characters that begin the same text, each as long as it can be. -/
theorem run_unique {P : Char → Prop} {as bs x y : List Char} (has : ∀ a ∈ as, P a)
    (hbs : ∀ b ∈ bs, P b) (hx : ∀ c ∈ x.head?, ¬ P c) (hy : ∀ c ∈ y.head?, ¬ P c)
    (h : as ++ x = bs ++ y) : as = bs ∧ x = y := by
  induction as generalizing bs with
  | nil =>
    cases bs with
    | nil => exact ⟨rfl, h⟩
    | cons b bs =>
      have hb : b ∈ x.head? := by
        rw [show x = b :: bs ++ y from h]
        rfl
      exact absurd (hbs b (List.mem_cons_self ..)) (hx b hb)
  | cons a as ih =>
    cases bs with
    | nil =>
      have ha : a ∈ y.head? := by
        rw [show y = a :: as ++ x from h.symm]
        rfl
      exact absurd (has a (List.mem_cons_self ..)) (hy a ha)
    | cons b bs =>
      obtain ⟨rfl, htail⟩ := List.cons.inj h
      obtain ⟨rfl, rfl⟩ := ih (fun a ha => has a (List.mem_cons_of_mem _ ha))
        (fun b hb => hbs b (List.mem_cons_of_mem _ hb)) htail
      exact ⟨rfl, rfl⟩

theorem sign_of_keyword (hk : k.isKeyword = true) (h : Spelling k text cs) :
    k.sign? = some cs := by
  cases h with
  | sign hsign => exact hsign
  | _ => exact absurd hk (by decide)

theorem isNameChar_of_keyword (hk : k.isKeyword = true) (hsign : k.sign? = some cs) :
    ∀ c ∈ cs, isNameChar c = true := by
  refine List.all_eq_true.1 ?_
  cases k <;> first | exact absurd hk (by decide) | (cases hsign; rfl)

theorem not_isNameChar_of_stops (hk : k.isKeyword = true) (h : k.Stops rest) :
    ∀ c ∈ rest.head?, ¬ isNameChar c = true := by
  intro c hc hname
  have hlt : c.toNat < 128 := by
    rw [isNameChar_iff] at hname
    omega
  exact (stops_keyword_iff hk).1 h c hc (isWordChar_iff_of_lt hlt ▸ hname)

/-- No keyword is the beginning of another one. -/
theorem keyword_unique {as bs x y : List Char} (hj : j.isKeyword = true)
    (hk : k.isKeyword = true) (has : j.sign? = some as) (hbs : k.sign? = some bs)
    (h : as ++ x = bs ++ y) : j = k := by
  cases j <;> first
    | exact absurd hj (by decide)
    | (cases k <;> first
        | rfl
        | exact absurd hk (by decide)
        | (cases has; cases hbs; exact absurd (List.cons.inj h).1 (by decide)))

/-- A token that may end where it does, and is apart from those that go first, is taken. -/
theorem firstTaker_of_spelling (h : Spelling k text cs) (hstops : k.Stops rest)
    (hapart : k.Apart cs rest) :
    FirstTaker TokenRule.jay (cs ++ rest) k.rule ⟨byteLength cs, text, rest⟩ := by
  have htakes := take?_of_spelling h hstops
  obtain ⟨after, hall⟩ := k.all_eq
  have hrules : TokenRule.jay = k.before.map rule ++ k.rule :: after.map rule := by
    rw [jay_eq, hall, List.map_append, List.map_cons]
  refine ⟨⟨_, _, hrules, fun q hq => ?_⟩, htakes⟩
  obtain ⟨j, hj, rfl⟩ := List.mem_map.1 hq
  rw [Option.eq_none_iff_forall_ne_some]
  rintro ⟨size, text', rest'⟩ hl
  have hfamily := family_eq hl htakes
  obtain ⟨as, ⟨htext, -, -⟩, hspelling, hstops'⟩ := take?_eq_some_iff.1 hl
  dsimp only at htext hspelling hstops'
  rcases rivals k k.mem_all j hj hfamily with ⟨rfl, rfl⟩ | ⟨rfl, rfl⟩ | ⟨hkeyword, hk⟩
  · cases h with
    | sign hsign =>
      cases hsign
      cases hspelling with
      | sign hsign => cases hsign
      | comment =>
        obtain ⟨-, hrest⟩ := List.cons.inj htext
        exact hapart ⟨_, hrest.symm⟩
  · cases h with
    | sign hsign => cases hsign
    | integer hdigits =>
      cases hspelling with
      | sign hsign => cases hsign
      | @float as bs has hbs =>
        rw [List.append_assoc] at htext
        obtain ⟨-, rfl⟩ := run_unique hdigits.2 has.2 (forall_single_iff.1 hstops)
          (by rintro c ⟨⟩; decide) htext
        obtain ⟨b, bs, rfl⟩ := List.exists_cons_of_ne_nil hbs.1
        exact hapart b (hbs.2 b (List.mem_cons_self ..)) ⟨_, rfl⟩
  · have hsign := sign_of_keyword hkeyword hspelling
    rcases hk with rfl | hk
    · cases h with
      | sign hsign => cases hsign
      | identifier hname =>
        obtain ⟨rfl, -⟩ := run_unique hname.forall (isNameChar_of_keyword hkeyword hsign)
          (forall_single_iff.1 hstops) (not_isNameChar_of_stops hkeyword hstops') htext
        exact hapart j hkeyword hsign
    · have hjk := keyword_unique hkeyword hk hsign (sign_of_keyword hk h) htext.symm
      exact absurd hjk (ne_of_mem_before hj)

/-- The first rule that takes any of a text takes a token that may end where it does and is apart
from those that go first, if what is left can be cut further. -/
theorem spelling_of_firstTaker {r : TokenRule} (h : FirstTaker TokenRule.jay t r l)
    (hrest : ¬ Stuck TokenRule.jay l.rest) : ∃ k cs, r = k.rule ∧ l.Takes cs t ∧
      Spelling k l.text cs ∧ k.Stops l.rest ∧ k.Apart cs l.rest := by
  obtain ⟨k, rfl, hnone⟩ : ∃ k : TokenKind, r = k.rule ∧
      ∀ j ∈ k.before, j.rule.take? t = none := by
    obtain ⟨before, after, hrules, hnone⟩ := h.first
    rw [jay_eq] at hrules
    obtain ⟨as, bs, hall, rfl, hbs⟩ := List.map_eq_append_iff.1 hrules
    obtain ⟨k, bs, rfl, rfl, -⟩ := List.map_eq_cons_iff.1 hbs
    refine ⟨k, rfl, fun j hj => hnone _ (List.mem_map_of_mem ?_)⟩
    rw [before_eq hall] at hj
    exact hj
  obtain ⟨cs, htakes, hspelling, hstops⟩ := take?_eq_some_iff.1 h.takes
  have htext := htakes.text
  refine ⟨k, cs, rfl, htakes, hspelling, hstops, ?_⟩
  generalize l.text = text at hspelling
  cases k <;> try exact trivial
  case div =>
    rintro ⟨rest, hprefix⟩
    cases hspelling with
    | sign hsign =>
      cases hsign
      have hcomment : Spelling .comment none ['/', '/'] := .comment nofun
      obtain ⟨l', hl'⟩ := exists_take? hcomment rfl rest
      rw [show t = ['/', '/'] ++ rest by rw [htext, ← hprefix]; rfl] at hnone
      rw [hnone comment (by decide)] at hl'
      cases hl'
  case integer =>
    rintro d hd ⟨rest, hprefix⟩
    cases hspelling with
    | sign hsign => cases hsign
    | integer hdigits =>
      have hpart : IsDigits [d] := ⟨List.cons_ne_nil _ _, List.forall_mem_singleton.2 hd⟩
      obtain ⟨l', hl'⟩ := exists_take? (Spelling.float hdigits hpart) rfl rest
      rw [show t = cs ++ '.' :: [d] ++ rest by rw [htext, ← hprefix]; simp] at hnone
      rw [hnone float (by decide)] at hl'
      cases hl'
  case identifier =>
    intro j hj hsign
    have hstops' : j.Stops l.rest := by
      rw [stops_keyword_iff hj]
      intro c hc hword
      obtain ⟨rest, hl⟩ := List.head?_eq_some_iff.1 hc
      have hlarge : 128 ≤ c.toNat := by
        by_contra hlt
        rw [isWordChar_iff_of_lt (Nat.lt_of_not_le hlt)] at hword
        exact forall_single_iff.1 hstops c hc hword
      rw [hl] at hrest
      exact hrest (stuck_of_not_ascii hlarge)
    have hl' := take?_of_spelling (.sign hsign) hstops'
    rw [← htext, hnone j (keyword_before hj)] at hl'
    cases hl'

end TokenKind

/-! ## Texts made of tokens -/

/-- From byte `c` on, the text is made of the tokens, each spelled at its position, and of what is
read past between them: white space, comments and the line breaks after a line break. Whether the
last token before was one is said first. -/
inductive Written : Bool → Nat → List Char → List Token → Prop where
  | done {afterBreak : Bool} {c : Nat} : Written afterBreak c [] []
  | trivia {afterBreak : Bool} {c : Nat} {k : TokenKind} {text : Option String}
      {cs rest : List Char} {ts : List Token} : k.omitted = true → Spelling k text cs →
      k.Stops rest → Written afterBreak (c + byteLength cs) rest ts →
      Written afterBreak c (cs ++ rest) ts
  | blankLine {c : Nat} {text : Option String} {cs rest : List Char} {ts : List Token} :
      Spelling .newline text cs → TokenKind.newline.Stops rest →
      Written true (c + byteLength cs) rest ts → Written true c (cs ++ rest) ts
  | token {afterBreak : Bool} {c : Nat} {k : TokenKind} {text : Option String}
      {cs rest : List Char} {ts : List Token} : k.omitted = false →
      (afterBreak = true → k ≠ .newline) → Spelling k text cs → k.Stops rest → k.Apart cs rest →
      Written (k == .newline) (c + byteLength cs) rest ts →
      Written afterBreak c (cs ++ rest) (⟨c, k.name, text⟩ :: ts)

theorem TokenKind.name_beq_newline (k : TokenKind) :
    (k.name == Token.newline) = (k == .newline) := by
  cases k <;> rfl

section Lexing

variable {afterBreak : Bool} {c stop : Nat} {text rest : List Char} {pieces : List Chunk}
  {ts : List Token}

theorem Cuts.not_stuck {rules : List TokenRule} (h : Cuts rules c text pieces stop rest)
    (hrest : rest = []) : ¬ Stuck rules text := by
  intro hstuck
  cases h with
  | nil => exact hstuck.1 hrest
  | cons hfirst htakes _ => exact not_ends hfirst htakes (.inr hstuck)

theorem Cuts.written (h : Cuts TokenRule.jay c text pieces stop rest) (hrest : rest = []) :
    Written afterBreak c text (mergeBreaks afterBreak (pieces.filterMap (·.token?))) := by
  induction h generalizing afterBreak with
  | nil =>
    subst hrest
    exact .done
  | @cons c stop text taken rest r l pieces hfirst htakes hcuts ih =>
    obtain ⟨k, cs, rfl, htakes, hspelling, hstops, hapart⟩ :=
      TokenKind.spelling_of_firstTaker hfirst (hcuts.not_stuck hrest)
    rw [htakes.text]
    have hsize := htakes.size
    by_cases homitted : k.omitted = true
    · have htoken : Chunk.token? ⟨c, k.rule, l.size, l.text⟩ = none := if_pos homitted
      rw [List.filterMap_cons_none htoken]
      exact .trivia homitted hspelling hstops (hsize ▸ ih hrest)
    · have htoken : Chunk.token? ⟨c, k.rule, l.size, l.text⟩ = some ⟨c, k.name, l.text⟩ :=
        if_neg homitted
      rw [List.filterMap_cons_some htoken, mergeBreaks, k.name_beq_newline]
      split
      · next hbreak =>
        obtain ⟨rfl, hnewline⟩ := Bool.and_eq_true_iff.1 hbreak
        obtain rfl := beq_iff_eq.1 hnewline
        exact .blankLine hspelling hstops (hsize ▸ ih hrest)
      · next hbreak =>
        have hseparate : afterBreak = true → k ≠ .newline := by
          rintro rfl rfl
          exact hbreak rfl
        exact .token (Bool.eq_false_of_not_eq_true homitted) hseparate hspelling hstops hapart
          (hsize ▸ ih hrest)

theorem cuts_cons {k : TokenKind} {label : Option String} {cs : List Char}
    (hspelling : Spelling k label cs) (hstops : k.Stops rest) (hapart : k.Apart cs rest)
    (h : Cuts TokenRule.jay (c + byteLength cs) rest pieces stop []) :
    Cuts TokenRule.jay c (cs ++ rest) (⟨c, k.rule, byteLength cs, label⟩ :: pieces) stop [] :=
  .cons (TokenKind.firstTaker_of_spelling hspelling hstops hapart) ⟨rfl, rfl, hspelling.ne_nil⟩ h

theorem Written.exists_cuts (h : Written afterBreak c text ts) : ∃ pieces stop,
    Cuts TokenRule.jay c text pieces stop [] ∧
      ts = mergeBreaks afterBreak (pieces.filterMap (·.token?)) := by
  induction h with
  | done => exact ⟨[], _, .nil, rfl⟩
  | @trivia afterBreak c k label cs rest ts homitted hspelling hstops _ ih =>
    obtain ⟨pieces, stop, hcuts, rfl⟩ := ih
    have hapart : k.Apart cs rest := by cases k <;> first | exact trivial | cases homitted
    have htoken : Chunk.token? ⟨c, k.rule, byteLength cs, label⟩ = none := if_pos homitted
    refine ⟨_, stop, cuts_cons hspelling hstops hapart hcuts, ?_⟩
    rw [List.filterMap_cons_none htoken]
  | @blankLine c label cs rest ts hspelling hstops _ ih =>
    obtain ⟨pieces, stop, hcuts, rfl⟩ := ih
    exact ⟨_, stop, cuts_cons hspelling hstops trivial hcuts, rfl⟩
  | @token afterBreak c k label cs rest ts homitted hseparate hspelling hstops hapart _ ih =>
    obtain ⟨pieces, stop, hcuts, rfl⟩ := ih
    have hkept : ¬ k.omitted = true := by
      rw [homitted]
      exact Bool.false_ne_true
    have htoken : Chunk.token? ⟨c, k.rule, byteLength cs, label⟩ = some ⟨c, k.name, label⟩ :=
      if_neg hkept
    refine ⟨_, stop, cuts_cons hspelling hstops hapart hcuts, ?_⟩
    rw [List.filterMap_cons_some htoken, mergeBreaks, k.name_beq_newline, if_neg]
    intro hbreak
    obtain ⟨hafter, hnewline⟩ := Bool.and_eq_true_iff.1 hbreak
    exact hseparate hafter (beq_iff_eq.1 hnewline)

/-- A text has tokens if it is written with them. -/
theorem lex_eq_ok_iff_written : lex TokenRule.jay text = .ok ts ↔
    ∃ body, Written false 0 text body ∧
      ts = body ++ endBreak (byteLength text) body ++ [⟨byteLength text, Token.eos, none⟩] := by
  rw [lex_eq_ok_iff]
  constructor
  · rintro ⟨pieces, hcuts, rfl⟩
    exact ⟨_, hcuts.written rfl, closeTokens_eq ..⟩
  · rintro ⟨body, hwritten, rfl⟩
    obtain ⟨pieces, stop, hcuts, rfl⟩ := hwritten.exists_cuts
    obtain rfl := hcuts.stop_eq
    exact ⟨pieces, hcuts, (closeTokens_eq ..).symm⟩

/-- A token that is written stands at its position, may end where it does and is apart from those
that go first. -/
theorem Written.stands (h : Written afterBreak c text ts) :
    ∀ t ∈ ts, ∃ (k : TokenKind) (before cs after : List Char), text = before ++ cs ++ after ∧
      t.position = c + byteLength before ∧ t.kind = k.name ∧ Spelling k t.text cs ∧
      k.Stops after ∧ k.Apart cs after := by
  have hlater : ∀ {c : Nat} {cs rest : List Char} {t : Token},
      (∃ (k : TokenKind) (before ds after : List Char), rest = before ++ ds ++ after ∧
        t.position = c + byteLength cs + byteLength before ∧ t.kind = k.name ∧
        Spelling k t.text ds ∧ k.Stops after ∧ k.Apart ds after) →
      ∃ (k : TokenKind) (before ds after : List Char), cs ++ rest = before ++ ds ++ after ∧
        t.position = c + byteLength before ∧ t.kind = k.name ∧ Spelling k t.text ds ∧
        k.Stops after ∧ k.Apart ds after := by
    rintro c cs _ t ⟨k, before, ds, after, rfl, hposition, ht⟩
    refine ⟨k, cs ++ before, ds, after, by simp only [List.append_assoc], ?_, ht⟩
    rw [byteLength_append, hposition, Nat.add_assoc]
  induction h with
  | done => exact nofun
  | trivia _ _ _ _ ih => exact fun t ht => hlater (ih t ht)
  | blankLine _ _ _ ih => exact fun t ht => hlater (ih t ht)
  | token _ _ hspelling hstops hapart _ ih =>
    refine List.forall_mem_cons.2 ⟨?_, fun t ht => hlater (ih t ht)⟩
    exact ⟨_, [], _, _, rfl, rfl, rfl, hspelling, hstops, hapart⟩

/-- A name is read from its position on as far as it goes, and is no keyword. -/
theorem name_of_lex (h : lex TokenRule.jay text = .ok ts) {t : Token} (ht : t ∈ ts)
    (hid : t.Is .identifier) : ∃ before name after, text = before ++ name ++ after ∧
      t.position = byteLength before ∧ t.text = some (String.ofList name) ∧ IsName name ∧
      (∀ c ∈ after.head?, ¬ isNameChar c = true) ∧
      ∀ k : TokenKind, k.isKeyword = true → k.sign? ≠ some name := by
  obtain ⟨body, hwritten, rfl⟩ := lex_eq_ok_iff_written.1 h
  have hbody : t ∈ body := by
    have hnewline : Token.newline ≠ TokenKind.identifier.name := by decide
    have heos : Token.eos ≠ TokenKind.identifier.name := by decide
    rw [endBreak, List.mem_append, List.mem_append, List.mem_singleton] at ht
    rcases ht with (ht | ht) | rfl
    · exact ht
    · split at ht
      · rw [List.mem_singleton.1 ht] at hid
        exact absurd hid hnewline
      · cases ht
    · exact absurd hid heos
  obtain ⟨k, before, name, after, htext, hposition, hkind, hspelling, hstops, hapart⟩ :=
    hwritten.stands t hbody
  obtain rfl : k = .identifier := by
    have hname : k.name = TokenKind.identifier.name := hkind.symm.trans hid
    cases k <;> first | rfl | exact absurd hname (by decide)
  generalize hlabel : t.text = label at hspelling
  cases hspelling with
  | sign hsign => cases hsign
  | identifier hname =>
    exact ⟨before, name, after, htext, hposition.trans (Nat.zero_add _), rfl, hname,
      TokenKind.forall_single_iff.1 hstops, hapart⟩

end Lexing

/-! ## Printing -/

/-- A token to print: its kind, and the text that it carries. -/
abbrev Word := TokenKind × Option String

namespace Word

/-- The word is one that stands among tokens, and is written so. -/
structure Prints (w : Word) (cs : List Char) : Prop where
  kept : w.1.omitted = false
  spelling : Spelling w.1 w.2 cs
  noKeyword : w.1 = .identifier → ∀ k : TokenKind, k.isKeyword = true → k.sign? ≠ some cs

/-- No line break comes after another. -/
def Separate (v w : Word) : Prop := v.1 = .newline → w.1 ≠ .newline

/-- What the tokens of a text end with, by kinds and texts: a line break if one is missing, and
their end. -/
def tail (words : List Word) : List (String × Option String) :=
  (if words.getLast?.any (·.1 != .newline) then [(Token.newline, none)] else []) ++
    [(Token.eos, none)]

variable {v w : Word} {words : List Word} {cs rest : List Char} {spellings : List (List Char)}

theorem stops_nil (k : TokenKind) : k.Stops [] :=
  fun _ hmore hprefix => hmore.ne_nil (List.prefix_nil.1 hprefix)

theorem stops_space {k : TokenKind} (hk : k.omitted = false) (rest : List Char) :
    k.Stops (' ' :: rest) := by
  have hspace : ∀ {c : Char} {cs : List Char}, k.More (c :: cs) → c ≠ ' ' := by
    rintro c cs hmore rfl
    cases k <;> first
      | exact absurd hk (by decide)
      | exact hmore
      | (obtain ⟨c, hc, h⟩ := hmore; cases hc; exact absurd h (by decide))
      | (rcases hmore with h | h <;> exact absurd (List.cons.inj h).1 (by decide))
  intro cs hmore hprefix
  obtain ⟨c, cs, rfl⟩ := List.exists_cons_of_ne_nil hmore.ne_nil
  exact hspace hmore (List.cons_prefix_cons.1 hprefix).1

/-- Before a space, or at the end of a text, a word is not the beginning of another one. -/
theorem Prints.apart (h : w.Prints cs) (hrest : rest = [] ∨ ∃ more, rest = ' ' :: more) :
    w.1.Apart cs rest := by
  have hno : ∀ {c : Char} {cs : List Char}, c ≠ ' ' → ¬ c :: cs <+: rest := by
    intro c cs hc hprefix
    rcases hrest with rfl | ⟨more, rfl⟩
    · cases List.prefix_nil.1 hprefix
    · exact hc (List.cons_prefix_cons.1 hprefix).1
  obtain ⟨k, label⟩ := w
  cases k <;> try exact trivial
  case div => exact hno (by decide)
  case integer => exact fun _ _ => hno (by decide)
  case identifier => exact h.noKeyword rfl

theorem Prints.stops_whitespace (h : w.Prints cs) (rest : List Char) :
    TokenKind.whitespace.Stops (cs ++ rest) := by
  rintro piece ⟨c, rfl, hc⟩ hprefix
  obtain ⟨d, ds, rfl⟩ := List.exists_cons_of_ne_nil h.spelling.ne_nil
  obtain rfl : c = d := (List.cons_prefix_cons.1 hprefix).1
  have hfamily := TokenKind.familyOf?_of_spelling h.spelling
  have hblank : TokenKind.familyOf? c = some .whitespace := by rcases hc with rfl | rfl <;> rfl
  have hkind := TokenKind.eq_whitespace (Option.some.inj (hblank.symm.trans hfamily)).symm
  have hkept := h.kept
  rw [hkind] at hkept
  cases hkept

theorem intercalate_space (as bs : List Char) (parts : List (List Char)) :
    [' '].intercalate (as :: bs :: parts) = as ++ ([' '] ++ [' '].intercalate (bs :: parts)) := rfl

/-- Words that are printed with spaces between them are written. -/
theorem written_print (h : List.Forall₂ Prints words spellings) (hwords : words.IsChain Separate)
    (afterBreak : Bool) (hfirst : afterBreak = true → ∀ w ∈ words.head?, w.1 ≠ .newline)
    (c : Nat) : ∃ ts, Written afterBreak c ([' '].intercalate spellings) ts ∧
      ts.map (fun t => (t.kind, t.text)) = words.map fun w => (w.1.name, w.2) := by
  induction h generalizing afterBreak c with
  | nil => exact ⟨[], .done, rfl⟩
  | @cons w cs words spellings hw hrest ih =>
    have hseparate : afterBreak = true → w.1 ≠ .newline := fun h => hfirst h w rfl
    cases hrest with
    | nil =>
      have hone : [' '].intercalate [cs] = cs ++ [] := by simp [List.intercalate]
      rw [hone]
      exact ⟨_, .token hw.kept hseparate hw.spelling (stops_nil _) (hw.apart (.inl rfl)) .done, rfl⟩
    | @cons v ds words spellings hv hrest =>
      obtain ⟨hsep, hwords⟩ := List.isChain_cons_cons.1 hwords
      have hnext : (w.1 == .newline) = true → ∀ v' ∈ (v :: words).head?, v'.1 ≠ .newline := by
        rintro hnewline v' ⟨⟩
        exact hsep (beq_iff_eq.1 hnewline)
      obtain ⟨ts, hts, hmap⟩ := ih hwords _ hnext (c + byteLength cs + byteLength [' '])
      have hspace : Spelling .whitespace none [' '] :=
        .whitespace (List.cons_ne_nil _ _) (List.forall_mem_singleton.2 (.inl rfl))
      have hstops : TokenKind.whitespace.Stops ([' '].intercalate (ds :: spellings)) := by
        cases spellings with
        | nil =>
          have hone : [' '].intercalate [ds] = ds ++ [] := by simp [List.intercalate]
          rw [hone]
          exact hv.stops_whitespace []
        | cons es spellings => exact hv.stops_whitespace _
      rw [intercalate_space]
      refine ⟨_, .token hw.kept hseparate hw.spelling (stops_space hw.kept _)
        (hw.apart (.inr ⟨_, rfl⟩)) (.trivia rfl hspace hstops hts), ?_⟩
      rw [List.map_cons, List.map_cons, hmap]

theorem getLast?_any {ts : List Token}
    (h : ts.map (fun t => (t.kind, t.text)) = words.map fun w => (w.1.name, w.2)) :
    ts.getLast?.any (·.kind != Token.newline) = words.getLast?.any (·.1 != .newline) := by
  have hlast := congrArg (fun xs => xs.getLast?.any (·.1 != Token.newline)) h
  simp only [List.getLast?_map, Option.any_map, bne, TokenKind.name_beq_newline] at hlast
  exact hlast

end Word

/-- A text has tokens with the rules of Jay if and only if it is made of them: each is spelled at
its position, with white space, comments up to the end of a line and the line breaks after a line
break between them, and a line break, if one is missing, and the end of the tokens come last. A name
is read as far as it goes, and is no keyword. Words printed with a space between one and the next
are read again, if no line break comes after another. -/
theorem lex_roundTrips :
    (∀ text ts, lex TokenRule.jay text = .ok ts ↔ ∃ body, Written false 0 text body ∧
      ts = body ++ endBreak (byteLength text) body ++ [⟨byteLength text, Token.eos, none⟩]) ∧
    (∀ text ts, lex TokenRule.jay text = .ok ts → ∀ t ∈ ts, t.Is .identifier →
      ∃ before name after, text = before ++ name ++ after ∧ t.position = byteLength before ∧
        t.text = some (String.ofList name) ∧ IsName name ∧
        (∀ c ∈ after.head?, ¬ isNameChar c = true) ∧
        ∀ k : TokenKind, k.isKeyword = true → k.sign? ≠ some name) ∧
    ∀ (words : List Word) (spellings : List (List Char)),
      List.Forall₂ Word.Prints words spellings → words.IsChain Word.Separate →
      ∃ ts, lex TokenRule.jay ([' '].intercalate spellings) = .ok ts ∧
        ts.map (fun t => (t.kind, t.text)) =
          words.map (fun w => (w.1.name, w.2)) ++ Word.tail words := by
  refine ⟨fun text ts => lex_eq_ok_iff_written, fun text ts h t ht hid => name_of_lex h ht hid,
    fun words spellings hprints hwords => ?_⟩
  obtain ⟨body, hwritten, hmap⟩ := Word.written_print hprints hwords false nofun 0
  refine ⟨_, lex_eq_ok_iff_written.2 ⟨body, hwritten, rfl⟩, ?_⟩
  rw [List.map_append, List.map_append, hmap, List.append_assoc, Word.tail, endBreak,
    Word.getLast?_any hmap]
  split <;> rfl

/-- A name that begins like the keyword before it, and a string that holds what begins a comment. -/
theorem lex_roundTrips_variable :
    ∃ ts, lex TokenRule.jay "var vary = \"//\" \n".toList = .ok ts ∧
      ts.map (fun t => (t.kind, t.text)) =
        [("VAR", none), ("IDENTIFIER", some "vary"), ("EQUALS", none), ("STRING", some "//"),
          ("NEWLINE", none), (Token.eos, none)] := by
  have hvar : Word.Prints (.varKeyword, none) "var".toList := ⟨rfl, .sign rfl, nofun⟩
  have hname : Word.Prints (.identifier, some "vary") "vary".toList :=
    ⟨rfl, .identifier ⟨'v', "ary".toList, rfl, rfl, List.all_eq_true.1 rfl⟩,
      fun _ k => by cases k <;> decide⟩
  have hequals : Word.Prints (.equals, none) "=".toList := ⟨rfl, .sign rfl, nofun⟩
  have hstring : Word.Prints (.string, some "//") "\"//\"".toList :=
    ⟨rfl, .string (by simp), nofun⟩
  have hnewline : Word.Prints (.newline, none) "\n".toList :=
    ⟨rfl, .newline (List.cons_ne_nil _ []) (List.forall_mem_singleton.2 (.inl rfl)), nofun⟩
  exact lex_roundTrips.2.2 _ _
    (.cons hvar (.cons hname (.cons hequals (.cons hstring (.cons hnewline .nil)))))
    (by simp [Word.Separate])

end JayFrontEnd
