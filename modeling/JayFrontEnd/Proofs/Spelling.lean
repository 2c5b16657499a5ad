import JayFrontEnd.Proofs.Pattern.Greedy
import JayFrontEnd.Proofs.Tiling

/-!
# How tokens are spelled

`Spelling` says how a token of a kind of Jay is written, and `TokenKind.More` by which texts it may
go on, so that it does not end before one of them. A rule of Jay takes the beginning of a text if
and only if that is spelled so and does not go on: `TokenKind.take?_eq_some_iff`.
-/

namespace JayFrontEnd

open Text

/-! ## Characters -/

namespace Text

def isNameStart (c : Char) : Bool := isAsciiLetter c || c == '_'

def isNameChar (c : Char) : Bool := isNameStart c || isAsciiDigit c

/-- The text is a line break. -/
def IsBreak (cs : List Char) : Prop := cs = ['\n'] ∨ cs = ['\r', '\n']

/-- The text is a number of digits, one at least. -/
def IsDigits (cs : List Char) : Prop := cs ≠ [] ∧ ∀ c ∈ cs, isAsciiDigit c = true

/-- The text is a letter or an underscore with letters, digits and underscores behind it. -/
def IsName (cs : List Char) : Prop :=
  ∃ c ds, cs = c :: ds ∧ isNameStart c = true ∧ ∀ d ∈ ds, isNameChar d = true

variable {c d : Char}

theorem IsName.forall {cs : List Char} (h : IsName cs) : ∀ c ∈ cs, isNameChar c = true := by
  obtain ⟨c, ds, rfl, hc, hds⟩ := h
  exact List.forall_mem_cons.2 ⟨Bool.or_eq_true_iff.2 (.inl hc), hds⟩

theorem le_iff_toNat : c ≤ d ↔ c.toNat ≤ d.toNat := Iff.rfl

theorem eq_iff_toNat : c = d ↔ c.toNat = d.toNat := Char.toNat_inj.symm

theorem toNat_le (c : Char) : c.toNat ≤ 0x10ffff := by
  rcases c.valid with h | ⟨-, h⟩
  · exact Nat.le_trans (Nat.le_of_lt h) (by decide)
  · exact Nat.le_of_lt_succ h

theorem isAsciiDigit_iff : isAsciiDigit c = true ↔ 48 ≤ c.toNat ∧ c.toNat ≤ 57 := by
  simp only [isAsciiDigit, Bool.and_eq_true, decide_eq_true_eq, le_iff_toNat]
  exact Iff.rfl

theorem isNameStart_iff : isNameStart c = true ↔
    65 ≤ c.toNat ∧ c.toNat ≤ 90 ∨ c.toNat = 95 ∨ 97 ≤ c.toNat ∧ c.toNat ≤ 122 := by
  simp only [isNameStart, isAsciiLetter, Bool.or_eq_true, Bool.and_eq_true, decide_eq_true_eq,
    beq_iff_eq, le_iff_toNat, eq_iff_toNat, Char.reduceToNat]
  omega

theorem isNameChar_iff : isNameChar c = true ↔ 48 ≤ c.toNat ∧ c.toNat ≤ 57 ∨
    65 ≤ c.toNat ∧ c.toNat ≤ 90 ∨ c.toNat = 95 ∨ 97 ≤ c.toNat ∧ c.toNat ≤ 122 := by
  rw [isNameChar, Bool.or_eq_true, isNameStart_iff, isAsciiDigit_iff]
  omega

/-- Among the characters of ASCII, those of words are those of names. -/
theorem isWordChar_iff_of_lt (h : c.toNat < 128) : isWordChar c = isNameChar c := by
  rw [isWordChar, if_pos h, isNameChar, isNameStart, Bool.or_assoc, Bool.or_assoc,
    Bool.or_comm (c == '_')]

end Text

namespace CharSet

def notLineFeed : CharSet := ⟨[(0, 9), (11, 0x10ffff)]⟩

def blanks : CharSet := ⟨[(9, 9), (32, 32)]⟩

/-- What may stand in a string. -/
def unquoted : CharSet := ⟨[(0, 9), (11, 33), (35, 0x10ffff)]⟩

def asciiDigits : CharSet := ⟨[(48, 57)]⟩

def nameStarts : CharSet := ⟨[(65, 90), (95, 95), (97, 122)]⟩

def nameChars : CharSet := ⟨[(48, 57), (65, 90), (95, 95), (97, 122)]⟩

variable {c : Char}

theorem contains_nil : contains ⟨[]⟩ c = false := rfl

theorem contains_cons {lo hi : Nat} {rs : List (Nat × Nat)} : contains ⟨(lo, hi) :: rs⟩ c = true ↔
    lo ≤ c.toNat ∧ c.toNat ≤ hi ∨ contains ⟨rs⟩ c = true := by
  simp [contains, inRanges]

theorem contains_notLineFeed : notLineFeed.contains c = true ↔ c ≠ '\n' := by
  have hle := toNat_le c
  simp only [notLineFeed, contains_cons, contains_nil, Bool.false_eq_true, or_false,
    ne_eq, eq_iff_toNat, Char.reduceToNat]
  omega

theorem contains_blanks : blanks.contains c = true ↔ c = ' ' ∨ c = '\t' := by
  simp only [blanks, contains_cons, contains_nil, Bool.false_eq_true, or_false,
    eq_iff_toNat, Char.reduceToNat]
  omega

theorem contains_unquoted : unquoted.contains c = true ↔ c ≠ '"' ∧ c ≠ '\n' := by
  have hle := toNat_le c
  simp only [unquoted, contains_cons, contains_nil, Bool.false_eq_true, or_false,
    ne_eq, eq_iff_toNat, Char.reduceToNat]
  omega

theorem contains_asciiDigits : asciiDigits.contains c = true ↔ isAsciiDigit c = true := by
  simp only [asciiDigits, contains_cons, contains_nil, Bool.false_eq_true, or_false,
    isAsciiDigit_iff]

theorem contains_nameStarts : nameStarts.contains c = true ↔ isNameStart c = true := by
  simp only [nameStarts, contains_cons, contains_nil, Bool.false_eq_true, or_false,
    isNameStart_iff]
  omega

theorem contains_nameChars : nameChars.contains c = true ↔ isNameChar c = true := by
  simp only [nameChars, contains_cons, contains_nil, Bool.false_eq_true, or_false,
    isNameChar_iff]
  omega

end CharSet

/-! ## The rules of Jay -/

namespace TokenKind

/-- The characters of a token whose kind is always written alike. -/
def sign? : TokenKind → Option (List Char)
  | importKeyword => some ['i', 'm', 'p', 'o', 'r', 't']
  | varKeyword => some ['v', 'a', 'r']
  | funcKeyword => some ['f', 'u', 'n', 'c']
  | parenStart => some ['(']
  | parenEnd => some [')']
  | curlStart => some ['\x7b']
  | curlEnd => some ['\x7d']
  | comma => some [',']
  | equals => some ['=']
  | dot => some ['.']
  | add => some ['+']
  | sub => some ['-']
  | mul => some ['*']
  | div => some ['/']
  | comment | newline | whitespace | string | float | integer | identifier => none

def isKeyword (k : TokenKind) : Bool := k.category == .keyword

def digits : Pattern := .repeated 1 none true (.one .asciiDigits)

/-- The pattern of a kind that is not always written alike. -/
def form : TokenKind → Pattern
  | comment => .seq (.text ['/', '/']) (.repeated 0 none true (.one .notLineFeed))
  | newline =>
    .repeated 1 none true (.seq (.repeated 0 (some 1) true (.text ['\r'])) (.text ['\n']))
  | whitespace => .repeated 1 none true (.one .blanks)
  | string =>
    .seq (.text ['"']) (.seq (.group 1 (.repeated 0 none true (.one .unquoted))) (.text ['"']))
  | float => .group 1 (.seq digits (.seq (.text ['.']) digits))
  | integer => .group 1 digits
  | identifier => .group 1 (.seq (.one .nameStarts) (.repeated 0 none true (.one .nameChars)))
  | _ => .empty

/-- What the pattern of the kind reads as; a keyword ends at the edge of a word. -/
def shape (k : TokenKind) : Pattern :=
  match k.sign? with
  | some cs => if k.isKeyword then .seq (.text cs) (.check .wordEdge) else .text cs
  | none => k.form

def rule (k : TokenKind) : TokenRule where
  name := k.name
  regex := .ofPattern (TokenRule.anchoredSource k.pattern) (.seq (.check .textStart) k.shape)
  omitted := k.omitted

theorem parse?_pattern (k : TokenKind) : Pattern.parse? (TokenRule.anchoredSource k.pattern) =
    some (.seq (.check .textStart) k.shape) := by
  cases k <;> decide +kernel

theorem ofSources_jaySources : TokenRule.ofSources TokenRule.jaySources = (all.map rule, none) := by
  refine TokenRule.ofSources_map (fun k => ?_) all
  rw [TokenRule.ofSource, TokenRule.build, Regex.ofSource?, parse?_pattern]
  rfl

theorem jay_eq : TokenRule.jay = all.map rule := by rw [TokenRule.jay, ofSources_jaySources]

theorem steady_shape (k : TokenKind) : k.shape.steady = true := by cases k <;> rfl

/-- The rule takes what the search at the start of the text finds, if it is not empty. -/
theorem take?_rule {k : TokenKind} {t : List Char} : k.rule.take? t =
    match k.shape.matchAt? (.start t) with
    | none => none
    | some m =>
      if m.stop.offset = 0 then none else some ⟨m.stop.offset, m.group? 1, m.stop.rest⟩ := by
  let p : Pattern := .seq (.check .textStart) k.shape
  have hloops : p.loopsOnChecks = false := Pattern.loopsOnChecks_of_steady (p := p) (steady_shape k)
  have hsearch : p.search? t = k.shape.matchAt? (.start t) := by
    have hchoices : p.choices = k.shape.choices := Nat.zero_add _
    have hanchored : p.anchored = true := rfl
    rw [Pattern.search?, hloops, if_neg Bool.false_ne_true, Pattern.seek?, hanchored, if_pos rfl,
      Pattern.matchAt?, Pattern.matchAt?, Pattern.matchWith?, Pattern.matchWith?, hchoices]
    rfl
  rw [← hsearch]
  rfl

/-! ## Spelling -/

/-- By what a token of the kind goes on: it does not end before such a text. -/
def More : TokenKind → List Char → Prop
  | comment, cs => ∃ c, cs = [c] ∧ c ≠ '\n'
  | newline, cs => IsBreak cs
  | whitespace, cs => ∃ c, cs = [c] ∧ (c = ' ' ∨ c = '\t')
  | importKeyword, cs | varKeyword, cs | funcKeyword, cs => ∃ c, cs = [c] ∧ isWordChar c = true
  | float, cs | integer, cs => ∃ c, cs = [c] ∧ isAsciiDigit c = true
  | identifier, cs => ∃ c, cs = [c] ∧ isNameChar c = true
  | _, _ => False

theorem More.ne_nil {k : TokenKind} {cs : List Char} (h : k.More cs) : cs ≠ [] := by
  rintro rfl
  cases k <;> first
    | exact h
    | exact h.elim nofun nofun
    | (obtain ⟨c, hc, -⟩ := h; cases hc)

/-- A token of the kind may end before the text. -/
def Stops (k : TokenKind) (rest : List Char) : Prop := ∀ cs, k.More cs → ¬ cs <+: rest

end TokenKind

/-- How a token of a kind that carries a text, or none, is written. -/
inductive Spelling : TokenKind → Option String → List Char → Prop where
  | comment {cs : List Char} : (∀ c ∈ cs, c ≠ '\n') → Spelling .comment none ('/' :: '/' :: cs)
  | newline {breaks : List (List Char)} : breaks ≠ [] → (∀ cs ∈ breaks, IsBreak cs) →
      Spelling .newline none breaks.flatten
  | whitespace {cs : List Char} : cs ≠ [] → (∀ c ∈ cs, c = ' ' ∨ c = '\t') →
      Spelling .whitespace none cs
  | sign {k : TokenKind} {cs : List Char} : k.sign? = some cs → Spelling k none cs
  | string {cs : List Char} : (∀ c ∈ cs, c ≠ '"' ∧ c ≠ '\n') →
      Spelling .string (some (String.ofList cs)) ('"' :: (cs ++ ['"']))
  | float {as bs : List Char} : IsDigits as → IsDigits bs →
      Spelling .float (some (String.ofList (as ++ '.' :: bs))) (as ++ '.' :: bs)
  | integer {cs : List Char} : IsDigits cs → Spelling .integer (some (String.ofList cs)) cs
  | identifier {cs : List Char} : IsName cs → Spelling .identifier (some (String.ofList cs)) cs

namespace Spelling

open Pattern TokenKind

variable {k : TokenKind} {text : Option String} {cs rest : List Char} {s t : Place}
  {hs : Groups}

theorem ne_nil (h : Spelling k text cs) : cs ≠ [] := by
  cases h with
  | comment => exact List.cons_ne_nil _ _
  | newline hne hbreaks =>
    obtain ⟨cs, breaks, rfl⟩ := List.exists_cons_of_ne_nil hne
    rcases hbreaks cs (List.mem_cons_self ..) with rfl | rfl <;> exact List.cons_ne_nil _ _
  | whitespace hne => exact hne
  | sign hsign =>
    rintro rfl
    cases k <;> cases hsign
  | string => exact List.cons_ne_nil _ _
  | float => exact List.append_ne_nil_of_right_ne_nil _ (List.cons_ne_nil _ _)
  | integer hdigits => exact hdigits.1
  | identifier hname =>
    obtain ⟨c, ds, rfl, -⟩ := hname
    exact List.cons_ne_nil _ _

end Spelling

namespace TokenKind

open Pattern

variable {k : TokenKind} {cs rest : List Char} {s t : Place} {hs : Groups}

theorem shape_of_sign (h : k.sign? = some cs) :
    k.shape = if k.isKeyword then .seq (.text cs) (.check .wordEdge) else .text cs := by
  rw [shape, h]

theorem forall_single_iff {P : Char → Prop} :
    (∀ cs, (∃ c, cs = [c] ∧ P c) → ¬ cs <+: rest) ↔ ∀ c ∈ rest.head?, ¬ P c := by
  constructor
  · intro h c hc hP
    exact h [c] ⟨c, rfl, hP⟩ (List.singleton_prefix_iff_head?_eq_some.2 hc)
  · rintro h cs ⟨c, rfl, hP⟩ hprefix
    exact h c (List.singleton_prefix_iff_head?_eq_some.1 hprefix) hP

/-- A keyword goes on by the characters of words. -/
theorem stops_keyword_iff (hk : k.isKeyword = true) :
    k.Stops rest ↔ ∀ c ∈ rest.head?, ¬ isWordChar c = true := by
  cases k <;> first | exact absurd hk (by decide) | exact forall_single_iff

/-- Behind a keyword is the edge of a word where the keyword may end. -/
theorem holds_wordEdge_iff (hk : k.isKeyword = true) (hsign : k.sign? = some cs)
    (h : s.afterText? cs = some t) : Assertion.wordEdge.holds t = true ↔ k.Stops t.rest := by
  have hbefore : t.before.any isWordChar = true := by
    cases k <;> first | exact absurd hk (by decide) | cases hsign
    · rw [Place.before_of_afterText? ['i', 'm', 'p', 'o', 'r'] h]
      rfl
    · rw [Place.before_of_afterText? ['v', 'a'] h]
      rfl
    · rw [Place.before_of_afterText? ['f', 'u', 'n'] h]
      rfl
  rw [stops_keyword_iff hk, Assertion.holds, hbefore]
  cases t.rest.head? <;> simp

end TokenKind

namespace Spelling

open Pattern TokenKind

variable {k : TokenKind} {text : Option String} {cs rest : List Char} {s t : Place}
  {hs : Groups}

theorem goes_digits (gs : Groups) (h : IsDigits cs) (hafter : s.afterText? cs = some t)
    (hstop : ∀ c, isAsciiDigit c = true → ¬ [c] <+: t.rest) : digits.Goes (s, gs) (t, gs) :=
  goes_run gs (List.length_pos_iff.2 h.1)
    (fun c hc => CharSet.contains_asciiDigits.2 (h.2 c hc)) hafter
    fun c hc => hstop c (CharSet.contains_asciiDigits.1 hc)

theorem digits_of_matches {x y : Place × Groups} (h : digits.Matches x y) :
    ∃ cs, IsDigits cs ∧ x.1.afterText? cs = some y.1 := by
  obtain ⟨cs, hlength, hcs, hafter, -⟩ := matches_run h
  exact ⟨cs, ⟨List.length_pos_iff.1 hlength, fun c hc =>
    CharSet.contains_asciiDigits.1 (hcs c hc)⟩, hafter⟩

/-- A search for a kind of token goes past the spelling, if the token may end there. -/
theorem goes (h : Spelling k text cs) (hafter : s.afterText? cs = some t)
    (hstops : k.Stops t.rest) : ∃ hs, k.shape.Goes (s, []) (t, hs) ∧
      (hs.lookup 1).map String.ofList = text := by
  cases h with
  | @comment ds hds =>
    obtain ⟨u, hu, ht⟩ := Place.exists_of_afterText?_append ['/', '/'] hafter
    have hrun := goes_run [] (Nat.zero_le _)
      (fun c hc => CharSet.contains_notLineFeed.2 (hds c hc)) ht
      fun c hc => hstops [c] ⟨c, rfl, CharSet.contains_notLineFeed.1 hc⟩
    exact ⟨[], (goes_text hu).seq hrun, rfl⟩
  | newline hne hbreaks =>
    have hturns := takesTurns_optional (a := '\r') (b := '\n') (by decide)
    have hlength := List.length_pos_iff.2 hne
    exact ⟨[], hturns.goes_loop hlength hbreaks hafter hstops, rfl⟩
  | whitespace hne hcs =>
    have hrun := goes_run [] (List.length_pos_iff.2 hne)
      (fun c hc => CharSet.contains_blanks.2 (hcs c hc)) hafter
      fun c hc => hstops [c] ⟨c, rfl, CharSet.contains_blanks.1 hc⟩
    exact ⟨[], hrun, rfl⟩
  | sign hsign =>
    refine ⟨[], ?_, rfl⟩
    rw [shape_of_sign hsign]
    split
    · next hk =>
      exact (goes_text hafter).seq (goes_check ((holds_wordEdge_iff hk hsign hafter).2 hstops))
    · exact goes_text hafter
  | @string ds hds =>
    obtain ⟨u, hu, hafter⟩ := Place.exists_of_afterText?_append ['"'] hafter
    obtain ⟨v, hv, ht⟩ := Place.exists_of_afterText?_append _ hafter
    have hquote := (Place.Leads.afterText? ht).rest
    have hrun := goes_run [] (Nat.zero_le _)
      (fun c hc => CharSet.contains_unquoted.2 (hds c hc)) hv fun c hc hprefix => by
        rw [hquote] at hprefix
        exact (CharSet.contains_unquoted.1 hc).1 (List.cons_prefix_cons.1 hprefix).1
    exact ⟨_, (goes_text hu).seq ((hrun.group 1 hv).seq (goes_text ht)), rfl⟩
  | @float as bs has hbs =>
    obtain ⟨u, hu, hrest⟩ := Place.exists_of_afterText?_append _ hafter
    obtain ⟨v, hv, ht⟩ := Place.exists_of_afterText?_append ['.'] hrest
    have hdot := (Place.Leads.afterText? hv).rest
    have hwhole := goes_digits [] has hu fun c hc hprefix => by
      rw [hdot] at hprefix
      rw [(List.cons_prefix_cons.1 hprefix).1] at hc
      exact absurd hc (by decide)
    have hpart := goes_digits [] hbs ht fun c hc => hstops [c] ⟨c, rfl, hc⟩
    exact ⟨_, (hwhole.seq ((goes_text hv).seq hpart)).group 1 hafter, rfl⟩
  | integer hdigits =>
    have hrun := goes_digits [] hdigits hafter fun c hc => hstops [c] ⟨c, rfl, hc⟩
    exact ⟨_, hrun.group 1 hafter, rfl⟩
  | identifier hname =>
    obtain ⟨c, ds, rfl, hc, hds⟩ := hname
    obtain ⟨u, hu, ht⟩ := Place.exists_of_afterText?_append [c] hafter
    have hrun := goes_run [] (Nat.zero_le _)
      (fun d hd => CharSet.contains_nameChars.2 (hds d hd)) ht
      fun d hd => hstops [d] ⟨d, rfl, CharSet.contains_nameChars.1 hd⟩
    have hname := (goes_one (CharSet.contains_nameStarts.2 hc) hu).seq hrun
    exact ⟨_, hname.group 1 hafter, rfl⟩

/-- What the pattern of a kind that is not always written alike matches is a spelling of it. -/
theorem of_form (hsign : k.sign? = none) (h : k.form.Matches (s, []) (t, hs)) :
    ∃ cs, s.afterText? cs = some t ∧ Spelling k ((hs.lookup 1).map String.ofList) cs := by
  cases k <;> try (cases hsign; done)
  case comment =>
    obtain ⟨z, ⟨hopen, hz⟩, hrun⟩ := h
    obtain ⟨ds, -, hds, hafter, hgs⟩ := matches_run hrun
    obtain rfl : hs = [] := hgs.trans hz
    have hds := fun c hc => CharSet.contains_notLineFeed.1 (hds c hc)
    exact ⟨_, Place.afterText?_trans hopen hafter, .comment hds⟩
  case newline =>
    have hturns := takesTurns_optional (a := '\r') (b := '\n') (by decide)
    obtain ⟨breaks, hlength, hbreaks, hafter, hgs⟩ := hturns.pieces h
    obtain rfl : hs = [] := hgs
    exact ⟨_, hafter, .newline (List.length_pos_iff.1 hlength) hbreaks⟩
  case whitespace =>
    obtain ⟨cs, hlength, hcs, hafter, hgs⟩ := matches_run h
    obtain rfl : hs = [] := hgs
    have hcs := fun c hc => CharSet.contains_blanks.1 (hcs c hc)
    exact ⟨cs, hafter, .whitespace (List.length_pos_iff.1 hlength) hcs⟩
  case string =>
    obtain ⟨y, ⟨hopen, -⟩, z, hgroup, hclose, hgs⟩ := h
    obtain ⟨ds, -, hds, hafter, -⟩ := matches_run hgroup.choose_spec.1
    have hds := fun c hc => CharSet.contains_unquoted.1 (hds c hc)
    have htext : hs.lookup 1 = some ds := by
      obtain rfl : hs = z.2 := hgs
      exact hgroup.lookup_group hafter
    refine ⟨_, Place.afterText?_trans hopen (Place.afterText?_trans hafter hclose), ?_⟩
    rw [htext]
    exact .string hds
  case float =>
    obtain ⟨gs, ⟨y, hwhole, z, ⟨hdot, -⟩, hpart⟩, -⟩ := id h
    obtain ⟨as, has, hafter⟩ := digits_of_matches hwhole
    obtain ⟨bs, hbs, hafter'⟩ := digits_of_matches hpart
    have hall := Place.afterText?_trans hafter (Place.afterText?_trans hdot hafter')
    refine ⟨_, hall, ?_⟩
    rw [h.lookup_group hall]
    exact .float has hbs
  case integer =>
    obtain ⟨gs, hrun, -⟩ := id h
    obtain ⟨cs, hdigits, hafter⟩ := digits_of_matches hrun
    refine ⟨cs, hafter, ?_⟩
    rw [h.lookup_group hafter]
    exact .integer hdigits
  case identifier =>
    obtain ⟨gs, ⟨z, ⟨c, hc, hafter, -⟩, hrun⟩, -⟩ := id h
    obtain ⟨ds, -, hds, hafter', -⟩ := matches_run hrun
    have hname : IsName (c :: ds) := ⟨c, ds, rfl, CharSet.contains_nameStarts.1 hc,
      fun d hd => CharSet.contains_nameChars.1 (hds d hd)⟩
    have hall := Place.afterText?_trans hafter hafter'
    refine ⟨_, hall, ?_⟩
    rw [h.lookup_group hall]
    exact .identifier hname

/-- What the pattern of a kind matches is a spelling of that kind, and a keyword may end there. -/
theorem of_matches (h : k.shape.Matches (s, []) (t, hs)) : ∃ cs, s.afterText? cs = some t ∧
    Spelling k ((hs.lookup 1).map String.ofList) cs ∧ (k.isKeyword = true → k.Stops t.rest) := by
  rcases hsign : k.sign? with _ | cs
  · rw [shape, hsign] at h
    obtain ⟨cs, hafter, hspelling⟩ := of_form hsign h
    refine ⟨cs, hafter, hspelling, fun hk => ?_⟩
    cases k <;> first | exact absurd hk (by decide) | cases hsign
  · rw [shape_of_sign hsign] at h
    split at h
    · next hk =>
      obtain ⟨z, ⟨hafter, hgs⟩, hedge, hz⟩ := h
      cases hz
      obtain rfl : hs = [] := hgs
      exact ⟨cs, hafter, .sign hsign, fun _ => (holds_wordEdge_iff hk hsign hafter).1 hedge⟩
    · next hk =>
      obtain ⟨hafter, hgs⟩ := h
      obtain rfl : hs = [] := hgs
      exact ⟨cs, hafter, .sign hsign, fun h => absurd h hk⟩

theorem append_more (h : Spelling k text cs) (hk : k.isKeyword = false) {more : List Char}
    (hmore : k.More more) : ∃ text', Spelling k text' (cs ++ more) := by
  cases h with
  | @comment ds hds =>
    obtain ⟨c, rfl, hc⟩ := hmore
    exact ⟨_, .comment (List.forall_mem_append.2 ⟨hds, List.forall_mem_singleton.2 hc⟩)⟩
  | @newline breaks hne hbreaks =>
    have hall : Spelling .newline none (breaks ++ [more]).flatten :=
      .newline (List.append_ne_nil_of_left_ne_nil hne _)
        (List.forall_mem_append.2 ⟨hbreaks, List.forall_mem_singleton.2 hmore⟩)
    rw [List.flatten_append, List.flatten_singleton] at hall
    exact ⟨_, hall⟩
  | whitespace hne hcs =>
    obtain ⟨c, rfl, hc⟩ := hmore
    exact ⟨_, .whitespace (List.append_ne_nil_of_left_ne_nil hne _)
      (List.forall_mem_append.2 ⟨hcs, List.forall_mem_singleton.2 hc⟩)⟩
  | sign hsign =>
    cases k <;> first
      | exact absurd hk (by decide)
      | exact False.elim hmore
      | cases hsign
  | string => cases hmore
  | @float as bs has hbs =>
    obtain ⟨c, rfl, hc⟩ := hmore
    have hpart : IsDigits (bs ++ [c]) := ⟨List.append_ne_nil_of_left_ne_nil hbs.1 _,
      List.forall_mem_append.2 ⟨hbs.2, List.forall_mem_singleton.2 hc⟩⟩
    rw [List.append_assoc, List.cons_append]
    exact ⟨_, .float has hpart⟩
  | integer hdigits =>
    obtain ⟨c, rfl, hc⟩ := hmore
    exact ⟨_, .integer ⟨List.append_ne_nil_of_left_ne_nil hdigits.1 _,
      List.forall_mem_append.2 ⟨hdigits.2, List.forall_mem_singleton.2 hc⟩⟩⟩
  | identifier hname =>
    obtain ⟨d, rfl, hd⟩ := hmore
    obtain ⟨c, ds, rfl, hc, hds⟩ := hname
    exact ⟨_, .identifier ⟨c, ds ++ [d], rfl, hc,
      List.forall_mem_append.2 ⟨hds, List.forall_mem_singleton.2 hd⟩⟩⟩

/-- In a text that begins with a spelling, it goes on up to where it may end. -/
theorem exists_stops (h : Spelling k text cs) (hk : k.isKeyword = false) (rest : List Char) :
    ∃ more text' rest', rest = more ++ rest' ∧ Spelling k text' (cs ++ more) ∧ k.Stops rest' := by
  induction hlength : rest.length using Nat.strong_induction_on generalizing cs text rest with
  | _ n ih =>
    by_cases hstops : k.Stops rest
    · exact ⟨[], text, rest, rfl, (List.append_nil cs).symm ▸ h, hstops⟩
    · obtain ⟨piece, hpiece, hne, rest, rfl⟩ : ∃ piece, k.More piece ∧ piece ≠ [] ∧
          piece <+: rest := by
        unfold TokenKind.Stops at hstops
        push Not at hstops
        obtain ⟨piece, hpiece, hprefix⟩ := hstops
        exact ⟨piece, hpiece, hpiece.ne_nil, hprefix⟩
      obtain ⟨text', hall⟩ := h.append_more hk hpiece
      have hshorter : rest.length < n := by
        have hpos := List.length_pos_iff.2 hne
        rw [List.length_append] at hlength
        omega
      obtain ⟨more, text', rest', rfl, hspelling, hstops⟩ := ih _ hshorter hall rest rfl
      refine ⟨piece ++ more, text', rest', (List.append_assoc ..).symm, ?_, hstops⟩
      rw [← List.append_assoc]
      exact hspelling

end Spelling

namespace TokenKind

variable {k : TokenKind} {text : Option String} {t cs rest : List Char} {l : Lexeme}

/-- The rule of a kind takes a spelling that the token may end after. -/
theorem take?_of_spelling (h : Spelling k text cs) (hstops : k.Stops rest) :
    k.rule.take? (cs ++ rest) = some ⟨byteLength cs, text, rest⟩ := by
  obtain ⟨t, hafter, rfl⟩ := Place.exists_afterText? (s := .start (cs ++ rest)) rfl
  obtain ⟨hs, hgoes, rfl⟩ := h.goes hafter hstops
  have hoffset : t.offset = byteLength cs :=
    (Place.Leads.afterText? hafter).offset.trans (Nat.zero_add _)
  have hne : t.offset ≠ 0 := fun hzero => h.ne_nil (byteLength_eq_zero.1 (hoffset ▸ hzero))
  rw [take?_rule, hgoes.matchAt? (steady_shape k)]
  dsimp only
  rw [if_neg hne, hoffset]
  rfl

/-- The rule of a kind takes any text that begins with a spelling. -/
theorem exists_take? (h : Spelling k text cs) (hk : k.isKeyword = false) (rest : List Char) :
    ∃ l, k.rule.take? (cs ++ rest) = some l := by
  obtain ⟨more, text', rest', rfl, hall, hstops⟩ := h.exists_stops hk rest
  rw [← List.append_assoc]
  exact ⟨_, take?_of_spelling hall hstops⟩

/-- The rule of a kind takes the beginning of a text if that is a spelling of the kind, and as much
of the text as is one. -/
theorem take?_eq_some_iff : k.rule.take? t = some l ↔
    ∃ cs, l.Takes cs t ∧ Spelling k l.text cs ∧ k.Stops l.rest := by
  constructor
  · intro h
    obtain ⟨cs, text, rest, rfl, hspelling, hstops⟩ : ∃ cs text rest, t = cs ++ rest ∧
        Spelling k text cs ∧ k.Stops rest := by
      rcases hm : k.shape.matchAt? (.start t) with _ | m
      · rw [take?_rule, hm] at h
        cases h
      · obtain ⟨-, hmatches⟩ := Pattern.matches_of_matchWith? hm
        obtain ⟨cs, hafter, hspelling, hstops⟩ := Spelling.of_matches hmatches
        have htext := (Place.Leads.afterText? hafter).rest
        by_cases hk : k.isKeyword = true
        · exact ⟨cs, _, _, htext, hspelling, hstops hk⟩
        · obtain ⟨more, text, rest, hrest, hall, hstops⟩ :=
            hspelling.exists_stops (Bool.eq_false_of_not_eq_true hk) m.stop.rest
          refine ⟨cs ++ more, text, rest, ?_, hall, hstops⟩
          rw [List.append_assoc, ← hrest]
          exact htext
    rw [take?_of_spelling hspelling hstops] at h
    cases h
    exact ⟨cs, ⟨rfl, rfl, hspelling.ne_nil⟩, hspelling, hstops⟩
  · rintro ⟨cs, htakes, hspelling, hstops⟩
    obtain ⟨size, text, rest⟩ := l
    obtain rfl : size = byteLength cs := htakes.size
    obtain rfl : t = cs ++ rest := htakes.text
    exact take?_of_spelling hspelling hstops

end TokenKind

end JayFrontEnd
