import JayFrontEnd.Proofs.Places
import JayFrontEnd.Proofs.Spelling
import Mathlib.Data.List.Chain

/-!
# The tokens of a text

The tokens of a text come from the chunks it is cut into, whatever the rules: `lex_tiles` says which
of them, and when there are none. They stand at boundaries of the text, in order, and no line break
follows another. With the rules of Jay the end of the tokens comes last and nowhere else.
-/

namespace JayFrontEnd

open Text

variable {rules : List TokenRule} {text : List Char}

theorem TokenRule.name_ne_eos_of_jay {r : TokenRule} (hr : r ∈ jay) : r.name ≠ Token.eos := by
  rw [TokenKind.jay_eq] at hr
  obtain ⟨k, -, rfl⟩ := List.mem_map.1 hr
  show k.name ≠ Token.eos
  cases k <;> decide

/-- Names and literals are written with a group for their text. -/
theorem TokenRule.group_isSome_of_jay {r : TokenRule} (hr : r ∈ jay) {k : TokenKind}
    (hk : k.category = .literal ∨ k.category = .name) (hname : r.name = k.name)
    {text : List Char} {m : Match} (hm : r.regex.search? text = some m) :
    (m.group? 1).isSome = true := by
  rw [TokenKind.jay_eq] at hr
  obtain ⟨j, -, rfl⟩ := List.mem_map.1 hr
  have hcaptures : (Pattern.seq (.check .textStart) j.shape).captures 1 = true := by
    obtain rfl : j = k := TokenKind.name_injective hname
    rcases hk with hk | hk <;> cases j <;> first | rfl | cases hk
  exact Pattern.group?_of_search? hcaptures hm

/-! ## Line breaks -/

theorem mergeBreaks_sublist (afterBreak : Bool) (ts : List Token) :
    (mergeBreaks afterBreak ts).Sublist ts := by
  induction ts generalizing afterBreak with
  | nil => exact .slnil
  | cons t ts ih =>
    unfold mergeBreaks
    dsimp only
    split
    · exact .cons t (ih true)
    · exact .cons_cons t (ih _)

def Token.Separate (s t : Token) : Prop := s.kind = newline → t.kind ≠ newline

theorem separate_mergeBreaks (afterBreak : Bool) (ts : List Token) :
    (mergeBreaks afterBreak ts).IsChain Token.Separate ∧
      (afterBreak = true → ∀ t ∈ (mergeBreaks afterBreak ts).head?, t.kind ≠ Token.newline) := by
  induction ts generalizing afterBreak with
  | nil => exact ⟨.nil, fun _ => nofun⟩
  | cons t ts ih =>
    unfold mergeBreaks
    dsimp only
    split
    · next h =>
      rw [Bool.and_eq_true] at h
      exact ⟨(ih true).1, fun _ => (ih true).2 rfl⟩
    · next h =>
      refine ⟨List.isChain_cons.2 ⟨fun u hu ht => (ih _).2 (beq_iff_eq.2 ht) u hu, (ih _).1⟩, ?_⟩
      rintro rfl u ⟨⟩ hk
      rw [Bool.true_and, beq_iff_eq] at h
      exact h hk

/-- Of the tokens in order, those that are emitted: not a line break if the token emitted before it
is one. -/
inductive Emits : List Token → List Token → Prop where
  | nil : Emits [] []
  | emit {ts es : List Token} {t : Token} : Emits ts es →
      (∀ e ∈ es.getLast?, e.Separate t) → Emits (ts ++ [t]) (es ++ [t])
  | skip {ts es : List Token} {t : Token} : Emits ts es →
      (∃ e ∈ es.getLast?, ¬ e.Separate t) → Emits (ts ++ [t]) es

/-- A token more. Whether it is dropped is up to the last one that is kept. -/
theorem mergeBreaks_concat (afterBreak : Bool) (ts : List Token) (t : Token) :
    mergeBreaks afterBreak (ts ++ [t]) = mergeBreaks afterBreak ts ++
      if ((mergeBreaks afterBreak ts).getLast?.map (·.kind == Token.newline)).getD afterBreak &&
        t.kind == Token.newline then [] else [t] := by
  induction ts generalizing afterBreak with
  | nil => rw [List.nil_append, mergeBreaks, mergeBreaks]; rfl
  | cons u ts ih =>
    rw [List.cons_append, mergeBreaks, mergeBreaks]
    split
    · next h =>
      obtain ⟨rfl, -⟩ := Bool.and_eq_true_iff.1 h
      exact ih true
    · rw [ih, List.cons_append, List.getLast?_cons]
      cases (mergeBreaks (u.kind == Token.newline) ts).getLast? <;> rfl

theorem dropped_iff {es : List Token} {t : Token} :
    ((es.getLast?.map (·.kind == Token.newline)).getD false && t.kind == Token.newline) = true ↔
      ∃ e ∈ es.getLast?, ¬ e.Separate t := by
  cases es.getLast? <;> simp [Token.Separate]

theorem emits_mergeBreaks (ts : List Token) : Emits ts (mergeBreaks false ts) := by
  induction ts using List.reverseRecOn with
  | nil => exact .nil
  | append_singleton ts t ih =>
    rw [mergeBreaks_concat]
    split
    · next h =>
      rw [List.append_nil]
      exact .skip ih (dropped_iff.1 h)
    · next h =>
      refine .emit ih fun e he => Classical.not_not.1 fun hne => ?_
      exact h (dropped_iff.2 ⟨e, he, hne⟩)

theorem Emits.eq_mergeBreaks {ts es : List Token} (h : Emits ts es) :
    es = mergeBreaks false ts := by
  induction h with
  | nil => rfl
  | emit _ hsep ih =>
    rw [mergeBreaks_concat, ← ih, if_neg]
    exact fun h => (dropped_iff.1 h).elim fun e he => he.2 (hsep e he.1)
  | skip _ hbreak ih =>
    rw [mergeBreaks_concat, ← ih, if_pos (dropped_iff.2 hbreak), List.append_nil]

/-! ## Tokens -/

/-- The tokens stand at boundaries of the text, in order, and no line break comes after another. -/
structure Placed (text : List Char) (ts : List Token) : Prop where
  boundary : ∀ t ∈ ts, Boundary t.position text
  sorted : ts.Pairwise (·.position ≤ ·.position)
  separate : ts.IsChain Token.Separate

/-- What the tokens of a text are like: the end of the tokens comes last and nowhere else. -/
structure Lexed (text : List Char) (ts : List Token) : Prop extends Placed text ts where
  ends : ∃ body stop, ts = body ++ [⟨stop, Token.eos, none⟩] ∧ ∀ t ∈ body, t.kind ≠ Token.eos

theorem Placed.push {ts : List Token} (h : Placed text ts) {t : Token}
    (ht : t.position = byteLength text) (hlast : ∀ s ∈ ts.getLast?, s.Separate t) :
    Placed text (ts ++ [t]) where
  boundary := List.forall_mem_append.2 ⟨h.boundary, List.forall_mem_singleton.2 (ht ▸ .full text)⟩
  sorted := by
    refine List.pairwise_append.2 ⟨h.sorted, List.pairwise_singleton .., fun s hs u hu => ?_⟩
    rw [List.mem_singleton.1 hu, ht]
    exact (h.boundary s hs).le
  separate := by
    refine List.isChain_append.2 ⟨h.separate, .singleton t, fun s hs u hu => ?_⟩
    cases hu
    exact hlast s hs

theorem placed_closeTokens {ts : List Token} (h : Placed text ts) :
    Placed text (closeTokens (byteLength text) ts) := by
  have hkinds : Token.eos ≠ Token.newline := by decide
  have hend : ∀ {us : List Token}, Placed text us →
      Placed text (us ++ [⟨byteLength text, Token.eos, none⟩]) := fun hus =>
    hus.push rfl fun _ _ _ => hkinds
  unfold closeTokens
  dsimp only
  split
  · next t ht =>
    split
    · rw [List.append_nil]
      exact hend h
    · next hne =>
      refine hend (h.push rfl fun s hs hk => ?_)
      cases ht.symm.trans hs
      exact absurd (beq_iff_eq.2 hk) hne
  · rw [List.append_nil]
    exact hend h

/-- The line break at the end of a text, if one is missing. -/
def endBreak (stop : Nat) (ts : List Token) : List Token :=
  if ts.getLast?.any (·.kind != Token.newline) then [⟨stop, Token.newline, none⟩] else []

theorem closeTokens_eq (stop : Nat) (ts : List Token) :
    closeTokens stop ts = ts ++ endBreak stop ts ++ [⟨stop, Token.eos, none⟩] := by
  unfold closeTokens endBreak
  cases ts.getLast? with
  | none => rfl
  | some t => by_cases ht : t.kind = Token.newline <;> simp [ht]

theorem filterMap_token? (chunks : List Chunk) : chunks.filterMap (·.token?) =
    (chunks.filter (!·.rule.omitted)).map fun k => ⟨k.position, k.rule.name, k.text⟩ := by
  induction chunks with
  | nil => rfl
  | cons k chunks ih =>
    have htoken : k.token? = if k.rule.omitted then none
      else some ⟨k.position, k.rule.name, k.text⟩ := rfl
    cases ho : k.rule.omitted <;> simp [htoken, ho, ih]

theorem exists_chunk {chunks : List Chunk} {t : Token} (h : t ∈ chunks.filterMap (·.token?)) :
    ∃ c ∈ chunks, c.rule.omitted = false ∧ t = ⟨c.position, c.rule.name, c.text⟩ := by
  obtain ⟨c, hc, ht⟩ := List.mem_filterMap.1 h
  unfold Chunk.token? at ht
  split at ht
  · cases ht
  · next ho =>
    cases ht
    exact ⟨c, hc, by simpa using ho, rfl⟩

namespace Cuts

variable {chunks : List Chunk} {stop : Nat} {rest : List Char}

theorem tokens_sorted (h : Cuts rules 0 text chunks stop rest) :
    (chunks.filterMap (·.token?)).Pairwise (·.position < ·.position) := by
  refine List.pairwise_filterMap.2 (h.sorted.imp fun {c d} hcd s hs t ht => ?_)
  unfold Chunk.token? at hs ht
  split at hs
  · cases hs
  · split at ht
    · cases ht
    · cases hs
      cases ht
      exact hcd

theorem placed (h : Cuts rules 0 text chunks stop rest) :
    Placed text (mergeBreaks false (chunks.filterMap (·.token?))) where
  boundary t ht := by
    obtain ⟨c, hc, -, rfl⟩ := exists_chunk ((mergeBreaks_sublist ..).subset ht)
    exact (h.boundary [] rfl rfl).1 c hc
  sorted := (h.tokens_sorted.sublist (mergeBreaks_sublist ..)).imp Nat.le_of_lt
  separate := (separate_mergeBreaks ..).1

end Cuts

/-- A text has tokens if it can be cut to its end. -/
theorem lex_eq_ok_iff {ts : List Token} : lex rules text = .ok ts ↔
    ∃ chunks, Cuts rules 0 text chunks (byteLength text) [] ∧
      ts = closeTokens (byteLength text) (mergeBreaks false (chunks.filterMap (·.token?))) := by
  obtain ⟨stop, rest, hcuts, htells⟩ := cuts_chunks rules text
  unfold lex
  rcases hchunks : chunks rules text with ⟨cs, coverage⟩
  rw [hchunks] at hcuts htells
  constructor
  · intro h
    cases htells with
    | complete hrest =>
      subst hrest
      cases h
      exact ⟨cs, hcuts.stop_eq ▸ hcuts, rfl⟩
    | stuckAt _ => cases h
  · rintro ⟨cs', hcuts', rfl⟩
    obtain ⟨rfl, -, rfl⟩ := hcuts.unique htells.ends hcuts' (.inl rfl)
    cases htells with
    | complete _ => rfl
    | stuckAt hstuck => exact absurd rfl hstuck.1

/-- Otherwise it is cut off where no rule takes any of it. -/
theorem lex_eq_error_iff {fault : Fault} : lex rules text = .error fault ↔
    ∃ chunks stop rest, Cuts rules 0 text chunks stop rest ∧ Stuck rules rest ∧
      fault = .unexpectedInput stop := by
  obtain ⟨stop, rest, hcuts, htells⟩ := cuts_chunks rules text
  unfold lex
  rcases hchunks : chunks rules text with ⟨cs, coverage⟩
  rw [hchunks] at hcuts htells
  constructor
  · intro h
    cases htells with
    | complete _ => cases h
    | stuckAt hstuck =>
      cases h
      exact ⟨cs, stop, rest, hcuts, hstuck, rfl⟩
  · rintro ⟨cs', stop', rest', hcuts', hstuck, rfl⟩
    obtain ⟨rfl, rfl, rfl⟩ := hcuts.unique htells.ends hcuts' (.inr hstuck)
    cases htells with
    | complete hrest => exact absurd hrest hstuck.1
    | stuckAt _ => rfl

/-- The lexer cuts a text into chunks, from its start on and without a gap, each taken by the first
rule that takes any of what is left. It succeeds if they reach to the end, and else fails where no
rule takes any. The tokens are those of the chunks whose rules are not omitted, but for a line break
after another, with a line break at the end if one is missing and the end of the tokens. -/
theorem lex_tiles (rules : List TokenRule) (text : List Char) :
    (∀ fault, lex rules text = .error fault ↔ ∃ chunks stop rest,
      Cuts rules 0 text chunks stop rest ∧ Stuck rules rest ∧ fault = .unexpectedInput stop) ∧
    (∀ ts, lex rules text = .ok ts ↔ ∃ chunks emitted,
      Cuts rules 0 text chunks (byteLength text) [] ∧
      Emits ((chunks.filter (!·.rule.omitted)).map fun k => ⟨k.position, k.rule.name, k.text⟩)
        emitted ∧
      ts = emitted ++ endBreak (byteLength text) emitted ++ [⟨byteLength text, Token.eos, none⟩]) ∧
    ∀ chunks emitted, Cuts rules 0 text chunks (byteLength text) [] →
      Emits ((chunks.filter (!·.rule.omitted)).map fun k => ⟨k.position, k.rule.name, k.text⟩)
        emitted →
      emitted.Pairwise (·.position < ·.position) ∧
      (∀ t ∈ emitted, t.position < byteLength text) ∧
      List.IsChain Token.Separate (emitted ++ endBreak (byteLength text) emitted ++
        [⟨byteLength text, Token.eos, none⟩]) := by
  simp only [← filterMap_token?]
  refine ⟨fun fault => lex_eq_error_iff, fun ts => lex_eq_ok_iff.trans ?_,
    fun chunks emitted hcuts hemits => ?_⟩
  · simp only [← closeTokens_eq]
    constructor
    · rintro ⟨chunks, hcuts, rfl⟩
      exact ⟨chunks, _, hcuts, emits_mergeBreaks _, rfl⟩
    · rintro ⟨chunks, emitted, hcuts, hemits, rfl⟩
      exact ⟨chunks, hcuts, by rw [hemits.eq_mergeBreaks]⟩
  · rw [← closeTokens_eq]
    obtain rfl := hemits.eq_mergeBreaks
    refine ⟨hcuts.tokens_sorted.sublist (mergeBreaks_sublist ..), fun t ht => ?_,
      (placed_closeTokens hcuts.placed).separate⟩
    obtain ⟨c, hc, -, rfl⟩ := exists_chunk ((mergeBreaks_sublist ..).subset ht)
    exact (hcuts.within c hc).2.2

theorem lexed_of_lex {ts : List Token} (h : lex TokenRule.jay text = .ok ts) : Lexed text ts := by
  obtain ⟨cs, hcuts, rfl⟩ := lex_eq_ok_iff.1 h
  refine { placed_closeTokens hcuts.placed with ends := ?_ }
  have hkinds : Token.newline ≠ Token.eos := by decide
  rw [closeTokens_eq]
  refine ⟨_, _, rfl, fun t ht => ?_⟩
  rcases List.mem_append.1 ht with ht | ht
  · obtain ⟨c, hc, ho, rfl⟩ := exists_chunk ((mergeBreaks_sublist ..).subset ht)
    exact TokenRule.name_ne_eos_of_jay (hcuts.within c hc).1
  · unfold endBreak at ht
    split at ht
    · rw [List.mem_singleton.1 ht]
      exact hkinds
    · cases ht

/-- Tokens other than line breaks and the end stand at different positions, in order. -/
theorem marks_sorted_of_lex {ts : List Token} (h : lex TokenRule.jay text = .ok ts) :
    (ts.filter (!·.isLayout)).Pairwise (·.position < ·.position) := by
  obtain ⟨cs, hcuts, rfl⟩ := lex_eq_ok_iff.1 h
  have hclosed : ∀ (stop : Nat) (us : List Token),
      (closeTokens stop us).filter (!·.isLayout) = us.filter (!·.isLayout) := by
    intro stop us
    rw [closeTokens_eq, endBreak]
    split <;> simp [Token.isLayout]
  rw [hclosed]
  exact hcuts.tokens_sorted.sublist (List.filter_sublist.trans (mergeBreaks_sublist ..))

theorem worded_of_lex {ts : List Token} (h : lex TokenRule.jay text = .ok ts) : Worded ts := by
  obtain ⟨cs, hcuts, rfl⟩ := lex_eq_ok_iff.1 h
  refine fun t ht k hk hkind => ⟨hkind, ?_⟩
  have hlayout : k.name ≠ Token.newline ∧ k.name ≠ Token.eos := by
    rcases hk with hk | hk <;> cases k <;> first | decide | cases hk
  rw [closeTokens_eq, endBreak, List.mem_append, List.mem_append, List.mem_singleton] at ht
  rcases ht with (ht | ht) | ht
  · obtain ⟨c, hc, -, rfl⟩ := exists_chunk ((mergeBreaks_sublist ..).subset ht)
    obtain ⟨text, l, htake, hl⟩ := hcuts.exists_take? c hc
    have hsome := TokenRule.text_isSome
      (fun _ => TokenRule.group_isSome_of_jay (hcuts.within c hc).1 hk hkind) htake
    obtain ⟨s, hs⟩ := Option.isSome_iff_exists.1 hsome
    simp [Token.textD, hl, hs]
  · split at ht
    · rw [List.mem_singleton.1 ht] at hkind
      exact absurd hkind.symm hlayout.1
    · cases ht
  · rw [ht] at hkind
    exact absurd hkind.symm hlayout.2

/-- A text that cannot be cut into tokens is cut off at a boundary. -/
theorem boundary_of_lex_error {fault : Fault} (h : lex TokenRule.jay text = .error fault) :
    ∃ offset, fault = .unexpectedInput offset ∧ Boundary offset text := by
  obtain ⟨cs, stop, rest, hcuts, -, rfl⟩ := lex_eq_error_iff.1 h
  exact ⟨stop, rfl, (hcuts.boundary [] rfl rfl).2⟩

end JayFrontEnd
