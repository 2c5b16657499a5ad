import JayFrontEnd.Proofs.Pattern.Building
import JayFrontEnd.Proofs.Pattern.Reading
import JayFrontEnd.Proofs.Tiling

/-!
# Rules take what their patterns match

A rule is tried on what is left of a text, with an assertion before its pattern that holds at the
start only. If the pattern is one by itself, it matches from there to the end of the chunk. Text
that closes the group around it opens a branch that the assertion does not stand before; such a rule
takes a match further on, and with it all text that lies before the match.
-/

namespace JayFrontEnd

open Text

namespace Pattern

theorem start_of_search? {p : Pattern} (hp : p.anchored = true) {text : List Char} {m : Match}
    (h : p.search? text = some m) : m.start = .start text := by
  obtain ⟨⟨cs, hcs⟩, hreaches⟩ := finds_of_search? h
  have hbefore := hreaches.before_eq_none hp
  rcases List.eq_nil_or_concat cs with rfl | ⟨cs, c, rfl⟩
  · exact (Option.some.inj hcs).symm
  · rw [List.concat_eq_append] at hcs
    rw [Place.before_of_afterText? cs hcs] at hbefore
    cases hbefore

end Pattern

/-- The pattern matches the text of the chunk, from where the chunk begins to where it ends. -/
def Chunk.IsMatch (c : Chunk) (p : Pattern) (text : List Char) : Prop :=
  ∃ before taken rest stop, text = before ++ taken ++ rest ∧ c.position = byteLength before ∧
    c.size = byteLength taken ∧ p.Reaches (.start (taken ++ rest)) stop ∧ stop.rest = rest

variable {name source : String} {omitted : Bool} {p : Pattern}

namespace TokenRule

theorem reaches_of_take? {r : TokenRule} (hr : r.regex.search? = p.search?)
    (hp : p.anchored = true) {text : List Char} {l : Lexeme} (h : r.take? text = some l) :
    ∃ t, p.Reaches (.start text) t ∧ t.rest = l.rest := by
  unfold take? at h
  rw [hr] at h
  split at h
  · cases h
  · next m hm =>
    split at h
    · cases h
    · cases h
      have hstart := Pattern.start_of_search? hp hm
      exact ⟨m.stop, hstart ▸ (Pattern.finds_of_search? hm).reaches, rfl⟩

theorem ofSource_eq_ok (hp : Pattern.parse? source = some p) :
    ofSource name source omitted = .ok ⟨name, .ofPattern (anchoredSource source)
      (.ofAlt [.ofSeq [.check .textStart, p]]), omitted⟩ := by
  rw [ofSource, build, Regex.ofSource?, anchoredSource, Pattern.parse?_grouped hp]
  rfl

end TokenRule

variable {rules : List TokenRule} {text : List Char} {c : Chunk}

/-- A chunk is what its rule takes of the text that is left. -/
theorem Cuts.exists_left {cs rest : List Char} {start stop : Nat} {pieces : List Chunk}
    (h : Cuts rules start cs pieces stop rest) : ∀ k ∈ pieces, ∃ before left taken l,
      cs = before ++ left ∧ k.position = start + byteLength before ∧ k.rule.take? left = some l ∧
      k.size = l.size ∧ l.Takes taken left := by
  induction h with
  | nil => exact nofun
  | @cons start stop cs taken rest r l pieces hfirst htakes _ ih =>
    refine List.forall_mem_cons.2
      ⟨⟨[], cs, taken, l, rfl, rfl, hfirst.takes, rfl, htakes⟩, fun k hk => ?_⟩
    obtain ⟨before, left, taken', l', hleft, hposition, htake, hsize, htakes'⟩ := ih k hk
    refine ⟨taken ++ before, left, taken', l', ?_, ?_, htake, hsize, htakes'⟩
    · rw [htakes.text, hleft, List.append_assoc]
    · rw [hposition, htakes.size, byteLength_append, Nat.add_assoc]

/-- Chunks of rules with anchored patterns are matches of them. -/
theorem isMatch_of_anchored (hc : c ∈ (chunks rules text).1)
    (hrule : c.rule.regex.search? = p.search?) (hp : p.anchored = true) : c.IsMatch p text := by
  obtain ⟨_, _, hcuts, -⟩ := cuts_chunks rules text
  obtain ⟨before, left, taken, l, hleft, hposition, htake, hsize, htakes⟩ :=
    hcuts.exists_left c hc
  obtain ⟨t, hreaches, hrest⟩ := TokenRule.reaches_of_take? hrule hp htake
  refine ⟨before, taken, l.rest, t, ?_, ?_, hsize.trans htakes.size, htakes.text ▸ hreaches, hrest⟩
  · rw [List.append_assoc, ← htakes.text, hleft]
  · rw [hposition, Nat.zero_add]

/-- A source that is a pattern by itself makes a rule, and each chunk of that rule, in any text and
among any rules, is a match of the pattern that begins where the chunk does. So no text is skipped
in front of a match. -/
theorem chunks_isMatch {source : String} {p : Pattern} (hp : Pattern.parse? source = some p)
    (name : String) (omitted : Bool) :
    ∃ rule, TokenRule.ofSource name source omitted = .ok rule ∧
      ∀ (rules : List TokenRule) (text : List Char), ∀ c ∈ (chunks rules text).1,
        c.rule = rule → c.IsMatch p text := by
  refine ⟨_, TokenRule.ofSource_eq_ok hp, fun rules text c hc hrule => ?_⟩
  obtain ⟨before, taken, rest, stop, htext, hposition, hsize, hreaches, hrest⟩ :=
    isMatch_of_anchored hc (hrule ▸ rfl) (Pattern.anchored_ofAlt_check p)
  rw [Pattern.reaches_ofAlt_check] at hreaches
  exact ⟨before, taken, rest, stop, htext, hposition, hsize, hreaches.2, hrest⟩

theorem chunks_isMatch_bothBranches : ∃ rule, TokenRule.ofSource "T" "a|bc" false = .ok rule ∧
    (chunks [rule] "bca".toList).1 = [⟨0, rule, 2, none⟩, ⟨2, rule, 1, none⟩] ∧
    Chunk.IsMatch ⟨0, rule, 2, none⟩ (.alt (.text ['a']) (.text ['b', 'c'])) "bca".toList ∧
    Chunk.IsMatch ⟨2, rule, 1, none⟩ (.alt (.text ['a']) (.text ['b', 'c'])) "bca".toList := by
  have hsource : Pattern.parse? "a|bc" = some (.alt (.text ['a']) (.text ['b', 'c'])) := by
    decide +kernel
  obtain ⟨rule, hrule, hall⟩ := chunks_isMatch hsource "T" false
  let both : TokenRule := ⟨"T", .ofPattern (TokenRule.anchoredSource "a|bc")
    (.seq (.check .textStart) (.alt (.text ['a']) (.text ['b', 'c']))), false⟩
  obtain rfl : both = rule := Except.ok.inj hrule
  have hchunks : (chunks [both] "bca".toList).1 = [⟨0, both, 2, none⟩, ⟨2, both, 1, none⟩] := by
    have hfirst : both.take? ['b', 'c', 'a'] = some ⟨2, none, ['a']⟩ := by decide +kernel
    have hsecond : both.take? ['a'] = some ⟨1, none, []⟩ := by decide +kernel
    simp [chunks, chunksFrom, firstTaking?, hfirst, hsecond]
  refine ⟨both, hrule, hchunks, hall [both] _ _ ?_ rfl, hall [both] _ _ ?_ rfl⟩
  · rw [hchunks]
    exact .head _
  · rw [hchunks]
    exact .tail _ (.head _)

/-- What is made of `a)|(?:b`: the assertion stands before the first branch only. -/
def Pattern.closedEarly : Pattern := .alt (.seq (.check .textStart) (.text ['a'])) (.text ['b'])

def TokenRule.closedEarly : TokenRule :=
  ⟨"T", .ofPattern (anchoredSource "a)|(?:b") .closedEarly, false⟩

/-- A source that closes the group early takes text in front of its match. -/
theorem not_isMatch_closedEarly :
    TokenRule.ofSource "T" "a)|(?:b" false = .ok .closedEarly ∧
      (chunks [.closedEarly] "cb".toList).1 = [⟨0, .closedEarly, 2, none⟩] ∧
      ¬ Chunk.IsMatch ⟨0, .closedEarly, 2, none⟩ .closedEarly "cb".toList := by
  refine ⟨rfl, ?_, ?_⟩
  · have htake : TokenRule.closedEarly.take? ['c', 'b'] = some ⟨2, none, []⟩ := by decide +kernel
    simp [chunks, chunksFrom, firstTaking?, htake]
  · rintro ⟨before, taken, rest, stop, htext, hposition, -, hreaches, -⟩
    obtain rfl : before = [] := byteLength_eq_zero.1 hposition.symm
    have hstart : Place.start (taken ++ rest) = .start ['c', 'b'] := congrArg _ htext.symm
    rw [hstart] at hreaches
    rcases Pattern.reaches_alt.1 hreaches with h | h
    · obtain ⟨u, hu, h⟩ := Pattern.reaches_seq.1 h
      obtain ⟨-, rfl⟩ := Pattern.reaches_check.1 hu
      cases Pattern.reaches_text.1 h
    · cases Pattern.reaches_text.1 h

end JayFrontEnd
