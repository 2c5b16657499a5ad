import JayFrontEnd.Parsing.State
import JayFrontEnd.Proofs.Pattern.Library

/-!
# Pattern atoms and token rules

A parser over a text tries a pattern on all that is left of it, and keeps the match if it starts at
the cursor. A token rule puts an assertion before the pattern, so that it is tried at the cursor
only. A search that comes to the first place with a match, and takes the preferred one there, tries
the cursor before any other place: both find the same match there or none. They part in what they
make of it. A rule does not take a match that ends where it starts, and has no text if the first
group took no part; an atom takes such a match, and has all of the text instead.
-/

namespace JayFrontEnd

open Text

/-- What an atom and a rule make of a match at the cursor, which takes some of the text that is
left. -/
structure TakesAlike (regex : Regex) (rule : TokenRule) (c : Setting) (s : ParseState)
    (left : List Char) (m : Match) (taken : List Char) : Prop where
  /-- The match is the one that the search of the atom finds. -/
  found : regex.search? left = some m
  start : m.start = .start left
  text : left = taken ++ m.stop.rest
  /-- The atom takes the match, even if it is empty. -/
  atom : Parser.pattern regex c s =
    (.ok (.mk s.cursor Parser.patternKind (.text ((m.group? 1).getD (String.ofList taken)))),
      s.moveTo (s.cursor + byteLength taken))
  /-- The rule takes it unless it is empty. -/
  rule : rule.take? left =
    if taken = [] then none else some ⟨byteLength taken, m.group? 1, m.stop.rest⟩

/-- Neither the atom nor the rule takes anything at the cursor. -/
structure FailsAlike (regex : Regex) (rule : TokenRule) (c : Setting) (s : ParseState)
    (left : List Char) : Prop where
  atom : Parser.pattern regex c s = Parser.fail (.expectedPattern regex.source) c s
  rule : rule.take? left = none

/-- The atom takes what the search of the rule finds, and fails where it finds nothing. -/
structure MatchAlike (regex : Regex) (rule : TokenRule) (c : Setting) (s : ParseState)
    (left : List Char) : Prop where
  takes : ∀ m, rule.regex.search? left = some m → ∃ taken, TakesAlike regex rule c s left m taken
  fails : rule.regex.search? left = none → FailsAlike regex rule c s left

def Preference.bestAt? (ways : Preference) (p : Pattern) (s : Place) : Option Match :=
  (ways p s).head?.map fun w => ⟨s, w.stop, w.groups⟩

namespace LeftmostFirst

variable {ways : Preference} {p : Pattern} {left : List Char} {answer : Option Match}

/-- What starts at the cursor is preferred there, and every other match starts behind it. -/
theorem filter_eq_bestAt? (h : LeftmostFirst (ways p) (.start left) answer) :
    answer.filter (·.start.offset = 0) = ways.bestAt? p (.start left) := by
  cases h with
  | missing hall =>
    rw [Preference.bestAt?, hall [] _ rfl]
    rfl
  | @found before s w hbefore hearlier hw =>
    cases before with
    | nil =>
      cases hbefore
      rw [Preference.bestAt?, hw]
      exact Option.filter_some_pos (decide_eq_true rfl)
    | cons c cs =>
      have hnone : ways p (.start left) = [] :=
        hearlier [] _ List.nil_prefix (List.cons_ne_nil c cs).symm rfl
      have hoffset := (Place.Leads.afterText? hbefore).offset
      have hpos := c.utf8Size_pos
      rw [Preference.bestAt?, hnone]
      refine Option.filter_some_neg (decide_eq_false ?_)
      rw [byteLength_cons] at hoffset
      dsimp only
      omega

theorem eq_bestAt? (h : LeftmostFirst (ways p) (.start left) answer)
    (hp : ∀ s : Place, s.before ≠ none → ways p s = []) :
    answer = ways.bestAt? p (.start left) := by
  rw [← h.filter_eq_bestAt?]
  cases h with
  | missing => rfl
  | @found before s w hbefore _ hw =>
    rcases List.eq_nil_or_concat before with rfl | ⟨cs, c, rfl⟩
    · cases hbefore
      rfl
    · rw [List.concat_eq_append] at hbefore
      have hnone := hp s (Place.before_of_afterText? cs hbefore ▸ Option.some_ne_none c)
      rw [hnone] at hw
      cases hw

end LeftmostFirst

section Search

variable {l : RegexLibrary} {source : String} {p : Pattern} {regex : Regex} {rule : TokenRule}
  {c : Setting} {s : ParseState} {text left : List Char}

/-- An assertion before a pattern leaves it as it is at the start of a text. -/
theorem Preference.Perl.ways_check {ways : Preference} (h : ways.Perl) (p : Pattern) (s : Place) :
    ways (.seq (.check .textStart) p) s = if s.before = none then ways p s else [] := by
  rw [h.seq, h.check]
  cases hbefore : s.before with
  | none => simp [Assertion.holds, hbefore, Way.chain_stay]
  | some c => simp [Assertion.holds, hbefore, Way.chain]

theorem RegexLibrary.LikePerl.search_rule (hl : l.LikePerl) (hp : l.pattern? source = some p)
    {name : String} {omitted : Bool}
    (hrule : TokenRule.build l.compile? name source omitted = .ok rule) (left : List Char) :
    rule.regex.search? left = l.ways.bestAt? p (.start left) := by
  obtain ⟨q, hq, hways⟩ := hl.grouped hp
  unfold TokenRule.build at hrule
  split at hrule
  · next anchored hcompile =>
    obtain rfl := Except.ok.inj hrule
    have hq (s : Place) : l.ways q s = if s.before = none then l.ways p s else [] :=
      (hways s).trans (hl.perl.ways_check p s)
    have hsearch := hl.search ‹_› hcompile left
    rw [hsearch.eq_bestAt? fun s hs => (hq s).trans (if_neg hs), Preference.bestAt?, hq]
    rfl
  · cases hrule

theorem Parser.pattern_eq (hc : c.input = .text text)
    (hleft : dropBytes? s.cursor text = some left) : Parser.pattern regex c s =
      match (regex.search? left).filter (·.start.offset = 0) with
      | none => Parser.fail (.expectedPattern regex.source) c s
      | some m =>
        (.ok (.mk s.cursor patternKind (.text ((m.group? 1).getD m.text))),
          s.moveTo (s.cursor + m.stop.offset)) := by
  have htext : (Input.text text).textFrom s.cursor = left := by
    rw [Input.textFrom, hleft]
    rfl
  cases hfound : (regex.search? left).filter (·.start.offset = 0) <;>
    simp only [Parser.pattern, hc, htext, hfound]

theorem Regex.exists_taken {m : Match} (h : regex.search? left = some m)
    (hstart : m.start = .start left) : ∃ taken, left = taken ++ m.stop.rest ∧
      m.stop.offset = byteLength taken ∧ m.text = String.ofList taken := by
  obtain ⟨-, taken, -, htaken⟩ := regex.liesIn_search? h
  rw [hstart] at htaken
  refine ⟨taken, htaken.rest, htaken.offset.trans (Nat.zero_add _), ?_⟩
  rw [Match.text, hstart, htaken.upTo]

/-- An atom and a rule that find the best match at the cursor agree on it. -/
theorem alike_of_search (hc : c.input = .text text) (hleft : dropBytes? s.cursor text = some left)
    (hatom : (regex.search? left).filter (·.start.offset = 0) = rule.regex.search? left)
    (hstart : ∀ m, rule.regex.search? left = some m → m.start = .start left) :
    MatchAlike regex rule c s left := by
  have hpattern : Parser.pattern regex c s = _ := Parser.pattern_eq hc hleft
  constructor
  case takes =>
    intro m hfound
    have hm := hstart m hfound
    obtain ⟨taken, hsplit, hsize, htaken⟩ := rule.regex.exists_taken hfound hm
    rw [hfound] at hatom
    rw [hatom] at hpattern
    refine ⟨taken, (Option.filter_eq_some_iff.1 hatom).1, hm, hsplit, ?_, ?_⟩
    · rw [hpattern, ← htaken, ← hsize]
    · rw [TokenRule.take?, hfound, ← hsize]
      simp only [hsize, byteLength_eq_zero]
  case fails =>
    intro hnone
    rw [hatom, hnone] at hpattern
    exact ⟨hpattern, by rw [TokenRule.take?, hnone]⟩

end Search

/-- For every source that a library reads as a pattern by itself, and every rule that is made of it:
in every text, wherever the cursor stands between two characters, an atom with the source and the
rule find the same match there, or none. Both take the same text, and the first group has the same
part of it; the rule does not take a match that is empty, and has no text if the group took no part,
where the atom has all that was taken. -/
theorem atom_alike_rule {l : RegexLibrary} (hl : l.LikePerl) {source : String} {p : Pattern}
    (hp : l.pattern? source = some p) {regex : Regex} (hregex : l.compile? source = some regex)
    {name : String} {omitted : Bool} {rule : TokenRule}
    (hrule : TokenRule.build l.compile? name source omitted = .ok rule) {c : Setting}
    {s : ParseState} {text left : List Char} (hc : c.input = .text text)
    (hleft : dropBytes? s.cursor text = some left) : MatchAlike regex rule c s left := by
  have hsearch := hl.search_rule hp hrule left
  refine alike_of_search hc hleft ?_ fun m hm => ?_
  · rw [(hl.search hp hregex left).filter_eq_bestAt?, hsearch]
  · obtain ⟨w, -, rfl⟩ := Option.map_eq_some_iff.1 (hsearch ▸ hm)
    rfl

/-- The pattern of `(a)?b|$`. -/
def Pattern.pairOrEnd : Pattern :=
  .alt (.seq (.repeated 0 (some 1) true (.group 1 (.text ['a']))) (.text ['b'])) (.check .textEnd)

/-- No match at the cursor, one with the first group, one without it, and an empty one. -/
theorem atom_alike_rule_pairOrEnd : ∃ rule,
    TokenRule.build RegexLibrary.ofPatterns.compile? "T" "(a)?b|$" false = .ok rule ∧
    let atom : Regex := .ofPattern "(a)?b|$" .pairOrEnd
    let c : Setting := ⟨.text "xabb".toList, none⟩
    FailsAlike atom rule c ⟨0, none, []⟩ "xabb".toList ∧
    (∃ m, m.group? 1 = some "a" ∧ TakesAlike atom rule c ⟨1, none, []⟩ "abb".toList m ['a', 'b']) ∧
    (∃ m, m.group? 1 = none ∧ TakesAlike atom rule c ⟨3, none, []⟩ ['b'] m ['b']) ∧
    ∃ m, TakesAlike atom rule c ⟨4, none, []⟩ [] m [] := by
  let atom : Regex := .ofPattern "(a)?b|$" .pairOrEnd
  let anchored : Regex := .ofPattern (TokenRule.anchoredSource "(a)?b|$")
    (.seq (.check .textStart) .pairOrEnd)
  have hp : RegexLibrary.ofPatterns.pattern? "(a)?b|$" = some .pairOrEnd := by decide +kernel
  have hregex : RegexLibrary.ofPatterns.compile? "(a)?b|$" = some atom := by
    exact congrArg (Option.map (Regex.ofPattern _)) hp
  have hanchored : RegexLibrary.ofPatterns.pattern? (TokenRule.anchoredSource "(a)?b|$") =
      some (.seq (.check .textStart) .pairOrEnd) := by decide +kernel
  have hrule : TokenRule.build RegexLibrary.ofPatterns.compile? "T" "(a)?b|$" false =
      .ok ⟨"T", anchored, false⟩ := by
    have hcompile : RegexLibrary.ofPatterns.compile? (TokenRule.anchoredSource "(a)?b|$") =
        some anchored := congrArg (Option.map (Regex.ofPattern _)) hanchored
    rw [TokenRule.build, hcompile]
  have halike (cursor : Nat) (left : List Char)
      (hleft : dropBytes? cursor "xabb".toList = some left) :=
    atom_alike_rule RegexLibrary.likePerl_ofPatterns hp hregex hrule
      (c := ⟨.text "xabb".toList, none⟩) (s := ⟨cursor, none, []⟩) rfl hleft
  let pair : Match := ⟨.start "abb".toList, ⟨some 'b', ['b'], 2⟩, [(1, ['a'])]⟩
  let single : Match := ⟨.start ['b'], ⟨some 'b', [], 1⟩, []⟩
  let nothing : Match := ⟨.start [], .start [], []⟩
  refine ⟨_, hrule, ?_, ⟨pair, by decide +kernel, ?_⟩, ⟨single, by decide +kernel, ?_⟩, nothing, ?_⟩
  · exact (halike 0 _ (by decide +kernel)).fails (by decide +kernel)
  · obtain ⟨taken, h⟩ := (halike 1 "abb".toList (by decide +kernel)).takes pair (by decide +kernel)
    obtain rfl : ['a', 'b'] = taken := List.append_cancel_right h.text
    exact h
  · obtain ⟨taken, h⟩ := (halike 3 ['b'] (by decide +kernel)).takes single (by decide +kernel)
    obtain rfl : ['b'] = taken := List.append_cancel_right h.text
    exact h
  · obtain ⟨taken, h⟩ := (halike 4 [] (by decide +kernel)).takes nothing (by decide +kernel)
    obtain rfl : [] = taken := List.append_cancel_right h.text
    exact h

end JayFrontEnd
