import JayFrontEnd.Proofs.Anchoring
import JayFrontEnd.Proofs.Pattern.Backtracking
import JayFrontEnd.Proofs.Pattern.Normal

/-!
# Libraries of regular expressions

What a library of regular expressions promises to those who use it: it reads a source as a pattern,
and a compiled source searches a text for the leftmost match of that pattern, the preferred one
where it starts, in the order of preference that Perl has. `RegexLibrary.ofPatterns` keeps the
promise with the patterns that are defined here.
-/

namespace JayFrontEnd

structure RegexLibrary where
  compile? : String → Option Regex
  /-- The pattern that a source says, if it is one of the syntax that `Pattern` has. -/
  pattern? : String → Option Pattern
  ways : Preference

structure RegexLibrary.LikePerl (l : RegexLibrary) : Prop where
  perl : l.ways.Perl
  search : ∀ {source p regex}, l.pattern? source = some p → l.compile? source = some regex →
    ∀ text, LeftmostFirst (l.ways p) (.start text) (regex.search? text)
  /-- A source that is read by itself is read the same way in a group. -/
  grouped : ∀ {source p}, l.pattern? source = some p →
    ∃ q, l.pattern? (TokenRule.anchoredSource source) = some q ∧
      ∀ s, l.ways q s = l.ways (.seq (.check .textStart) p) s

namespace Pattern

variable {p : Pattern}

theorem steady_guarded (a : Assertion) : (guarded a p).steady = p.steady := by
  unfold guarded
  split
  · next hp => rw [hp]; rfl
  · exact Bool.true_and _

theorem ways_guarded (a : Assertion) (s : Place) :
    (guarded a p).ways s = (seq (check a) p).ways s := by
  unfold guarded
  split
  · next hp =>
    subst hp
    unfold ways
    rw [ways]
    split <;> rfl
  · rfl

end Pattern

namespace RegexLibrary

/-- The patterns that every turn of a loop goes on in. -/
def ofPatterns : RegexLibrary where
  compile? source :=
    ((Pattern.parse? source).filter Pattern.steady).map (Regex.ofPattern source)
  pattern? source := (Pattern.parse? source).filter Pattern.steady
  ways := Pattern.ways

theorem likePerl_ofPatterns : ofPatterns.LikePerl where
  perl := Pattern.perl_ways
  search {source p regex} hp h text := by
    obtain ⟨q, hq, rfl⟩ := Option.map_eq_some_iff.1 h
    obtain rfl : q = p := Option.some.inj (hq.symm.trans hp)
    exact Pattern.leftmostFirst_search? (Option.filter_eq_some_iff.1 hp).2 text
  grouped {source p} hp := by
    obtain ⟨hparse, hsteady⟩ := Option.filter_eq_some_iff.1 hp
    refine ⟨.guarded .textStart p, Option.filter_eq_some_iff.2 ⟨?_, ?_⟩, Pattern.ways_guarded _⟩
    · rw [TokenRule.anchoredSource, Pattern.parse?_grouped hparse,
        (Pattern.normal_of_parse? hparse).ofAlt_check]
    · rw [Pattern.steady_guarded]
      exact hsteady

end RegexLibrary

end JayFrontEnd
