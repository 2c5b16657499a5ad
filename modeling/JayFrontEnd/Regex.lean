import JayFrontEnd.Pattern.Parser
import JayFrontEnd.Proofs.Pattern.Front

/-!
# Regular expressions

To the rest of the front end a regular expression is how it was written and how it searches a text;
all it has to promise is that a match lies within the text. `Regex.ofSource?` makes one by the
patterns of this library.
-/

namespace JayFrontEnd

structure Regex where
  source : String
  /-- The match that a search of the text finds. -/
  search? : List Char → Option Match
  liesIn_search? : ∀ {text m}, search? text = some m → m.LiesIn text

namespace Regex

def ofPattern (source : String) (p : Pattern) : Regex where
  source := source
  search? := p.search?
  liesIn_search? := p.liesIn_search?

def ofSource? (source : String) : Option Regex := (Pattern.parse? source).map (ofPattern source)

theorem stop_of_search? (r : Regex) {text : List Char} {m : Match} (h : r.search? text = some m) :
    ∃ cs, text = cs ++ m.stop.rest ∧ m.stop.offset = Text.byteLength cs := by
  obtain ⟨before, taken, hbefore, htaken⟩ := r.liesIn_search? h
  have hstop := hbefore.trans htaken
  exact ⟨before ++ taken, hstop.rest, hstop.offset.trans (Nat.zero_add _)⟩

end Regex

end JayFrontEnd
