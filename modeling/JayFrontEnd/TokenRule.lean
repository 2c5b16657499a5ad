import JayFrontEnd.Fault
import JayFrontEnd.Regex
import JayFrontEnd.Vocabulary.TokenKind

/-!
# Token rules

A token rule names a kind of token and gives its regular expression, which is tried at the place
reached so far. Rules come in a list; the first that takes any text wins. A rule may be omitted from
the tokens: what it takes is skipped.
-/

namespace JayFrontEnd

structure TokenRule where
  name : String
  regex : Regex
  omitted : Bool := false

/-- What a rule took: the number of bytes, the capture, and the text that is left. -/
structure Lexeme where
  size : Nat
  text : Option String
  rest : List Char
  deriving DecidableEq, Repr

namespace TokenRule

/-- What becomes of the source of a rule, so that it is anchored where the rule is tried. -/
def anchoredSource (source : String) : String := s!"^(?:{source})"

/-- A rule from the source of its regular expression, given what makes one of it. -/
def build (compile? : String → Option Regex) (name source : String) (omitted : Bool) :
    Except Fault TokenRule :=
  match compile? (anchoredSource source) with
  | some regex => .ok { name, regex, omitted }
  | none => .error (.grammar (.invalidTokenRule name))

def ofSource : String → String → Bool → Except Fault TokenRule := build Regex.ofSource?

/-- What the rule takes of a text, up to the end of its match; a match that ends at the start does
not count. -/
def take? (r : TokenRule) (text : List Char) : Option Lexeme :=
  match r.regex.search? text with
  | none => none
  | some m =>
    if m.stop.offset = 0 then none else some ⟨m.stop.offset, m.group? 1, m.stop.rest⟩

/-- The rules of a list of names, patterns and omissions, up to the first that is not valid, and
the fault of that one. -/
def ofSources : List (String × String × Bool) → List TokenRule × Option Fault
  | [] => ([], none)
  | (name, source, omitted) :: specs =>
    match ofSource name source omitted with
    | .error fault => ([], some fault)
    | .ok rule =>
      let (rules, fault) := ofSources specs
      (rule :: rules, fault)

/-- Names, patterns and omissions of the tokens of Jay. -/
def jaySources : List (String × String × Bool) :=
  TokenKind.all.map fun k => (k.name, k.pattern, k.omitted)

def jay : List TokenRule := (ofSources jaySources).1

variable {α : Type} {spec : α → String × String × Bool} {rule : α → TokenRule}

theorem ofSources_map
    (h : ∀ a, ofSource (spec a).1 (spec a).2.1 (spec a).2.2 = .ok (rule a)) (as : List α) :
    ofSources (as.map spec) = (as.map rule, none) := by
  induction as with
  | nil => rfl
  | cons a as ih => simp only [List.map_cons, ofSources, h a, ih]

end TokenRule

end JayFrontEnd
