import JayFrontEnd.Pattern.CharSet
import JayFrontEnd.Text.Utf8

/-!
# Patterns

Regular expressions over characters, with alternatives tried in order, repetition that prefers more
or fewer turns, capture groups, and assertions about the place reached. `CharSet.contains` and
`Assertion.holds` say what the leaves ask of a character and of a place. `Pattern.ofSeq`, `ofAlt`
and `ofRepeat` build patterns with adjacent texts joined, single characters gathered in one set, and
a common beginning of all branches written once.
-/

namespace JayFrontEnd

/-- A place in a text: the character before it, what follows, and the number of bytes before it. -/
structure Place where
  before : Option Char
  rest : List Char
  offset : Nat
  deriving DecidableEq, Repr

namespace Place

def start (cs : List Char) : Place := ⟨none, cs, 0⟩

def upTo (s t : Place) : List Char := Text.charsWithin (t.offset - s.offset) s.rest

/-- The place after the next character, given what follows it. -/
def after (s : Place) (c : Char) (rest : List Char) : Place := ⟨some c, rest, s.offset + c.utf8Size⟩

def afterText? (s : Place) : List Char → Option Place
  | [] => some s
  | c :: cs =>
    match s.rest with
    | [] => none
    | x :: rest => if x = c then (s.after x rest).afterText? cs else none

theorem afterText?_single {s : Place} {c : Char} {rest : List Char} (h : s.rest = c :: rest) :
    s.afterText? [c] = some (s.after c rest) := by
  simp [afterText?, h]

end Place

/-- A condition on a place that consumes nothing. -/
inductive Assertion where
  | textStart
  | textEnd
  | lineStart
  | lineEnd
  | wordEdge
  | noWordEdge
  | wordStart
  | wordEnd
  deriving DecidableEq, Repr

namespace Assertion

def holds (a : Assertion) (s : Place) : Bool :=
  let afterWord := s.before.any Text.isWordChar
  let beforeWord := s.rest.head?.any Text.isWordChar
  match a with
  | textStart => s.before.isNone
  | textEnd => s.rest.isEmpty
  | lineStart => s.before.all (· == '\n')
  | lineEnd => s.rest.head?.all (· == '\n')
  | wordEdge => afterWord != beforeWord
  | noWordEdge => afterWord == beforeWord
  | wordStart => !afterWord && beforeWord
  | wordEnd => afterWord && !beforeWord

end Assertion

/-- A regular expression. -/
inductive Pattern where
  | empty
  | text (cs : List Char)
  | one (k : CharSet)
  | check (a : Assertion)
  | group (index : Nat) (p : Pattern)
  | seq (p q : Pattern)
  /-- The first branch is preferred. -/
  | alt (p q : Pattern)
  /-- At least `min` turns, at most `max` if there is a bound, and as many or as few as possible. -/
  | repeated (min : Nat) (max : Option Nat) (greedy : Bool) (p : Pattern)
  deriving DecidableEq, Repr

namespace Pattern

/-- Whether every match takes at least one character. -/
def consumes : Pattern → Bool
  | empty | check _ => false
  | text cs => !cs.isEmpty
  | one _ => true
  | group _ p => p.consumes
  | seq p q => p.consumes || q.consumes
  | alt p q => p.consumes && q.consumes
  | repeated min _ _ p => min != 0 && p.consumes

/-- Whether no match takes a character. -/
def takesNothing : Pattern → Bool
  | empty | check _ => true
  | text cs => cs.isEmpty
  | one _ => false
  | group _ p => p.takesNothing
  | seq p q => p.takesNothing && q.takesNothing
  | alt p q => p.takesNothing && q.takesNothing
  | repeated _ _ _ p => p.takesNothing

def ofSet (k : CharSet) : Pattern :=
  match k.single? with
  | some c => text [c]
  | none => one k

def char (c : Char) (ignoreCase : Bool) : Pattern :=
  if ignoreCase then ofSet (CharSet.single c).foldCase else text [c]

/-- The parts that a sequence consists of. -/
def parts : Pattern → List Pattern
  | empty => []
  | seq p q => p.parts ++ q.parts
  | p => [p]

/-- Makes one text of texts that follow one another. -/
def joinTexts : List Pattern → List Pattern
  | [] => []
  | p :: ps =>
    match p, joinTexts ps with
    | text cs, text ds :: rest => text (cs ++ ds) :: rest
    | p, rest => p :: rest

def ofSeq (ps : List Pattern) : Pattern := nest (joinTexts (ps.flatMap parts))
where
  nest : List Pattern → Pattern
    | [] => empty
    | [p] => p
    | p :: ps => seq p (nest ps)

/-- The branches of a choice, the preferred first. -/
def branches : Pattern → List Pattern
  | alt p q => p.branches ++ q.branches
  | p => [p]

def char? : Pattern → Option CharSet
  | text [c] => some (.single c)
  | _ => none

def set? : Pattern → Option CharSet
  | one k => some k
  | _ => none

/-- A choice between branches. If all are texts of one character, or all are sets, it is a set. -/
def choice (ps : List Pattern) : Pattern :=
  match ps.mapM char?, ps.mapM set? with
  | some ks, _ => ofSet (.unions ks)
  | none, some ks => ofSet (.unions ks)
  | none, none => nest ps
where
  nest : List Pattern → Pattern
    | [] => empty
    | [p] => p
    | p :: ps => alt p (nest ps)

def commonStart : List Pattern → List Pattern → List Pattern
  | p :: ps, q :: qs => if p = q then p :: commonStart ps qs else []
  | _, _ => []

/-- The parts that all of some sequences begin with; a lone part is no sequence. -/
def sharedStart : List (List Pattern) → List Pattern
  | [] => []
  | ps :: pss => if (ps :: pss).all (2 ≤ ·.length) then pss.foldl commonStart ps else []

/-- A choice between patterns, the first preferred. What all branches begin with comes before it, so
that a turn of a loop that they share is not taken back for the sake of an earlier branch. -/
def ofAlt (ps : List Pattern) : Pattern :=
  let bs := ps.flatMap branches
  let start := sharedStart (bs.map parts)
  if start.isEmpty then choice bs
  else
    let ends := bs.map fun b => ofSeq (b.parts.drop start.length)
    ofSeq (start ++ [choice (ends.flatMap branches)])

/-- At least `min` turns, and at most `max` if there is a bound. One turn is as good as many if it
takes no character. -/
def ofRepeat (min : Nat) (max : Option Nat) (greedy : Bool) (p : Pattern) : Pattern :=
  let (min, max) :=
    if p.takesNothing then (Nat.min min 1, some ((max.map (Nat.min 1)).getD 1)) else (min, max)
  if max = some 0 then empty
  else if min = 1 ∧ max = some 1 then p
  else repeated min max greedy p

end Pattern

end JayFrontEnd
