import JayFrontEnd.Pattern.Match

/-!
# Searching

`Pattern.search?` finds the leftmost match of a pattern, the best one where it starts. A loop that
can go round on assertions alone is the one case in which the order of the ways to match hangs on
more than the text before them: such a loop is entered while it is not known yet whether an
assertion holds. A pattern with such a loop is therefore followed as a front of threads, best first,
that move along the text together. A thread that meets an assertion about what follows waits for the
next character; when that is known, the threads are followed once more from where they stand. The
front says where the match starts and how far it reaches; what its groups took, and every match of
another pattern, is up to `Pattern.run`.
-/

namespace JayFrontEnd

/-- Whether the assertion asks what follows a place. -/
def Assertion.asksAhead : Assertion → Bool
  | textStart | lineStart => false
  | textEnd | lineEnd | wordEdge | noWordEdge | wordStart | wordEnd => true

def Assertion.asksWords : Assertion → Bool
  | wordEdge | noWordEdge | wordStart | wordEnd => true
  | _ => false

namespace Pattern

def checks : Pattern → List Assertion
  | empty | text _ | one _ => []
  | check a => [a]
  | group _ p => p.checks
  | seq p q => p.checks ++ q.checks
  | alt p q => p.checks ++ q.checks
  | repeated _ _ _ p => p.checks

def hasGroup : Pattern → Bool
  | empty | text _ | one _ | check _ => false
  | group _ _ => true
  | seq p q => p.hasGroup || q.hasGroup
  | alt p q => p.hasGroup || q.hasGroup
  | repeated _ _ _ p => p.hasGroup

/-- Whether a loop of the pattern may go round on assertions alone. -/
def loopsOnChecks : Pattern → Bool
  | empty | text _ | one _ | check _ => false
  | group _ p => p.loopsOnChecks
  | seq p q => p.loopsOnChecks || q.loopsOnChecks
  | alt p q => p.loopsOnChecks || q.loopsOnChecks
  | repeated _ max _ p =>
    p.loopsOnChecks || (max.isNone && !p.consumes && !p.checks.isEmpty)

/-- More than the steps that lie between two characters of a match, one inside the other. -/
def extent : Pattern → Nat
  | empty | text _ | one _ | check _ => 1
  | group _ p => p.extent + 1
  | seq p q => p.extent + q.extent + 1
  | alt p q => p.extent + q.extent + 1
  | repeated min max _ p => (max.getD (min + 1)) * (p.extent + 2) + 3

end Pattern

/-- What a thread has yet to do: a pattern, or more turns of a loop. -/
inductive Task where
  | pattern (p : Pattern)
  | again (greedy : Bool) (p : Pattern)
  deriving DecidableEq, Repr

/-- A way to match that is under way: where it started, and its tasks from here on. -/
structure Thread where
  start : Place
  tasks : List Task
  deriving DecidableEq, Repr

namespace Thread

/-- Whether the next task cannot be followed before the next character is known. -/
def waits (t : Thread) : Bool :=
  match t.tasks with
  | [] | .pattern (.text _) :: _ | .pattern (.one _) :: _ | .pattern (.check _) :: _ => true
  | _ => false

def check? (t : Thread) : Option Assertion :=
  match t.tasks with
  | .pattern (.check a) :: _ => some a
  | _ => none

def take? (t : Thread) (c : Char) : Option Thread :=
  match t.tasks with
  | .pattern (.text (x :: xs)) :: rest =>
    if x = c then some { t with tasks := if xs.isEmpty then rest else .pattern (.text xs) :: rest }
    else none
  | .pattern (.one k) :: rest => if k.contains c then some { t with tasks := rest } else none
  | _ => none

/-- Follows a thread up to the next character, given the assertions that hold. What it passes is put
before the threads seen so far; a thread with the tasks of one seen before is dropped. -/
def follow (holds : Assertion → Bool) : Nat → Thread → List Thread → List Thread
  | 0, _, seen => seen
  | fuel + 1, t, seen =>
    if seen.any (·.tasks = t.tasks) then seen
    else
      let go (tasks : List Task) := follow holds fuel { t with tasks }
      let choose (greedy : Bool) (on off : List Task) :=
        if greedy then go off (go on (t :: seen)) else go on (go off (t :: seen))
      match t.tasks with
      | [] => t :: seen
      | .again greedy p :: rest => choose greedy (.pattern p :: t.tasks) rest
      | .pattern q :: rest =>
        match q with
        | .empty => go rest seen
        | .text _ | .one _ => t :: seen
        | .check a => if holds a then go rest (t :: seen) else t :: seen
        | .group _ p => go (.pattern p :: rest) seen
        | .seq p q => go (.pattern p :: .pattern q :: rest) seen
        | .alt p q => choose true (.pattern p :: rest) (.pattern q :: rest)
        | .repeated 0 (some 0) _ _ => go rest seen
        | .repeated 0 (some (max + 1)) greedy p =>
          choose greedy (.pattern p :: .pattern (.repeated 0 (some max) greedy p) :: rest) rest
        | .repeated 0 none greedy p =>
          choose greedy
            (.pattern p :: if p.consumes then t.tasks else .again greedy p :: rest) rest
        | .repeated 1 none greedy p => go (.pattern p :: .again greedy p :: rest) seen
        | .repeated (min + 1) max greedy p =>
          go (.pattern p :: .pattern (.repeated min (max.map (· - 1)) greedy p) :: rest) seen

end Thread

namespace Pattern

/-- Follows threads in order, and keeps those that wait. -/
def followAll (p : Pattern) (holds : Assertion → Bool) (threads : List Thread) : List Thread :=
  (threads.foldl (fun seen t => t.follow holds (p.extent * p.extent) seen) []).reverse.filter
    Thread.waits

/-- Moves a front of threads along a text, from the place after `before` at byte `offset`, and
answers with the best match; `best` is the one found before, and `matched` says whether it ends at
the last place. While there is none, a thread starts at every place, unless the pattern is anchored.
The front gives up where it would have to say whether a character beyond ASCII is part of a word;
it has read one character more than its best match when it stops. -/
def advance? (p : Pattern) (best : Option Match) (matched : Bool) (before : Option Char)
    (offset : Nat) (threads : List Thread) (text : List Char) : Option (Option Match) :=
  let s : Place := ⟨before, text, offset⟩
  let known := threads.any fun t => t.check?.any fun a => a.asksAhead && a.holds s
  let threads := if known then p.followAll (·.holds s) threads else threads
  let ahead := threads.takeWhile (!·.tasks.isEmpty)
  let found := (threads.find? (·.tasks.isEmpty)).map fun t => (⟨t.start, s, []⟩ : Match)
  let best := found <|> best
  match text with
  | [] => some best
  | c :: rest =>
    let restarts := best.isNone && !p.anchored
    if threads.isEmpty && !matched && !restarts then some best
    else if 128 ≤ c.toNat && p.checks.any Assertion.asksWords then none
    else
      let next := s.after c rest
      let started : List Thread := if restarts then [⟨next, [.pattern p]⟩] else []
      let moved := p.followAll (fun a => !a.asksAhead && a.holds next)
        (ahead.filterMap (·.take? c) ++ started)
      p.advance? best found.isSome (some c) next.offset moved rest

/-- The leftmost match in a text, by a front of threads. -/
def front? (p : Pattern) (text : List Char) : Option (Option Match) :=
  let s := Place.start text
  let threads := p.followAll (fun a => !a.asksAhead && a.holds s) [⟨s, [.pattern p]⟩]
  p.advance? none false none 0 threads text

def search? (p : Pattern) (text : List Char) : Option Match :=
  if p.loopsOnChecks then
    match p.front? text with
    | none => p.seek? text
    | some none => none
    | some (some m) =>
      if p.hasGroup then p.matchWith? (·.offset ≤ m.stop.offset) m.start else some m
  else p.seek? text

end Pattern

end JayFrontEnd
