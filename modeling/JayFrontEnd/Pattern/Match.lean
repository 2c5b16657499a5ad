import JayFrontEnd.Pattern.Basic

/-!
# Matching patterns

`Pattern.run` offers the ways in which a pattern matches at a place, best first, to a continuation,
and answers with the first that the continuation accepts. A pattern chooses where branches part, at
a turn that may be left out, and after each turn of a loop; the choices of a pattern are numbered
from left to right, and none is made twice at one place. A second time could only lead to what the
first has failed to reach or is still about to try, so a search takes time in proportion to pattern
and text, and a loop ends when a turn has taken nothing.

`matchAt?` takes the best match at a place, `seek?` the best match at the first place that has one.
-/

namespace JayFrontEnd

/-- The text each capture group took last, the latest first. -/
abbrev Groups := List (Nat × List Char)

/-- The choices made in a search that begins at byte `origin`: choice `n` of `width` is kept for
each offset as a bit of one number. -/
structure Tried where
  origin : Nat
  width : Nat
  bits : Nat := 0

namespace Tried

/-- The bit of choice `n` at an offset. -/
def bit (t : Tried) (n offset : Nat) : Nat := (offset - t.origin) * t.width + n

def contains (t : Tried) (n offset : Nat) : Bool := t.bits.testBit (t.bit n offset)

def insert (t : Tried) (n offset : Nat) : Tried :=
  { t with bits := t.bits ||| (1 <<< t.bit n offset) }

end Tried

namespace Pattern

/-- The number of choices in a pattern; every turn of a counted repetition has its own. -/
def choices : Pattern → Nat
  | empty | text _ | one _ | check _ => 0
  | group _ p => p.choices
  | seq p q => p.choices + q.choices
  | alt p q => 1 + p.choices + q.choices
  | repeated min none _ p => Nat.max min 1 * p.choices + 2
  | repeated min (some max) _ p => max * p.choices + (max - min)

/-- What is done from a place on: an answer, or none, and the choices made by then. -/
abbrev Continuation (β : Type) := Place → Groups → Tried → Option β × Tried

/-- How a part of a pattern goes on to a continuation. -/
abbrev Runner (β : Type) := Place → Groups → Continuation β → Tried → Option β × Tried

/-- The answer of the first attempt, or else of the second. -/
def orElse {β : Type} (first second : Tried → Option β × Tried) (tried : Tried) :
    Option β × Tried :=
  match first tried with
  | (none, tried) => second tried
  | answer => answer

/-- Choice `n` at a place, between going on and leaving. -/
def choose {β : Type} (n : Nat) (s : Place) (greedy : Bool) (on off : Tried → Option β × Tried)
    (tried : Tried) : Option β × Tried :=
  if tried.contains n s.offset then (none, tried)
  else if greedy then orElse on off (tried.insert n s.offset)
  else orElse off on (tried.insert n s.offset)

/-- Any number of turns, each after choice `n`. The list bounds their number: whenever the choice is
made again, less of the text is left. -/
def loop {β : Type} (n : Nat) (greedy : Bool) (turn : Runner β) (k : Continuation β) :
    List Char → Continuation β
  | [], s, gs, tried =>
    choose n s greedy (turn s gs fun _ _ tried => (none, tried)) (k s gs) tried
  | _ :: fuel, s, gs, tried =>
    choose n s greedy (turn s gs (loop n greedy turn k fuel)) (k s gs) tried

/-- A number of turns with `width` choices each, the first of them numbered `n`. -/
def exactly {β : Type} (width : Nat) (turn : Nat → Runner β) (k : Continuation β) :
    Nat → Nat → Continuation β
  | 0, _, s, gs, tried => k s gs tried
  | count + 1, n, s, gs, tried =>
    turn n s gs (exactly width turn k count (n + width)) tried

/-- At most a number of turns, with a choice before each and `width` choices in it. -/
def atMost {β : Type} (width : Nat) (greedy : Bool) (turn : Nat → Runner β) (k : Continuation β) :
    Nat → Nat → Continuation β
  | 0, _, s, gs, tried => k s gs tried
  | count + 1, n, s, gs, tried =>
    choose n s greedy
      (turn (n + 1) s gs (atMost width greedy turn k count (n + 1 + width))) (k s gs) tried

/-- The best match of a pattern at a place that the continuation accepts. The choices of the pattern
are numbered from `n` on. -/
def run {β : Type} : Pattern → Nat → Runner β
  | empty, _, s, gs, k, tried => k s gs tried
  | text cs, _, s, gs, k, tried =>
    match s.afterText? cs with
    | none => (none, tried)
    | some t => k t gs tried
  | one c, _, s, gs, k, tried =>
    match s.rest with
    | [] => (none, tried)
    | x :: rest => if c.contains x then k (s.after x rest) gs tried else (none, tried)
  | check a, _, s, gs, k, tried => if a.holds s then k s gs tried else (none, tried)
  | group i p, n, s, gs, k, tried => p.run n s gs (fun t gs => k t ((i, s.upTo t) :: gs)) tried
  | seq p q, n, s, gs, k, tried =>
    p.run n s gs (fun t gs => q.run (n + p.choices) t gs k) tried
  | alt p q, n, s, gs, k, tried =>
    choose n s true (p.run (n + 1) s gs k) (q.run (n + 1 + p.choices) s gs k) tried
  | repeated min (some max) greedy p, n, s, gs, k, tried =>
    exactly p.choices p.run (atMost p.choices greedy p.run k (max - min) (n + min * p.choices))
      min n s gs tried
  | repeated 0 none greedy p, n, s, gs, k, tried =>
    if p.consumes then loop n greedy (p.run (n + 2)) k s.rest s gs tried
    else
      choose n s greedy
        (p.run (n + 2) s gs fun t =>
          loop (n + 1) greedy (p.run (n + 2)) k t.rest t)
        (k s gs) tried
  | repeated (min + 1) none greedy p, n, s, gs, k, tried =>
    let last := n + min * p.choices
    exactly p.choices p.run
      (fun t gs => p.run last t gs fun t =>
        loop (last + p.choices) greedy (p.run last) k t.rest t)
      min n s gs tried

end Pattern

/-- A match: where it starts and stops, and what its groups took. -/
structure Match where
  start : Place
  stop : Place
  groups : Groups
  deriving DecidableEq, Repr

namespace Match

def text (m : Match) : String := String.ofList (m.start.upTo m.stop)

/-- The text of a capture group, if the group took part. -/
def group? (m : Match) (n : Nat) : Option String := (m.groups.lookup n).map String.ofList

end Match

namespace Pattern

/-- The best match of those that start at a place and that `f` accepts by where they stop. -/
def matchWith? (p : Pattern) (f : Place → Bool) (s : Place) : Option Match :=
  let accept : Continuation Match := fun t gs tried =>
    (if f t then some ⟨s, t, gs⟩ else none, tried)
  (p.run 0 s [] accept { origin := s.offset, width := p.choices }).1

def matchAt? (p : Pattern) (s : Place) : Option Match := p.matchWith? (fun _ => true) s

/-- The best match at the first place, `s` or later, that has one. -/
def searchFrom? (p : Pattern) (before : Option Char) (offset : Nat) :
    List Char → Option Match
  | [] => p.matchAt? ⟨before, [], offset⟩
  | c :: rest =>
    p.matchAt? ⟨before, c :: rest, offset⟩ <|>
      p.searchFrom? (some c) (offset + c.utf8Size) rest

/-- Whether the pattern asks for the start of the text before anything else. -/
def anchored : Pattern → Bool
  | check .textStart => true
  | group _ p => p.anchored
  | seq p _ => p.anchored
  | alt p q => p.anchored && q.anchored
  | repeated min _ _ p => min != 0 && p.anchored
  | _ => false

/-- The leftmost match in a text. An anchored pattern is tried at the start only. -/
def seek? (p : Pattern) (text : List Char) : Option Match :=
  if p.anchored then p.matchAt? (.start text) else p.searchFrom? none 0 text

theorem orElse_eq_none {β : Type} {a b : Tried → Option β × Tried}
    (ha : ∀ tried, (a tried).1 = none) (hb : ∀ tried, (b tried).1 = none) (tried : Tried) :
    (orElse a b tried).1 = none := by
  unfold orElse
  split
  · exact hb _
  · exact ha _

theorem choose_eq_none {β : Type} {a b : Tried → Option β × Tried} (n : Nat) (s : Place)
    (greedy : Bool) (ha : ∀ tried, (a tried).1 = none) (hb : ∀ tried, (b tried).1 = none)
    (tried : Tried) : (choose n s greedy a b tried).1 = none := by
  unfold choose
  split
  · rfl
  · split
    · exact orElse_eq_none ha hb _
    · exact orElse_eq_none hb ha _

theorem run_eq_none_of_anchored {β : Type} {p : Pattern} (hp : p.anchored = true) {s : Place}
    (hs : s.before.isSome = true) (n : Nat) (gs : Groups) (k : Continuation β) (tried : Tried) :
    (p.run n s gs k tried).1 = none := by
  induction p generalizing n gs k tried with
  | empty | text | one => simp [anchored] at hp
  | check a =>
    obtain ⟨c, hc⟩ := Option.isSome_iff_exists.1 hs
    cases a with
    | textStart => simp [run, Assertion.holds, hc]
    | _ => simp [anchored] at hp
  | group _ p ih | seq p _ ih => exact ih hp _ _ _ _
  | alt p q ihp ihq =>
    simp only [anchored, Bool.and_eq_true] at hp
    exact choose_eq_none _ _ _ (fun _ => ihp hp.1 _ _ _ _) (fun _ => ihq hp.2 _ _ _ _) _
  | repeated min max greedy p ih =>
    simp only [anchored, Bool.and_eq_true, bne_iff_ne] at hp
    obtain ⟨m, rfl⟩ := Nat.exists_eq_succ_of_ne_zero hp.1
    cases max with
    | some max => exact ih hp.2 _ _ _ _
    | none =>
      cases m with
      | zero => exact ih hp.2 _ _ _ _
      | succ m => exact ih hp.2 _ _ _ _

theorem searchFrom?_eq_none_of_anchored {p : Pattern} (hp : p.anchored = true) (c : Char)
    (offset : Nat) (text : List Char) : p.searchFrom? (some c) offset text = none := by
  induction text generalizing c offset with
  | nil => exact run_eq_none_of_anchored hp rfl _ _ _ _
  | cons d rest ih =>
    simp [searchFrom?, ih, matchAt?, matchWith?,
      run_eq_none_of_anchored hp (s := ⟨some c, d :: rest, offset⟩)]

/-- Trying an anchored pattern elsewhere would find nothing more. -/
theorem seek?_eq_searchFrom? (p : Pattern) (text : List Char) :
    p.seek? text = p.searchFrom? none 0 text := by
  unfold seek?
  split
  · next hp =>
    cases text with
    | nil => rfl
    | cons c rest =>
      simp [searchFrom?, Place.start, searchFrom?_eq_none_of_anchored hp]
  · rfl

end Pattern

end JayFrontEnd
