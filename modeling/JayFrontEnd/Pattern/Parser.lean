import JayFrontEnd.Pattern.Basic

/-!
# Reading patterns

`Pattern.parse?` reads the written form of a pattern: literals, escapes, dot, bracketed classes with
ranges and negation, groups, alternation, greedy and lazy repetition, text, line and word
assertions, and the flags `i`, `m` and `s`, which hold to the end of the group they stand in. A
reader walks the characters and keeps, for every open group, the branches read so far.
-/

namespace JayFrontEnd.Pattern

structure Flags where
  ignoreCase : Bool := false
  multiLine : Bool := false
  dotAll : Bool := false
  deriving DecidableEq, Repr

/-- A group that is still open: what came before it, and the flags to go back to. -/
structure OpenGroup where
  index : Option Nat
  flags : Flags
  branches : List Pattern
  items : List Pattern
  deriving Repr

/-- What has been read of a pattern. Branches and items are kept latest first. -/
structure Reader where
  flags : Flags := {}
  captures : Nat := 0
  branches : List Pattern := []
  items : List Pattern := []
  /-- Whether a repetition sign may follow. -/
  repeatable : Bool := false
  outer : List OpenGroup := []
  deriving Repr

namespace Reader

def push (r : Reader) (p : Pattern) : Reader := { r with items := p :: r.items, repeatable := true }

def char (r : Reader) (c : Char) : Reader := r.push (.char c r.flags.ignoreCase)

def branch (r : Reader) : Pattern := ofSeq r.items.reverse

/-- All branches read in the innermost group. -/
def choice (r : Reader) : Pattern := ofAlt (r.branch :: r.branches).reverse

def nextBranch (r : Reader) : Reader :=
  { r with branches := r.branch :: r.branches, items := [], repeatable := false }

def setFlags (r : Reader) (flags : Flags) : Reader := { r with flags, repeatable := false }

def openGroup (r : Reader) (captures : Bool) (flags : Flags) : Reader :=
  let n := r.captures + 1
  { flags
    captures := if captures then n else r.captures
    outer := ⟨if captures then some n else none, r.flags, r.branches, r.items⟩ :: r.outer }

def closeGroup (r : Reader) : Option Reader :=
  match r.outer with
  | [] => none
  | g :: outer =>
    let p := match g.index with
      | some n => .group n r.choice
      | none => r.choice
    some { flags := g.flags, captures := r.captures, branches := g.branches
           items := p :: g.items, repeatable := true, outer }

def quantify (r : Reader) (min : Nat) (max : Option Nat) (greedy : Bool) : Option Reader :=
  match r.repeatable, r.items with
  | true, p :: items => some { r with items := ofRepeat min max greedy p :: items }
  | _, _ => none

def finish (r : Reader) : Option Pattern := if r.outer.isEmpty then some r.choice else none

end Reader

/-- Punctuation stands for itself after a backslash. -/
def isEscapable (c : Char) : Bool :=
  c.toNat < 128 && !Text.isAsciiLetter c && !Text.isAsciiDigit c && c != '<' && c != '>'

def escapedChar (c : Char) : Option Char :=
  match c with
  | 'n' => some '\n'
  | 'r' => some '\r'
  | 't' => some '\t'
  | 'a' => some '\x07'
  | 'f' => some '\x0c'
  | 'v' => some '\x0b'
  | c => if isEscapable c then some c else none

/-- The character set written by a backslash and `c`. -/
def escapedSet (c : Char) : Option CharSet :=
  match c with
  | 'd' => some .digits
  | 'D' => some CharSet.digits.complement
  | 'w' => some .wordChars
  | 'W' => some CharSet.wordChars.complement
  | 's' => some .spaces
  | 'S' => some CharSet.spaces.complement
  | _ => none

def escapedCheck (c : Char) : Option Assertion :=
  match c with
  | 'b' => some .wordEdge
  | 'B' => some .noWordEdge
  | 'A' => some .textStart
  | 'z' => some .textEnd
  | '<' => some .wordStart
  | '>' => some .wordEnd
  | _ => none

inductive ClassMember where
  | char (c : Char)
  | set (k : CharSet)

def ClassMember.toSet : ClassMember → CharSet
  | char c => .single c
  | set k => k

def readMember : List Char → Option (ClassMember × List Char)
  | '\\' :: c :: cs =>
    match escapedSet c with
    | some k => some (.set k, cs)
    | none => (escapedChar c).map fun c => (.char c, cs)
  | ['\\'] => none
  | c :: cs => some (.char c, cs)
  | [] => none

/-- A member of a class, or a range of characters in ascending order. -/
def readItem (cs : List Char) : Option (CharSet × List Char) := do
  let (first, rest) ← readMember cs
  match rest with
  | '-' :: ']' :: _ | '-' :: '-' :: _ => some (first.toSet, rest)
  | '-' :: rest =>
    let (last, rest) ← readMember rest
    match first, last with
    | .char lo, .char hi => if lo ≤ hi then some (.range lo hi, rest) else none
    | _, _ => none
  | _ => some (first.toSet, rest)

/-- Whether a sign stands that would nest or combine classes, where an item should begin. -/
def combinesClasses : List Char → Bool
  | '[' :: _ | '&' :: '&' :: _ | '~' :: '~' :: _ | '-' :: '-' :: _ => true
  | _ => false

/-- The items of a class up to its closing bracket; the fuel bounds their number. -/
def readItems : Nat → List Char → Option (List CharSet × List Char)
  | 0, _ => none
  | _ + 1, ']' :: cs => some ([], cs)
  | n + 1, cs => do
    if combinesClasses cs then none
    let (i, rest) ← readItem cs
    let (is, rest) ← readItems n rest
    some (i :: is, rest)

/-- Hyphens at the start of a class stand for themselves, and so does a bracket in first place. -/
def readLeading : List Char → List CharSet × List Char
  | '-' :: cs =>
    let (is, rest) := readHyphens cs
    (.single '-' :: is, rest)
  | ']' :: cs => ([.single ']'], cs)
  | cs => ([], cs)
where
  readHyphens : List Char → List CharSet × List Char
    | '-' :: cs =>
      let (is, rest) := readHyphens cs
      (.single '-' :: is, rest)
    | cs => ([], cs)

def readClass (cs : List Char) (ignoreCase : Bool) : Option (CharSet × List Char) := do
  let (negated, cs) := match cs with
    | '^' :: cs => (true, cs)
    | cs => (false, cs)
  let (leading, cs) := readLeading cs
  let (items, rest) ← readItems (cs.length + 1) cs
  let k := CharSet.unions (leading ++ items)
  let k := if ignoreCase then k.foldCase else k
  some (if negated then k.complement else k, rest)

/-- The flags of a group: what they add, whether they open a group of their own, and what follows.
No flag is written twice. -/
def readFlags (seen : List Char) (flags : Flags) :
    List Char → Option (Flags × Bool × List Char)
  | ')' :: cs => if seen.isEmpty then none else some (flags, false, cs)
  | ':' :: cs => some (flags, true, cs)
  | c :: cs =>
    if seen.contains c then none
    else match c with
      | 'i' => readFlags (c :: seen) { flags with ignoreCase := true } cs
      | 'm' => readFlags (c :: seen) { flags with multiLine := true } cs
      | 's' => readFlags (c :: seen) { flags with dotAll := true } cs
      | _ => none
  | [] => none

/-- A decimal number of at most 32 bits with blanks around it. -/
def readNumber (cs : List Char) : Option (Nat × List Char) :=
  let cs := cs.dropWhile Text.isWhiteSpace
  let digits := cs.takeWhile Text.isAsciiDigit
  let n := digits.foldl (fun n c => n * 10 + (c.toNat - 48)) 0
  if digits.isEmpty || n > 0xffffffff then none
  else some (n, (cs.dropWhile Text.isAsciiDigit).dropWhile Text.isWhiteSpace)

/-- The bounds of a counted repetition, after its opening brace. -/
def readBounds (cs : List Char) : Option (Nat × Option Nat × List Char) := do
  let (min, rest) ← readNumber cs
  match rest with
  | '\x7d' :: rest => some (min, some min, rest)
  | ',' :: '\x7d' :: rest => some (min, none, rest)
  | ',' :: rest =>
    let (max, rest) ← readNumber rest
    match rest with
    | '\x7d' :: rest => if min ≤ max then some (min, some max, rest) else none
    | _ => none
  | _ => none

/-- A question mark after a repetition sign makes it lazy. -/
def readGreed : List Char → Bool × List Char
  | '?' :: cs => (false, cs)
  | cs => (true, cs)

/-- Reads a pattern to its end; the fuel bounds the number of signs. -/
def readAll : Nat → List Char → Reader → Option Reader
  | _, [], r => some r
  | 0, _, _ => none
  | n + 1, c :: cs, r =>
    let quantify (min : Nat) (max : Option Nat) (cs : List Char) : Option Reader := do
      let (greedy, cs) := readGreed cs
      readAll n cs (← r.quantify min max greedy)
    match c with
    | '(' =>
      match cs with
      | '?' :: cs => do
        let (flags, opens, cs) ← readFlags [] r.flags cs
        readAll n cs (if opens then r.openGroup false flags else r.setFlags flags)
      | cs => readAll n cs (r.openGroup true r.flags)
    | ')' => do readAll n cs (← r.closeGroup)
    | '|' => readAll n cs r.nextBranch
    | '*' => quantify 0 none cs
    | '+' => quantify 1 none cs
    | '?' => quantify 0 (some 1) cs
    | '\x7b' => do
      let (min, max, cs) ← readBounds cs
      quantify min max cs
    | '[' => do
      let (k, cs) ← readClass cs r.flags.ignoreCase
      readAll n cs (r.push (ofSet k))
    | '.' => readAll n cs (r.push (.one (.dot r.flags.dotAll)))
    | '^' => readAll n cs (r.push (.check (if r.flags.multiLine then .lineStart else .textStart)))
    | '$' => readAll n cs (r.push (.check (if r.flags.multiLine then .lineEnd else .textEnd)))
    | '\\' => do
      let (c, cs) ← cs.head?.map (·, cs.tail)
      match escapedSet c, escapedCheck c, escapedChar c with
      | some k, _, _ => readAll n cs (r.push (.one k))
      | _, some a, _ => readAll n cs (r.push (.check a))
      | _, _, some c => readAll n cs (r.char c)
      | _, _, _ => none
    | c => readAll n cs (r.char c)

def parse? (source : String) : Option Pattern := do
  let cs := source.toList
  (← readAll cs.length cs {}).finish

end JayFrontEnd.Pattern
