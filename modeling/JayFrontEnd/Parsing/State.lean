import JayFrontEnd.Grammar.Basic
import JayFrontEnd.Text.Utf8

/-!
# Parsers

A parser walks over tokens or over a text with a cursor. It answers with a result or a failure, and
in both cases with the state it leaves: the cursor, the furthest error so far and the modules asked
for. A failure may be tried again elsewhere, unless it is fatal.
-/

namespace JayFrontEnd

inductive Input where
  | tokens (ts : List Token)
  | text (cs : List Char)
  deriving Repr

namespace Input

/-- The number of tokens, or of bytes. -/
def length : Input → Nat
  | tokens ts => ts.length
  | text cs => Text.byteLength cs

def token? : Input → Nat → Option Token
  | tokens ts, n => ts[n]?
  | text _, _ => none

/-- The offset of a cursor. Past the last token it is that of the last token. -/
def offset : Input → Nat → Nat
  | tokens ts, n => ((ts[n]? <|> ts.getLast?).map (·.position)).getD 0
  | text _, n => n

/-- The text from a cursor on, empty for tokens. -/
def textFrom : Input → Nat → List Char
  | tokens _, _ => []
  | text cs, n => (Text.dropBytes? n cs).getD []

/-- Whether only line breaks and the end of the tokens are left, or no text. -/
def isEnd : Input → Nat → Bool
  | tokens ts, n => (ts.drop n).all Token.isLayout
  | text cs, n => Text.byteLength cs ≤ n

end Input

/-- What was wrong, and where. -/
structure ParseError where
  problem : ParseProblem
  offset : Nat
  deriving DecidableEq, Repr

def ParseError.fault (e : ParseError) : Fault := .parse e.problem e.offset

/-- The error further on; of two at the same offset, the second. -/
def ParseError.max (e f : ParseError) : ParseError := if e.offset ≤ f.offset then f else e

inductive Failure where
  | backtrack (error : ParseError)
  | fatal (fault : Fault)
  deriving DecidableEq, Repr

/-- A module that an import directive asks for, and where its name stands. -/
structure Import where
  module : String
  position : Nat
  deriving DecidableEq, Repr

structure ParseState where
  cursor : Nat := 0
  furthest : Option ParseError := none
  imports : List Import := []
  deriving DecidableEq, Repr

namespace ParseState

def moveTo (s : ParseState) (cursor : Nat) : ParseState := { s with cursor }

/-- Keeps the error if it is the furthest so far. -/
def note (s : ParseState) (e : ParseError) : ParseState :=
  { s with furthest := some (match s.furthest with
    | some f => f.max e
    | none => e) }

/-- Asks for a module, once. -/
def require (s : ParseState) (i : Import) : ParseState :=
  if s.imports.any (·.module == i.module) then s else { s with imports := s.imports ++ [i] }

end ParseState

/-- What stays the same during a parse: the input, and which modules there are, if that is known. -/
structure Setting where
  input : Input
  hasModule? : Option (String → Bool) := none

def Parser (α : Type) : Type := Setting → ParseState → Except Failure α × ParseState

namespace Parser

instance : Monad Parser where
  pure a := fun _ s => (.ok a, s)
  bind p f := fun c s =>
    match p c s with
    | (.ok a, s) => f a c s
    | (.error e, s) => (.error e, s)

def offset : Parser Nat := fun c s => (.ok (c.input.offset s.cursor), s)

def peek : Parser (Option Token) := fun c s => (.ok (c.input.token? s.cursor), s)

def isAt (kind : String) : Parser Bool := fun c s =>
  (.ok ((c.input.token? s.cursor).any (·.kind == kind)), s)

def isAtEnd : Parser Bool := fun c s => (.ok (c.input.isEnd s.cursor), s)

def checkpoint : Parser Nat := fun _ s => (.ok s.cursor, s)

def restore (cursor : Nat) : Parser Unit := fun _ s => (.ok (), s.moveTo cursor)

def failAt {α : Type} (problem : ParseProblem) (offset : Nat) : Parser α := fun _ s =>
  (.error (.backtrack ⟨problem, offset⟩), s.note ⟨problem, offset⟩)

def fail {α : Type} (problem : ParseProblem) : Parser α := fun c s =>
  failAt problem (c.input.offset s.cursor) c s

def abort {α : Type} (fault : Fault) : Parser α := fun _ s => (.error (.fatal fault), s)

/-- Asks for a module. One that is known to be missing is an error. -/
def importModule (module : String) (position : Nat) : Parser Unit := fun c s =>
  if c.hasModule?.any (! · module) then failAt (.unlocatedModule module) position c s
  else (.ok (), s.require ⟨module, position⟩)

def token (kind : String) : Parser Node := fun c s =>
  match c.input with
  | .text _ => abort (.grammar (.tokenOnText kind)) c s
  | .tokens ts =>
    match ts[s.cursor]? with
    | none => fail (.expectedToken kind none) c s
    | some t =>
      if t.kind == kind then (.ok (.ofToken t), s.moveTo (s.cursor + 1))
      else failAt (.expectedToken kind (some t.kind)) t.position c s

def literalKind : String := "literal"

def patternKind : String := "pattern"

def literal (text : String) : Parser Node := fun c s =>
  match c.input with
  | .tokens _ => abort (.grammar (.literalOnTokens text)) c s
  | .text _ =>
    if text.toList.isPrefixOf (c.input.textFrom s.cursor) then
      (.ok (.mk s.cursor literalKind (.text text)),
        s.moveTo (s.cursor + Text.byteLength text.toList))
    else fail (.expectedLiteral text) c s

/-- The text at the cursor that the pattern matches. The node has the text of the first group, or
all of it if that took no part. -/
def pattern (regex : Regex) : Parser Node := fun c s =>
  match c.input with
  | .tokens _ => abort (.grammar (.patternOnTokens regex.source)) c s
  | .text _ =>
    match (regex.search? (c.input.textFrom s.cursor)).filter (·.start.offset = 0) with
    | none => fail (.expectedPattern regex.source) c s
    | some m =>
      (.ok (.mk s.cursor patternKind (.text ((m.group? 1).getD m.text))),
        s.moveTo (s.cursor + m.stop.offset))

end Parser

end JayFrontEnd
