import JayFrontEnd.Token
import JayFrontEnd.Text.Utf8
import JayFrontEnd.TokenRule

/-!
# Lexing

A text is cut into chunks, each taken by the first rule that takes any of it. The tokens are the
chunks of rules that are not omitted; a line break that follows another is dropped. At the end come
a line break, unless there are no tokens or the last one is a line break, and the end of the tokens.
-/

namespace JayFrontEnd

/-- A piece of text that a rule took, and where it starts. -/
structure Chunk where
  position : Nat
  rule : TokenRule
  size : Nat
  text : Option String

/-- Whether the chunks reach the end of the text, or the offset where no rule takes any. -/
inductive Coverage where
  | complete
  | stuckAt (offset : Nat)
  deriving DecidableEq, Repr

def firstTaking? (rules : List TokenRule) (text : List Char) : Option (TokenRule × Lexeme) :=
  rules.findSome? fun r => (r.take? text).map (r, ·)

/-- Cuts the text at byte `position`, of which at most `fuel` characters are left. -/
def chunksFrom (rules : List TokenRule) : Nat → Nat → List Char → List Chunk × Coverage
  | _, _, [] => ([], .complete)
  | 0, position, _ => ([], .stuckAt position)
  | fuel + 1, position, text =>
    match firstTaking? rules text with
    | none => ([], .stuckAt position)
    | some (rule, l) =>
      let (chunks, coverage) := chunksFrom rules fuel (position + l.size) l.rest
      (⟨position, rule, l.size, l.text⟩ :: chunks, coverage)

def chunks (rules : List TokenRule) (text : List Char) : List Chunk × Coverage :=
  chunksFrom rules text.length 0 text

/-- The token of a chunk, unless its rule is omitted. -/
def Chunk.token? (c : Chunk) : Option Token :=
  if c.rule.omitted then none else some ⟨c.position, c.rule.name, c.text⟩

/-- Drops each line break that follows another; the flag says whether one came before. -/
def mergeBreaks (afterBreak : Bool) : List Token → List Token
  | [] => []
  | t :: ts =>
    let isBreak := t.kind == Token.newline
    if afterBreak && isBreak then mergeBreaks true ts else t :: mergeBreaks isBreak ts

/-- Ends a run of tokens at the end of a text of length `stop`. -/
def closeTokens (stop : Nat) (ts : List Token) : List Token :=
  let lineEnd := match ts.getLast? with
    | some t => if t.kind == Token.newline then [] else [⟨stop, Token.newline, none⟩]
    | none => []
  ts ++ lineEnd ++ [⟨stop, Token.eos, none⟩]

/-- The tokens of a text, unless some of it is taken by no rule. -/
def lex (rules : List TokenRule) (text : List Char) : Except Fault (List Token) :=
  match chunks rules text with
  | (chunks, .complete) =>
    .ok (closeTokens (Text.byteLength text) (mergeBreaks false (chunks.filterMap (·.token?))))
  | (_, .stuckAt offset) => .error (.unexpectedInput offset)

end JayFrontEnd
