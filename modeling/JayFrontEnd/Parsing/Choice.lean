import JayFrontEnd.Parsing.State

/-!
# Choice and repetition

Alternatives are tried in order from the same cursor, and the first that does not fail wins; a
failure that may be tried again goes back to the cursor it started from. `firstOf` asks for one of
them, `optional` for one or nothing, `any` and `many` for as many as there are.
-/

namespace JayFrontEnd.Parser

variable {α : Type}

/-- Goes back to the start on a failure that may be tried again. -/
def restoring (p : Parser α) : Parser α := fun c s =>
  match p c s with
  | (.error (.backtrack e), t) => (.error (.backtrack e), t.moveTo s.cursor)
  | r => r

/-- The first parser, or else the second from the same cursor; if both fail, the further error. -/
def orElse (p q : Parser α) : Parser α := fun c s =>
  match p c s with
  | (.error (.backtrack e), t) =>
    match q c (t.moveTo s.cursor) with
    | (.error (.backtrack f), u) => (.error (.backtrack (e.max f)), u)
    | r => r
  | r => r

/-- The first parser that does not fail. -/
def firstOf : List (Parser α) → Parser α
  | [] => abort (.grammar .noAlternatives)
  | [p] => restoring p
  | p :: ps => orElse p (firstOf ps)

/-- The parser's answer, or nothing if it fails. -/
def optional (p : Parser α) : Parser (Option α) := fun c s =>
  match p c s with
  | (.ok a, t) => (.ok (some a), t)
  | (.error (.backtrack _), t) => (.ok none, t.moveTo s.cursor)
  | (.error (.fatal f), t) => (.error (.fatal f), t)

/-- Up to `n` answers of the parser, and the error that put an end to them. An answer that uses no
input is the last. -/
def upTo (p : Parser α) : Nat → Parser (List α × Option ParseError)
  | 0 => pure ([], none)
  | n + 1 => fun c s =>
    match p c s with
    | (.ok a, t) =>
      if t.cursor = s.cursor then (.ok ([a], none), t)
      else match upTo p n c t with
        | (.ok (as, e), u) => (.ok (a :: as, e), u)
        | (.error e, u) => (.error e, u)
    | (.error (.backtrack e), t) => (.ok ([], some e), t.moveTo s.cursor)
    | (.error (.fatal f), t) => (.error (.fatal f), t)

/-- As many answers as there are: one at most for each piece of input left, and one without. -/
def repeated (p : Parser α) : Parser (List α × Option ParseError) := fun c s =>
  upTo p (c.input.length - s.cursor + 1) c s

def any (p : Parser α) : Parser (List α) := do pure (← repeated p).1

/-- At least one answer. -/
def many (p : Parser α) : Parser (List α) := fun c s =>
  match repeated p c s with
  | (.ok ([], some e), t) => (.error (.backtrack e), t)
  | (.ok (as, _), t) => (.ok as, t)
  | (.error e, t) => (.error e, t)

/-- A failure that may be tried again becomes the expectation of the label, where it started. -/
def labelled (label : String) (p : Parser α) : Parser α := fun c s =>
  match p c s with
  | (.error (.backtrack _), t) => failAt (.expected label) (c.input.offset s.cursor) c t
  | r => r

/-- A value becomes a node of the kind, where it started. -/
def wrapped (kind : String) (p : Parser Parsed) : Parser Node := fun c s =>
  match p c s with
  | (.ok (.value v), t) => (.ok (.mk (c.input.offset s.cursor) kind v), t)
  | (.ok (.node n), t) => (.ok n, t)
  | (.error e, t) => (.error e, t)

end JayFrontEnd.Parser
