import JayFrontEnd.Parsing.Apply

/-!
# Operations on a parser

What a caller can ask of a parser of a grammar, one operation at a time: the choices and repetitions
that rules are made of, modules, errors of its own, and a look at the cursor, which it may put back
to where it has been.
-/

namespace JayFrontEnd

/-- An operation, by what it answers. -/
inductive Operation : Type → Type where
  | one (atoms : List Atom) : Operation Node
  | opt (atoms : List Atom) : Operation (Option Node)
  | any (atoms : List Atom) : Operation (List Node)
  | many (atoms : List Atom) : Operation (List Node)
  | token (kind : String) : Operation Node
  | rule (name : String) : Operation Node
  | importModule (module : String) (position : Nat) : Operation Unit
  | fail (problem : ParseProblem) : Operation Empty
  | failAt (problem : ParseProblem) (place : Nat) : Operation Empty
  | offset : Operation Nat
  | peek : Operation (Option Token)
  | isAt (kind : String) : Operation Bool
  | isAtEnd : Operation Bool
  | checkpoint : Operation Nat
  | restore (cursor : Nat) : Operation Unit

def Operation.run {α : Type} (g : Grammar) : Operation α → Parser α
  | one atoms => g.one atoms
  | opt atoms => g.opt atoms
  | any atoms => g.any atoms
  | many atoms => g.many atoms
  | token kind => g.token kind
  | rule name => g.rule name
  | importModule module position => Parser.importModule module position
  | fail problem => Parser.fail problem
  | failAt problem place => Parser.failAt problem place
  | offset => Parser.offset
  | peek => Parser.peek
  | isAt kind => Parser.isAt kind
  | isAtEnd => Parser.isAtEnd
  | checkpoint => Parser.checkpoint
  | restore cursor => Parser.restore cursor

end JayFrontEnd
