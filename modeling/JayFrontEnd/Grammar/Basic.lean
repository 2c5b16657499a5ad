import JayFrontEnd.Fault
import JayFrontEnd.Node
import JayFrontEnd.Regex

/-!
# Grammars

A grammar is a list of named rules and the name of the one to start from. A rule is a script: it
asks for atoms of input, each request followed by what to do with the answer, and ends with a value
or a node. A value becomes a node of the rule's name; a node is passed on as it is.
-/

namespace JayFrontEnd

/-- What a rule ends with. -/
inductive Parsed where
  | value (v : Value)
  | node (n : Node)
  deriving Repr

mutual

/-- One alternative of a choice. -/
inductive Atom where
  | token (kind : String)
  | literal (text : String)
  | pattern (regex : Regex)
  | rule (name : String)
  /-- A rule without a name, whose values become nodes of the given kind. -/
  | inline (kind : String) (script : Script)
  /-- The atom; where it does not match, the label is what was expected. -/
  | named (label : String) (atom : Atom)

/-- What a rule does. -/
inductive Script where
  | done (result : Parsed)
  /-- The first of the atoms that matches. -/
  | one (atoms : List Atom) (next : Node → Script)
  /-- One of the atoms or nothing. -/
  | opt (atoms : List Atom) (next : Option Node → Script)
  /-- As many of the atoms as there are. -/
  | any (atoms : List Atom) (next : List Node → Script)
  /-- As many of the atoms as there are, but at least one. -/
  | many (atoms : List Atom) (next : List Node → Script)
  | importModule (module : String) (position : Nat) (next : Script)
  | fail (problem : ParseProblem)
  | failAt (problem : ParseProblem) (offset : Nat)
  /-- Ends the whole parse. -/
  | abort (fault : Fault)
  | offset (next : Nat → Script)
  | peek (next : Option Token → Script)

end

namespace Script

def value (v : Value) : Script := done (.value v)

def node (n : Node) : Script := done (.node n)

def token (kind : String) (next : Node → Script) : Script := one [.token kind] next

def rule (name : String) (next : Node → Script) : Script := one [.rule name] next

/-- The script, unless a token of the kind comes next. -/
def unlessAt (kind : String) (script next : Script) : Script :=
  peek fun t => if t.any (·.kind == kind) then next else script

/-- A loop over a local. A turn is told the local, and how to go on with another one; after so many
turns comes the last script. -/
def loop {σ : Type} (turn : σ → (σ → Script) → Script) (last : Script) : Nat → σ → Script
  | 0, _ => last
  | n + 1, x => turn x (loop turn last n)

end Script

def Atom.render : Atom → String
  | token kind => s!"Token({kind})"
  | literal text => "Literal(" ++ Text.quote text ++ ")"
  | pattern regex => s!"Pattern(/{regex.source}/)"
  | rule name => s!"Rule({name})"
  | inline _ _ => "Inline(..)"
  | named label atom => s!"Named({label}, " ++ atom.render ++ ")"

structure Grammar where
  root : String
  rules : List (String × Script) := []

namespace Grammar

def rule? (g : Grammar) (name : String) : Option Script := g.rules.lookup name

def contains (g : Grammar) (name : String) : Bool := (g.rule? name).isSome

def register (g : Grammar) (name : String) (script : Script) : Grammar :=
  if g.contains name then
    { g with rules := g.rules.map fun r => if r.1 == name then (name, script) else r }
  else { g with rules := g.rules ++ [(name, script)] }

/-- A grammar of the given rules, of which a later one replaces an earlier one of its name. -/
def ofRules (root : String) (rules : List (String × Script)) : Grammar :=
  rules.foldl (fun g r => g.register r.1 r.2) { root }

def validate (g : Grammar) : Except Fault Unit :=
  if g.contains g.root then .ok () else .error (.grammar (.missingRoot g.root))

def renderRule (name : String) : String := "Rule \x7b name: " ++ Text.quote name ++ ", .. \x7d"

end Grammar

end JayFrontEnd
