import JayFrontEnd.Grammar.Basic

/-!
# Recipes

A recipe writes a script as data: a list of steps and a shape. The steps collect nodes, and the
shape says what is made of them: a list, the text of all of them, a composite of those with a name,
or the last of them as it is.
-/

namespace JayFrontEnd.Recipe

inductive Shape where
  | list
  | text
  | composite
  | node
  deriving DecidableEq, Repr

/-- How often the atoms of a step may match. -/
inductive Count where
  | one
  | opt
  | any
  | many
  deriving DecidableEq, Repr

inductive Step where
  /-- Matches atoms; a name makes the outcome a field. -/
  | take (count : Count) (atoms : List Atom) (name : Option String)
  /-- Asks for a module, at the cursor if no position is given. -/
  | importModule (module : String) (position : Option Nat)
  /-- Asks for the module that the last match of the latest step names. -/
  | importLast
  | fail (message : String)
  | failAt (message : String) (offset : Nat)
  | abort (message : String)
  /-- Steps that are left out where a token of the kind comes next. -/
  | unlessAt (kind : String) (steps : List Step)

/-- What the steps have collected. -/
structure Harvest where
  nodes : List Node := []
  fields : List (String × Option Node) := []
  last : Option Node := none

namespace Harvest

def add (h : Harvest) (name : Option String) (nodes : List Node) (field : Option Node) : Harvest :=
  { nodes := h.nodes ++ nodes
    fields := h.fields ++ (name.map (·, field)).toList
    last := nodes.getLast? }

def shaped (h : Harvest) : Shape → Script
  | .list => .value (.list h.nodes)
  | .text => .value (.text (String.join (h.nodes.map (·.textD))))
  | .composite => .value (.composite h.fields)
  | .node =>
    match h.nodes.getLast? with
    | some n => .node n
    | none => .fail (.other "no node")

end Harvest

/-- Matches atoms and goes on with what they add to the harvest. -/
def take (atoms : List Atom) (name : Option String) (h : Harvest) (next : Harvest → Script) :
    Count → Script
  | .one => .one atoms fun n => next (h.add name [n] (some n))
  | .opt => .opt atoms fun n => next (h.add name n.toList n)
  | .any =>
    .offset fun start =>
    .any atoms fun ns => next (h.add name ns (some (.mk start "list" (.list ns))))
  | .many =>
    .offset fun start =>
    .many atoms fun ns => next (h.add name ns (some (.mk start "list" (.list ns))))

mutual

def stepScript (h : Harvest) (next : Harvest → Script) : Step → Script
  | .take count atoms name => take atoms name h next count
  | .importModule module (some position) => .importModule module position (next h)
  | .importModule module none =>
    .offset fun position => .importModule module position (next h)
  | .importLast =>
    match h.last with
    | some n => .importModule n.textD n.position (next h)
    | none => next h
  | .fail message => .fail (.other message)
  | .failAt message offset => .failAt (.other message) offset
  | .abort message => .abort (.grammar (.other message))
  | .unlessAt kind steps => .unlessAt kind (stepsScript h next steps) (next h)

def stepsScript (h : Harvest) (next : Harvest → Script) : List Step → Script
  | [] => next h
  | s :: steps => stepScript h (fun h => stepsScript h next steps) s

end

def script (shape : Shape) (steps : List Step) : Script :=
  stepsScript {} (·.shaped shape) steps

end JayFrontEnd.Recipe
