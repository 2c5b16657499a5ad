import JayFrontEnd.Parsing.Choice

/-!
# Parsing by a grammar

`Script.run` does what a script says, given how to apply the rules it names. `Grammar.apply` applies
a rule that way; its fuel bounds how deep rules may nest. Each rule is entered once at most per
cursor before input is used, so `Grammar.depth` is all the fuel that a parse can need.
`Grammar.parse` starts from the root and wants the whole input.
-/

namespace JayFrontEnd

mutual

def Atom.attempt (apply : String → Parser Node) : Atom → Parser Node
  | .token kind => Parser.token kind
  | .literal text => Parser.literal text
  | .pattern regex => Parser.pattern regex
  | .rule name => apply name
  | .inline kind script => Parser.wrapped kind (script.run apply)
  | .named label atom => Parser.labelled label (atom.attempt apply)

def Atom.attempts (apply : String → Parser Node) : List Atom → List (Parser Node)
  | [] => []
  | a :: as => a.attempt apply :: Atom.attempts apply as

def Script.run (apply : String → Parser Node) : Script → Parser Parsed
  | .done result => pure result
  | .one atoms next => do (next (← Parser.firstOf (Atom.attempts apply atoms))).run apply
  | .opt atoms next => do
    (next (← Parser.optional (Parser.firstOf (Atom.attempts apply atoms)))).run apply
  | .any atoms next => do
    (next (← Parser.any (Parser.firstOf (Atom.attempts apply atoms)))).run apply
  | .many atoms next => do
    (next (← Parser.many (Parser.firstOf (Atom.attempts apply atoms)))).run apply
  | .importModule module position next => do
    Parser.importModule module position
    next.run apply
  | .fail problem => Parser.fail problem
  | .failAt problem offset => Parser.failAt problem offset
  | .abort fault => Parser.abort fault
  | .offset next => do (next (← Parser.offset)).run apply
  | .peek next => do (next (← Parser.peek)).run apply

end

/-- A tree, and the modules its import directives ask for. -/
structure ParseOutput where
  tree : Node
  imports : List Import
  deriving Repr

namespace Grammar

/-- Applies a rule, with at most `fuel` rules nested. -/
def applyWithin (g : Grammar) : Nat → String → Parser Node
  | fuel, name =>
    match g.rule? name with
    | none => Parser.abort (.grammar (.unknownRule name))
    | some script =>
      match fuel with
      | 0 => Parser.abort (.grammar (.endlessRule name))
      | fuel + 1 => Parser.wrapped name (script.run (g.applyWithin fuel))

/-- How deep rules can nest: one application for each rule and cursor. -/
def depth (g : Grammar) (input : Input) : Nat := g.rules.length * (input.length + 1)

def apply (g : Grammar) (name : String) : Parser Node := fun c =>
  g.applyWithin (g.depth c.input) name c

def one (g : Grammar) (atoms : List Atom) : Parser Node :=
  Parser.firstOf (Atom.attempts g.apply atoms)

def opt (g : Grammar) (atoms : List Atom) : Parser (Option Node) := Parser.optional (g.one atoms)

def any (g : Grammar) (atoms : List Atom) : Parser (List Node) := Parser.any (g.one atoms)

def many (g : Grammar) (atoms : List Atom) : Parser (List Node) := Parser.many (g.one atoms)

def token (g : Grammar) (kind : String) : Parser Node := g.one [.token kind]

def rule (g : Grammar) (name : String) : Parser Node := g.one [.rule name]

/-- Applies the root rule to the whole input. What fails is put down to the furthest error. -/
def parse (g : Grammar) (setting : Setting) : Except Fault ParseOutput := do
  g.validate
  match g.rule g.root setting {} with
  | (.ok tree, s) =>
    if setting.input.isEnd s.cursor then .ok ⟨tree, s.imports⟩
    else
      let rest := ⟨.unparsedRest, setting.input.offset s.cursor⟩
      .error (s.furthest.getD rest).fault
  | (.error (.backtrack e), s) => .error (s.furthest.getD e).fault
  | (.error (.fatal f), _) => .error f

end Grammar

end JayFrontEnd
