import JayFrontEnd.Text.Quoted

/-!
# Faults

Why a text does not compile. A fault names its cause and, where there is one, the byte offset it
points at; `Fault.message` words it, `Fault.code` classifies it and `Fault.help?` gives advice.
-/

namespace JayFrontEnd

inductive ParseProblem where
  /-- A token of another kind, or the end of the tokens. -/
  | expectedToken (kind : String) (found : Option String)
  | expectedLiteral (text : String)
  | expectedPattern (source : String)
  | expected (label : String)
  | unlocatedModule (module : String)
  /-- The input goes on where the parse has ended. -/
  | unparsedRest
  | other (message : String)
  deriving DecidableEq, Repr

/-- What is wrong with a grammar or with a tree that is to be read by one. -/
inductive GrammarProblem where
  | tokenOnText (kind : String)
  | literalOnTokens (text : String)
  | patternOnTokens (source : String)
  | unknownRule (name : String)
  | noAlternatives
  | missingRoot (name : String)
  /-- The rule applies itself again before any input is used. -/
  | endlessRule (name : String)
  | invalidTokenRule (name : String)
  | missingField (kind field : String)
  | other (message : String)
  deriving DecidableEq, Repr

inductive ReadProblem where
  | noBuffer (path : String)
  | noSuchFile
  | isDirectory
  /-- Something on the way to the file is no directory. -/
  | notDirectory
  | invalidUtf8
  | other (message : String)
  deriving DecidableEq, Repr

inductive LoadProblem where
  | notLocated
  | unreadable (path : String) (problem : ReadProblem)
  | tooManyModules (limit : Nat)
  | other (message : String)
  deriving DecidableEq, Repr

inductive Fault where
  | unexpectedInput (offset : Nat)
  | parse (problem : ParseProblem) (offset : Nat)
  | duplicateSymbol (name : String) (offset firstOffset : Nat) (firstLink : String)
  | unresolvedSymbol (name : String) (offset : Nat)
  | unknownModule (module : String) (offset : Nat)
  | unresolvedRemoteSymbol (module name : String) (offset : Nat)
  | typeMismatch (expected found : String) (offset : Nat)
  | unknownType (name : String) (offset : Nat)
  | moduleLoad (module : String) (offset : Option Nat) (problem : LoadProblem)
  | grammar (problem : GrammarProblem)
  | positionOutOfRange (offset : Nat)
  deriving DecidableEq, Repr

def ParseProblem.message : ParseProblem → String
  | expectedToken kind found => s!"expected {kind}, but got " ++ found.getD "end of input"
  | expectedLiteral text => "expected " ++ Text.quote text
  | expectedPattern source => s!"expected /{source}/"
  | expected label => s!"expected {label}"
  | unlocatedModule module => s!"could not locate module '{module}'"
  | unparsedRest => "did not parse further"
  | other message => message

def GrammarProblem.message : GrammarProblem → String
  | tokenOnText kind => s!"token atom '{kind}' used on character input"
  | literalOnTokens text => "literal atom " ++ Text.quote text ++ " used on token input"
  | patternOnTokens source => s!"pattern atom /{source}/ used on token input"
  | unknownRule name => s!"unknown rule '{name}'"
  | noAlternatives => "combinator called without alternatives"
  | missingRoot name => s!"root rule '{name}' is not registered"
  | endlessRule name => s!"rule '{name}' applies itself without end"
  | invalidTokenRule name => s!"token rule '{name}': regex parse error:"
  | missingField kind field => s!"'{kind}' node has no '{field}'"
  | other message => message

def ReadProblem.message : ReadProblem → String
  | noBuffer path => s!"no buffer for {path}"
  | noSuchFile => "No such file or directory (os error 2)"
  | isDirectory => "Is a directory (os error 21)"
  | notDirectory => "Not a directory (os error 20)"
  | invalidUtf8 => "stream did not contain valid UTF-8"
  | other message => message

def LoadProblem.message : LoadProblem → String
  | notLocated => "could not locate module"
  | unreadable path problem => s!"{path}: " ++ problem.message
  | tooManyModules limit => s!"module limit of {limit} reached"
  | other message => message

namespace Fault

def message : Fault → String
  | unexpectedInput _ => "unexpected input"
  | parse problem _ => problem.message
  | duplicateSymbol name _ _ link => s!"symbol '{name}' already defined here: ({link})"
  | unresolvedSymbol name _ => s!"symbol '{name}' is not defined"
  | unknownModule module _ => s!"module '{module}' was never loaded"
  | unresolvedRemoteSymbol module name _ =>
    s!"symbol '{name}' is not defined in module '{module}'"
  | typeMismatch expected found _ => s!"type mismatch. Expected {expected} but got {found}"
  | unknownType name _ => s!"unknown type '{name}'"
  | moduleLoad module _ problem => s!"could not load module '{module}': " ++ problem.message
  | grammar problem => "invalid grammar: " ++ problem.message
  | positionOutOfRange offset => s!"position {offset} is outside the source"

def code : Fault → String
  | unexpectedInput _ => "jay::lex"
  | parse .. => "jay::parse"
  | duplicateSymbol .. => "jay::duplicate_symbol"
  | unresolvedSymbol .. => "jay::unresolved_symbol"
  | unknownModule .. => "jay::unknown_module"
  | unresolvedRemoteSymbol .. => "jay::unresolved_remote_symbol"
  | typeMismatch .. => "jay::type_mismatch"
  | unknownType .. => "jay::unknown_type"
  | moduleLoad .. => "jay::module_load"
  | grammar _ => "jay::grammar"
  | positionOutOfRange _ => "jay::position_out_of_range"

def help? : Fault → Option String
  | unresolvedSymbol .. => some "declare it in this scope or an enclosing one"
  | unknownModule .. => some "add an import directive for the module"
  | _ => none

def offset? : Fault → Option Nat
  | unexpectedInput offset | parse _ offset | duplicateSymbol _ offset _ _
  | unresolvedSymbol _ offset | unknownModule _ offset | unresolvedRemoteSymbol _ _ offset
  | typeMismatch _ _ offset | unknownType _ offset | positionOutOfRange offset => some offset
  | moduleLoad _ offset _ => offset
  | grammar _ => none

end Fault

end JayFrontEnd
