import JayFrontEnd.Analysis.Program
import JayFrontEnd.Diagnostic
import JayFrontEnd.Grammar.Jay
import JayFrontEnd.Lexing
import JayFrontEnd.Program.Locator
import JayFrontEnd.Program.RemoteLink
import JayFrontEnd.Scope.LocalLink

/-!
# Compiling a program

A compilation starts from the entry module and follows import directives, breadth first, each
module once. When all modules are parsed, each is analysed and linked within itself, and at last the
uses of other modules' names are linked. The first fault of a phase ends the compilation; it is
attributed to the module whose text it points into. A compiler keeps the phase that it is in, and a
failure tells it.
-/

namespace JayFrontEnd

inductive Phase where
  | parse
  | analyze
  | linkLocal
  | linkRemote
  | done
  | failed
  deriving DecidableEq, Repr

def Phase.name : Phase → String
  | parse => "PARSE_ALL_MODULES"
  | analyze => "ANALYZE_LOCAL"
  | linkLocal => "LINK_LOCAL"
  | linkRemote => "LINK_REMOTE"
  | done => "DONE"
  | failed => "FAILED"

structure CompileConfig where
  entryModule : String := "main"
  /-- How many modules may be parsed. -/
  maxModules : Nat := 256
  deriving DecidableEq, Repr

structure CompileFailure where
  /-- The module the fault is attributed to. -/
  module : String
  phase : Phase
  fault : Fault
  /-- The source of the module, if it is known. -/
  source : Option Source
  deriving DecidableEq, Repr

namespace CompileFailure

def diagnostic? (f : CompileFailure) : Option Diagnostic := f.source.bind (Diagnostic.of? · f.fault)

def render (f : CompileFailure) : String :=
  match f.diagnostic? with
  | some d => d.render
  | none => s!"error: {f.fault.message} (module '{f.module}')"

/-- The fault marked in the source, if there is a source and an offset to mark. -/
def labelled? (f : CompileFailure) : Option LabelledFault :=
  match f.source, f.fault.offset? with
  | some source, some _ => some (.of source f.fault)
  | _, _ => none

end CompileFailure

structure ParsedModule where
  name : String
  source : Source
  tree : Node
  deriving Repr

/-- A module that is to be parsed, and the directive that first asked for it. -/
structure Pending where
  name : String
  /-- The importing module, and the offset of the name in its directive. -/
  importer : Option (String × Nat) := none
  deriving DecidableEq, Repr

namespace Pending

def offset? (p : Pending) : Option Nat := p.importer.map (·.2)

/-- The module that a fault in loading is attributed to, the one that imports it, and its source. -/
def blamed (p : Pending) (parsed : List ParsedModule) : String × Option Source :=
  match p.importer with
  | some (importer, _) => (importer, (parsed.find? (·.name == importer)).map (·.source))
  | none => (p.name, none)

end Pending

/-- The tree of a source, and the modules it imports. -/
def Locator.parse (l : Locator) (source : Source) : Except Fault ParseOutput := do
  let tokens ← lex TokenRule.jay source.chars
  Jay.parse (some fun module => (l.locate? module).isSome) tokens

/-- The imports of a module that have not been seen, and what has been seen with them. -/
def newImports (importer : String) : List Import → List String → List Pending × List String
  | [], seen => ([], seen)
  | i :: is, seen =>
    if seen.contains i.module then newImports importer is seen
    else
      let (ps, seen) := newImports importer is (i.module :: seen)
      (⟨i.module, some (importer, i.position)⟩ :: ps, seen)

/-! ## Work in phases -/

/-- What a compiler does: it is in a phase, may go on to another, and may fail. -/
abbrev Compiler (α : Type) := ExceptT CompileFailure (StateM Phase) α

/-- The phase a compiler is in before it has compiled anything. -/
def Phase.initial : Phase := .parse

namespace Compiler

variable {α : Type}

/-- The outcome, and the phase that the compiler is left in. -/
def runFrom (w : Compiler α) (phase : Phase) : Except CompileFailure α × Phase := w.run.run phase

def enter (next : Phase) : Compiler Unit := set next

def fail (module : String) (source : Option Source) (fault : Fault) : Compiler α := do
  let phase ← get
  enter .failed
  throw ⟨module, phase, fault, source⟩

def failAtImport (p : Pending) (parsed : List ParsedModule) (fault : Fault) : Compiler α :=
  fail (p.blamed parsed).1 (p.blamed parsed).2 fault

/-- Parses the modules in the queue and those they import; at most `budget` more. -/
def discover (l : Locator) (limit : Nat) : Nat → List Pending → List String → List ParsedModule →
    Compiler (List ParsedModule)
  | _, [], _, parsed => pure parsed
  | 0, p :: _, _, parsed =>
    failAtImport p parsed (.moduleLoad p.name p.offset? (.tooManyModules limit))
  | budget + 1, p :: queue, seen, parsed =>
    match l.load p.name p.offset? with
    | .error fault => failAtImport p parsed fault
    | .ok source =>
      match l.parse source with
      | .error fault => fail p.name (some source) fault
      | .ok output =>
        let (found, seen) := newImports p.name output.imports seen
        discover l limit budget (queue ++ found) seen (parsed ++ [⟨p.name, source, output.tree⟩])

/-- Parses the entry module and every module it leads to. -/
def parseAll (l : Locator) (config : CompileConfig) : Compiler (List ParsedModule) :=
  discover l config.maxModules config.maxModules [⟨config.entryModule, none⟩]
    [config.entryModule] []

def analyze (m : ParsedModule) : Compiler Module :=
  match (Analyzer.ofModule m.name m.source).run m.tree with
  | (.ok (), a) => pure ⟨m.name, m.source, m.tree, a.scopes⟩
  | (.error fault, _) => fail m.name (some m.source) fault

def linkLocal (m : Module) : Compiler Module :=
  match m.scopes.linkLocal with
  | (.ok (), scopes) => pure { m with scopes }
  | (.error fault, _) => fail m.name (some m.source) fault

def linkRemote (table : ModuleTable) (m : Module) : Compiler (String × List RemoteResolution) :=
  match m.scopes.linkRemote table with
  | .ok rs => pure (m.name, rs)
  | .error fault => fail m.name (some m.source) fault

def linkAll (table : ModuleTable) : Compiler ModuleTable := do
  let outcomes ← table.modules.mapM (linkRemote table)
  pure (outcomes.foldl (fun t (name, rs) => t.modifyScopes name (·.applyRemote rs)) table)

def compile (l : Locator) (config : CompileConfig) : Compiler ModuleTable := do
  enter .parse
  let parsed ← parseAll l config
  enter .analyze
  let analyzed ← parsed.mapM analyze
  enter .linkLocal
  let linked ← analyzed.mapM linkLocal
  enter .linkRemote
  let table ← linkAll (.ofList linked)
  enter .done
  pure table

end Compiler

/-! ## Outcomes -/

/-- The modules of a program, as the first phase finds them. -/
def parseAll (l : Locator) (config : CompileConfig) : Except CompileFailure (List ParsedModule) :=
  ((Compiler.parseAll l config).runFrom .parse).1

def ParsedModule.analyze (m : ParsedModule) : Except CompileFailure Module :=
  ((Compiler.analyze m).runFrom .analyze).1

def Module.linkLocal (m : Module) : Except CompileFailure Module :=
  ((Compiler.linkLocal m).runFrom .linkLocal).1

def Module.linkRemote (m : Module) (table : ModuleTable) :
    Except CompileFailure (String × List RemoteResolution) :=
  ((Compiler.linkRemote table m).runFrom .linkRemote).1

def ModuleTable.linkAll (t : ModuleTable) : Except CompileFailure ModuleTable :=
  ((Compiler.linkAll t).runFrom .linkRemote).1

def compile (l : Locator) (config : CompileConfig) : Except CompileFailure ModuleTable :=
  ((Compiler.compile l config).runFrom .initial).1

end JayFrontEnd
