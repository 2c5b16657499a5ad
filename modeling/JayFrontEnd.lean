import JayFrontEnd.Analysis.Analyzer
import JayFrontEnd.Analysis.Program
import JayFrontEnd.Diagnostic
import JayFrontEnd.Fault
import JayFrontEnd.Grammar.Basic
import JayFrontEnd.Grammar.Jay
import JayFrontEnd.Grammar.Recipe
import JayFrontEnd.Lexing
import JayFrontEnd.Node
import JayFrontEnd.Parsing.Apply
import JayFrontEnd.Parsing.Choice
import JayFrontEnd.Parsing.State
import JayFrontEnd.Pattern.Basic
import JayFrontEnd.Pattern.CharSet
import JayFrontEnd.Pattern.Match
import JayFrontEnd.Pattern.Parser
import JayFrontEnd.Pattern.Search
import JayFrontEnd.Program.Compile
import JayFrontEnd.Program.Disk
import JayFrontEnd.Program.Locator
import JayFrontEnd.Program.ModuleTable
import JayFrontEnd.Program.RemoteLink
import JayFrontEnd.Proofs.Analysis.DeclarationOrder
import JayFrontEnd.Proofs.Analysis.DepthFirst
import JayFrontEnd.Proofs.Analysis.Erasure
import JayFrontEnd.Proofs.Analysis.Event
import JayFrontEnd.Proofs.Analysis.Faults
import JayFrontEnd.Proofs.Analysis.Follow
import JayFrontEnd.Proofs.Analysis.Inference
import JayFrontEnd.Proofs.Analysis.LexicalStructure
import JayFrontEnd.Proofs.Analysis.Outline
import JayFrontEnd.Proofs.Analysis.Plan
import JayFrontEnd.Proofs.Analysis.Program
import JayFrontEnd.Proofs.Analysis.Record
import JayFrontEnd.Proofs.Analysis.Reordering
import JayFrontEnd.Proofs.Analysis.Replay
import JayFrontEnd.Proofs.Analysis.SourceOrder
import JayFrontEnd.Proofs.Analysis.WriteOnce
import JayFrontEnd.Proofs.Anchoring
import JayFrontEnd.Proofs.Diagnostic
import JayFrontEnd.Proofs.Erasure
import JayFrontEnd.Proofs.Grammar.Discipline
import JayFrontEnd.Proofs.Grammar.Expressions
import JayFrontEnd.Proofs.Grammar.FirstError
import JayFrontEnd.Proofs.Grammar.Imports
import JayFrontEnd.Proofs.Grammar.Jay
import JayFrontEnd.Proofs.Grammar.Layout
import JayFrontEnd.Proofs.Grammar.Leaves
import JayFrontEnd.Proofs.Grammar.Locating
import JayFrontEnd.Proofs.Grammar.Opening
import JayFrontEnd.Proofs.Grammar.Phrase
import JayFrontEnd.Proofs.Grammar.Requests
import JayFrontEnd.Proofs.Grammar.Termination
import JayFrontEnd.Proofs.Grammar.Terms
import JayFrontEnd.Proofs.Grammar.Tree
import JayFrontEnd.Proofs.Lexing
import JayFrontEnd.Proofs.Outcome
import JayFrontEnd.Proofs.Parsing.Accumulators
import JayFrontEnd.Proofs.Parsing.Builds
import JayFrontEnd.Proofs.Parsing.Discipline
import JayFrontEnd.Proofs.Parsing.Forward
import JayFrontEnd.Proofs.Parsing.FurthestError
import JayFrontEnd.Proofs.Parsing.Imports
import JayFrontEnd.Proofs.Parsing.Lookahead
import JayFrontEnd.Proofs.Parsing.Loops
import JayFrontEnd.Proofs.Parsing.Mirroring
import JayFrontEnd.Proofs.Parsing.Nesting
import JayFrontEnd.Proofs.Parsing.Operation
import JayFrontEnd.Proofs.Parsing.OrderedChoice
import JayFrontEnd.Proofs.Parsing.Reads
import JayFrontEnd.Proofs.Parsing.RepetitionLaws
import JayFrontEnd.Proofs.Parsing.Report
import JayFrontEnd.Proofs.Parsing.Respects
import JayFrontEnd.Proofs.Parsing.Spans
import JayFrontEnd.Proofs.Pattern.Backtracking
import JayFrontEnd.Proofs.Pattern.Building
import JayFrontEnd.Proofs.Pattern.ChoiceTree
import JayFrontEnd.Proofs.Pattern.Front
import JayFrontEnd.Proofs.Pattern.Greedy
import JayFrontEnd.Proofs.Pattern.Library
import JayFrontEnd.Proofs.Pattern.Matches
import JayFrontEnd.Proofs.Pattern.Normal
import JayFrontEnd.Proofs.Pattern.Reaches
import JayFrontEnd.Proofs.Pattern.Reading
import JayFrontEnd.Proofs.Pattern.Span
import JayFrontEnd.Proofs.Pattern.Ways
import JayFrontEnd.Proofs.PatternAtoms
import JayFrontEnd.Proofs.Places
import JayFrontEnd.Proofs.Program.Binding
import JayFrontEnd.Proofs.Program.Compile
import JayFrontEnd.Proofs.Program.Discovery
import JayFrontEnd.Proofs.Program.EntryIndependence
import JayFrontEnd.Proofs.Program.ErrorPlaces
import JayFrontEnd.Proofs.Program.Failure
import JayFrontEnd.Proofs.Program.FirstFailure
import JayFrontEnd.Proofs.Program.FirstUses
import JayFrontEnd.Proofs.Program.Layout
import JayFrontEnd.Proofs.Program.LinkInTurn
import JayFrontEnd.Proofs.Program.ModuleTable
import JayFrontEnd.Proofs.Program.ParseAll
import JayFrontEnd.Proofs.Program.Phases
import JayFrontEnd.Proofs.Program.RemoteLink
import JayFrontEnd.Proofs.Repetition
import JayFrontEnd.Proofs.RoundTrip
import JayFrontEnd.Proofs.Scope.Chain
import JayFrontEnd.Proofs.Scope.Erasure
import JayFrontEnd.Proofs.Scope.Extension
import JayFrontEnd.Proofs.Scope.Growth
import JayFrontEnd.Proofs.Scope.LinkOutcome
import JayFrontEnd.Proofs.Scope.LocalLink
import JayFrontEnd.Proofs.Scope.Marking
import JayFrontEnd.Proofs.Scope.Operation
import JayFrontEnd.Proofs.Scope.Order
import JayFrontEnd.Proofs.Scope.Renumbering
import JayFrontEnd.Proofs.Scope.Traversal
import JayFrontEnd.Proofs.Scope.Views
import JayFrontEnd.Proofs.Scope.Walk
import JayFrontEnd.Proofs.Scope.WellFormed
import JayFrontEnd.Proofs.Spelling
import JayFrontEnd.Proofs.Text.Boundary
import JayFrontEnd.Proofs.Text.Position
import JayFrontEnd.Proofs.Tiling
import JayFrontEnd.Regex
import JayFrontEnd.Scope.LocalLink
import JayFrontEnd.Scope.Tree
import JayFrontEnd.Source
import JayFrontEnd.Text.CaseFolding
import JayFrontEnd.Text.CharProperty
import JayFrontEnd.Text.Glyph
import JayFrontEnd.Text.Quoted
import JayFrontEnd.Text.Utf8
import JayFrontEnd.Token
import JayFrontEnd.TokenRule
import JayFrontEnd.Vocabulary.NodeTag
import JayFrontEnd.Vocabulary.PrimitiveType
import JayFrontEnd.Vocabulary.TokenKind
