import Promisify.Batch
import Promisify.CommandLine
import Promisify.Config
import Promisify.Dialect
import Promisify.Discovery
import Promisify.Edit
import Promisify.Event
import Promisify.FileTree
import Promisify.Import
import Promisify.ImportChange
import Promisify.Main
import Promisify.Migration
import Promisify.NameSet
import Promisify.Numeral
import Promisify.Path
import Promisify.Pipeline
import Promisify.Plan
import Promisify.Proofs.Arguments
import Promisify.Proofs.Calls
import Promisify.Proofs.Chain
import Promisify.Proofs.Comments
import Promisify.Proofs.Conversion
import Promisify.Proofs.Copies
import Promisify.Proofs.Discoveries
import Promisify.Proofs.Doubles
import Promisify.Proofs.EditSets
import Promisify.Proofs.Edits
import Promisify.Proofs.Elements
import Promisify.Proofs.Expressions
import Promisify.Proofs.FileTrees
import Promisify.Proofs.Fitting
import Promisify.Proofs.Handling
import Promisify.Proofs.HelperImports
import Promisify.Proofs.ImportEdits
import Promisify.Proofs.ImportFrames
import Promisify.Proofs.ImportPhrases
import Promisify.Proofs.ImportReading
import Promisify.Proofs.ImportStatements
import Promisify.Proofs.ImportTrees
import Promisify.Proofs.ImportViews
import Promisify.Proofs.Layout
import Promisify.Proofs.Leads
import Promisify.Proofs.Lexemes
import Promisify.Proofs.LineBreaks
import Promisify.Proofs.Lines
import Promisify.Proofs.Literals
import Promisify.Proofs.Mentions
import Promisify.Proofs.Migrations
import Promisify.Proofs.NameEdits
import Promisify.Proofs.Nesting
import Promisify.Proofs.Operators
import Promisify.Proofs.Overlaps
import Promisify.Proofs.Parsers
import Promisify.Proofs.Parsing
import Promisify.Proofs.Phrases
import Promisify.Proofs.Pieces
import Promisify.Proofs.Plans
import Promisify.Proofs.Prefaces
import Promisify.Proofs.Programs
import Promisify.Proofs.Pruning
import Promisify.Proofs.Rendering
import Promisify.Proofs.Reorderings
import Promisify.Proofs.Reruns
import Promisify.Proofs.Runs
import Promisify.Proofs.Scanning
import Promisify.Proofs.Schedules
import Promisify.Proofs.Shifting
import Promisify.Proofs.Slices
import Promisify.Proofs.Sorting
import Promisify.Proofs.Spacing
import Promisify.Proofs.StatementEdits
import Promisify.Proofs.Statements
import Promisify.Proofs.Steps
import Promisify.Proofs.Totality
import Promisify.Proofs.Tree
import Promisify.Proofs.Trimming
import Promisify.Render
import Promisify.Report
import Promisify.Settings
import Promisify.Site
import Promisify.Sorting
import Promisify.Syntax.Grammar.Basic
import Promisify.Syntax.Grammar.Elements
import Promisify.Syntax.Grammar.Expressions
import Promisify.Syntax.Grammar.Members
import Promisify.Syntax.Grammar.Statements
import Promisify.Syntax.Grammar.Types
import Promisify.Syntax.Lexer
import Promisify.Syntax.Node
import Promisify.Syntax.Parser
import Promisify.Syntax.Source
import Promisify.Syntax.Token
import Promisify.Text
import Promisify.Vocabulary
