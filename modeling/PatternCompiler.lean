import PatternCompiler.Anchor
import PatternCompiler.Builder
import PatternCompiler.CharClass.Basic
import PatternCompiler.CharClass.Level
import PatternCompiler.Culture
import PatternCompiler.Options
import PatternCompiler.Pattern.Backslash
import PatternCompiler.Pattern.Bracket
import PatternCompiler.Pattern.Cursor
import PatternCompiler.Pattern.Edge
import PatternCompiler.Pattern.Escape
import PatternCompiler.Pattern.FirstChars
import PatternCompiler.Pattern.GroupTable
import PatternCompiler.Pattern.Lead
import PatternCompiler.Pattern.Node
import PatternCompiler.Pattern.Opening
import PatternCompiler.Pattern.Parse
import PatternCompiler.Pattern.Reduce
import PatternCompiler.Pattern.Survey
import PatternCompiler.Pattern.SyntaxError
import PatternCompiler.Program.Code
import PatternCompiler.Program.Lower
import PatternCompiler.Program.Opcode
import PatternCompiler.Program.Operation
import PatternCompiler.Program.Resumption
import PatternCompiler.Program.Start
import PatternCompiler.Scalar
import PatternCompiler.Search.Captures
import PatternCompiler.Search.Fault
import PatternCompiler.Search.Machine
import PatternCompiler.Search.Matcher
import PatternCompiler.Search.Runner
import PatternCompiler.Search.Script
import PatternCompiler.Search.Skip
import PatternCompiler.Search.Start
import PatternCompiler.Search.Word
import PatternCompiler.Source.Buffer
import PatternCompiler.Source.Compile
import PatternCompiler.Source.Forward
import PatternCompiler.Source.Start
import PatternCompiler.Source.States
import PatternCompiler.Source.Stmt
import PatternCompiler.Text.Quoted
import PatternCompiler.Unicode.CaseTable
import PatternCompiler.Unicode.Category
import PatternCompiler.Unicode.CategoryTable
import PatternCompiler.Unicode.Property
import PatternCompiler.Unicode.Table
import PatternCompiler.Proofs.Tree
import PatternCompiler.Proofs.Translation
import PatternCompiler.Proofs.Lowering
import PatternCompiler.Proofs.Decoding
import PatternCompiler.Proofs.Groups
import PatternCompiler.Proofs.Reading
import PatternCompiler.Proofs.Brackets
import PatternCompiler.Proofs.Lockstep
import PatternCompiler.Proofs.Acceptance
import PatternCompiler.Proofs.Histories
import PatternCompiler.Proofs.Stepping
import PatternCompiler.Proofs.Generation
import PatternCompiler.Proofs.Leaves
import PatternCompiler.Proofs.Matching
import PatternCompiler.Proofs.Discipline
import PatternCompiler.Proofs.RegularRuns
import PatternCompiler.Proofs.Encoding
import PatternCompiler.Proofs.Balancing
import PatternCompiler.Proofs.FirstCharacters
import PatternCompiler.Proofs.Rendering
import PatternCompiler.Proofs.Tokens
import PatternCompiler.Proofs.Numbering
import PatternCompiler.Proofs.Rereading
import PatternCompiler.Proofs.Ways
import PatternCompiler.Proofs.ClassRanges
import PatternCompiler.Proofs.Reduction
import PatternCompiler.Proofs.Patching
import PatternCompiler.Proofs.NormalForm
import PatternCompiler.Proofs.TidyReading
import PatternCompiler.Proofs.InBounds
import PatternCompiler.Proofs.Progress
import PatternCompiler.Proofs.Scoping
import PatternCompiler.Proofs.Orientation
import PatternCompiler.Proofs.Mirror
import PatternCompiler.Proofs.Mirroring
import PatternCompiler.Proofs.Spacing
import PatternCompiler.Proofs.Outline
import PatternCompiler.Proofs.Taking
import PatternCompiler.Proofs.Blanks
import PatternCompiler.Proofs.Statements
import PatternCompiler.Proofs.Templates
import PatternCompiler.Proofs.Accepted
import PatternCompiler.Proofs.States
import PatternCompiler.Proofs.Tags
import PatternCompiler.Proofs.Scanning
import PatternCompiler.Proofs.Iterating
import PatternCompiler.Proofs.Skipping
import PatternCompiler.Proofs.Leads
import PatternCompiler.Proofs.Edges
import PatternCompiler.Proofs.Rollback
import PatternCompiler.Proofs.Recording
import PatternCompiler.Proofs.Assigning
import PatternCompiler.Proofs.ClassOperations
import PatternCompiler.Proofs.WrittenClasses
import PatternCompiler.Proofs.Referencing
import PatternCompiler.Proofs.PastLast
import PatternCompiler.Proofs.Layout
import PatternCompiler.Proofs.Assembly
import PatternCompiler.Proofs.Words
import PatternCompiler.Proofs.Marks
import PatternCompiler.Proofs.MarkedCode
import PatternCompiler.Proofs.Mentions
import PatternCompiler.Proofs.Declarations
import PatternCompiler.Proofs.Vocabulary
import PatternCompiler.Proofs.CanonicalClasses
import PatternCompiler.Proofs.ClassAlgebra
import PatternCompiler.Proofs.Categories
import PatternCompiler.Proofs.Literals
import PatternCompiler.Proofs.Nesting
import PatternCompiler.Proofs.Counts
