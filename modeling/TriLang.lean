import TriLang.Run
import TriLang.Tree.Literal
import TriLang.Proofs.Acceptance
import TriLang.Proofs.Barrier
import TriLang.Proofs.CleanRun
import TriLang.Proofs.Insertion
import TriLang.Proofs.Leaves
import TriLang.Proofs.LineTexts
import TriLang.Proofs.Lossless
import TriLang.Proofs.Naming
import TriLang.Proofs.Numbering
import TriLang.Proofs.Simulation
import TriLang.Proofs.Stages
import TriLang.Proofs.Writing
import TriLang.Proofs.Outcome
import TriLang.Proofs.Stopping
import TriLang.Proofs.Positions
import TriLang.Proofs.Slices
import TriLang.Proofs.SourceOrder
import TriLang.Proofs.Spacing
import TriLang.Proofs.LexicalClasses
import TriLang.Proofs.Operators
import TriLang.Proofs.Concatenation
import TriLang.Proofs.Colour
import TriLang.Proofs.Reports
import TriLang.Proofs.Marks
import TriLang.Proofs.Declarations
import TriLang.Proofs.Carets
import TriLang.Proofs.FreshIds
import TriLang.Proofs.Nesting
import TriLang.Proofs.KeptTokens
import TriLang.Proofs.Cascades
import TriLang.Proofs.Traversal
import TriLang.Proofs.ErrorNodes
import TriLang.Proofs.Reordering
import TriLang.Proofs.Renaming
import TriLang.Proofs.Histories
import TriLang.Proofs.Lets
import TriLang.Proofs.OutlineReading
import TriLang.Proofs.Offsets
import TriLang.Proofs.Snippets
import TriLang.Proofs.JsonReading
import TriLang.Proofs.OptionTexts
import TriLang.Proofs.LiteralValues
import TriLang.Proofs.OutlineLines
import TriLang.Proofs.SummaryLines
import TriLang.Proofs.Alignment
