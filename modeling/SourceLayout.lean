import SourceLayout.Text.Blank
import SourceLayout.Text.Lines
import SourceLayout.Text.Word
import SourceLayout.Text.Upper
import SourceLayout.Text.Printable
import SourceLayout.Scan.Basic
import SourceLayout.Scan.Search
import SourceLayout.Number.Binary64
import SourceLayout.Settings.Value
import SourceLayout.Indent
import SourceLayout.Settings.Basic
import SourceLayout.Settings.Check
import SourceLayout.Import.Statement
import SourceLayout.Import.Header
import SourceLayout.Import.Reflow
import SourceLayout.Import.Grouping
import SourceLayout.Signature.Head
import SourceLayout.Signature.Expand
import SourceLayout.Member.Basic
import SourceLayout.Member.Split
import SourceLayout.Member.Block
import SourceLayout.Declaration.Union
import SourceLayout.Declaration.Basic
import SourceLayout.Log
import SourceLayout.Outline.Node
import SourceLayout.Outline.Literal
import SourceLayout.Outline.Find
import SourceLayout.Outline.Region
import SourceLayout.Document.Edit
import SourceLayout.Document.Rule
import SourceLayout.Document.Format
import SourceLayout.Files.Path
import SourceLayout.Files.SystemError
import SourceLayout.Files.Tree
import SourceLayout.Files.AtomicWrite
import SourceLayout.Files.Batch
import SourceLayout.Settings.Ini
import SourceLayout.Settings.Toml.Scalar
import SourceLayout.Settings.Toml.Document
import SourceLayout.Settings.Load
import SourceLayout.CommandLine
import SourceLayout.Proofs.Ink
import SourceLayout.Proofs.Marks
import SourceLayout.Proofs.Brackets
import SourceLayout.Proofs.Collapse
import SourceLayout.Proofs.Kept.Head
import SourceLayout.Proofs.Kept.Signature
import SourceLayout.Proofs.Kept.Member
import SourceLayout.Proofs.Kept.Declaration
import SourceLayout.Proofs.Lines
import SourceLayout.Proofs.Regions
import SourceLayout.Proofs.Splice
import SourceLayout.Proofs.Overlaps
import SourceLayout.Proofs.LastLine
import SourceLayout.Proofs.Accepted
import SourceLayout.Proofs.Frame
import SourceLayout.Proofs.ImportReadBack
import SourceLayout.Proofs.Imports.Partition
import SourceLayout.Proofs.Imports.Order
import SourceLayout.Proofs.Imports.Comments
import SourceLayout.Proofs.Stable.Scan
import SourceLayout.Proofs.Stable.Lines
import SourceLayout.Proofs.Stable.Pieces
import SourceLayout.Proofs.Stable.Field
import SourceLayout.Proofs.Stable.Separators
import SourceLayout.Proofs.Imports.OneLine
import SourceLayout.Proofs.Imports.Shape
import SourceLayout.Proofs.Imports.Reread
import SourceLayout.Proofs.Imports.Words
import SourceLayout.Proofs.Imports.Regroup
import SourceLayout.Proofs.Files.Tree
import SourceLayout.Proofs.Files.Write
import SourceLayout.Proofs.Files.Asked
import SourceLayout.Proofs.Files.Batch
import SourceLayout.Proofs.Files.Alone
import SourceLayout.Proofs.LineByLine
import SourceLayout.Proofs.Breaks
import SourceLayout.Proofs.Alphabet
import SourceLayout.Proofs.Loading
import SourceLayout.Proofs.Indentation.Leads
import SourceLayout.Proofs.Indentation.Declaration
import SourceLayout.Proofs.Indentation.Imports
import SourceLayout.Proofs.Indentation.Unit
import SourceLayout.Proofs.Sound
import SourceLayout.Proofs.CommandLine
import SourceLayout.Proofs.Spacing.Beads
import SourceLayout.Proofs.Spacing.Signature
import SourceLayout.Proofs.Spacing.Joined
import SourceLayout.Proofs.Strict.Basic
import SourceLayout.Proofs.Strict.Block
import SourceLayout.Proofs.Strict.Declaration
import SourceLayout.Proofs.Strict.Rule
import SourceLayout.Proofs.Lexing
import SourceLayout.Proofs.Lexemes
import SourceLayout.Proofs.ExactSplit
import SourceLayout.Proofs.Terminate
import SourceLayout.Proofs.OneLineBody
import SourceLayout.Proofs.Literals.Basic
import SourceLayout.Proofs.Literals.Split
import SourceLayout.Proofs.Literals.Clean
import SourceLayout.Proofs.Literals.Signature
import SourceLayout.Proofs.Literals.Field
import SourceLayout.Proofs.Literals.Member
import SourceLayout.Proofs.Literals.Declaration
import SourceLayout.Proofs.Imports.Entries
import SourceLayout.Proofs.Imports.Folding
import SourceLayout.Proofs.Imports.Unbroken
import SourceLayout.Proofs.Imports.Laid
import SourceLayout.Proofs.Imports.Imported
import SourceLayout.Proofs.Matching
import SourceLayout.Proofs.Members.Groups
import SourceLayout.Proofs.Members.Reread
import SourceLayout.Proofs.Members.Aligned
import SourceLayout.Proofs.Signatures.Words
import SourceLayout.Proofs.Signatures.Compact
import SourceLayout.Proofs.Spacing.Runs
import SourceLayout.Proofs.Signatures.Sealed
import SourceLayout.Proofs.Signatures.Flat
import SourceLayout.Proofs.Signatures.Essence
import SourceLayout.Proofs.Signatures.Inline
import SourceLayout.Proofs.Signatures.Unfold
import SourceLayout.Proofs.Members.EmptyLines
import SourceLayout.Proofs.Signatures.Heads
import SourceLayout.Proofs.Signatures.RoundTrip
