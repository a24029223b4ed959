import StyleRules.CodeUnit.Basic
import StyleRules.CodeUnit.Class
import StyleRules.CodeUnit.Folded
import StyleRules.Text.Utf16
import StyleRules.Span
import StyleRules.Token.Kind
import StyleRules.Token.Basic
import StyleRules.Cursor
import StyleRules.Token.Escape
import StyleRules.Token.Name
import StyleRules.Token.Number
import StyleRules.Token.Literal
import StyleRules.Token.Url
import StyleRules.Token.Read
import StyleRules.Token.Stream
import StyleRules.Table.Symbol
import StyleRules.Table.Word
import StyleRules.Table.Node
import StyleRules.Table.Trie
import StyleRules.Table.Pool
import StyleRules.Table.Asset
import StyleRules.Table.Build
import StyleRules.Table.Resolve
import StyleRules.Declaration.Nesting
import StyleRules.Declaration.Stretch
import StyleRules.Declaration.Value
import StyleRules.Declaration.Scan
import StyleRules.Declaration.Resolved
import StyleRules.Text.Unprintable
import StyleRules.Text.Quoted
import StyleRules.Text.Tsv
import StyleRules.Rules.Action
import StyleRules.Rules.Special
import StyleRules.Rules.Bundled
import StyleRules.Rules.RuleSet
import StyleRules.Expansion.Basic
import StyleRules.Expansion.Splice
import StyleRules.Expansion.Style
import StyleRules.Report.Format
import StyleRules.Report.Tokens
import StyleRules.Report.Declarations
import StyleRules.Host.Protocol
import StyleRules.Command.Options
import StyleRules.Command.Arguments
import StyleRules.Command.Error
import StyleRules.Command.Path
import StyleRules.Command.Files
import StyleRules.Command.Plan
import StyleRules.Command.Usage
import StyleRules.Command.Line
import StyleRules.Main
import StyleRules.Proofs.CodeUnit.Fold
import StyleRules.Proofs.CodeUnit.Case
import StyleRules.Proofs.Table.Encoding
import StyleRules.Proofs.Table.Slots
import StyleRules.Proofs.Table.Forest
import StyleRules.Proofs.Table.Growth
import StyleRules.Proofs.Table.Claim
import StyleRules.Proofs.Table.Insert
import StyleRules.Proofs.Table.Rename
import StyleRules.Proofs.Table.Replace
import StyleRules.Proofs.Token.Bounds
import StyleRules.Proofs.Token.Placement
import StyleRules.Proofs.Declaration.Order
import StyleRules.Proofs.Expansion.Joined
import StyleRules.Proofs.Expansion.Splice
import StyleRules.Proofs.Token.Separator
import StyleRules.Proofs.Token.Open
import StyleRules.Proofs.Token.Break
import StyleRules.Proofs.Token.Spelling
import StyleRules.Proofs.Token.Pieces
import StyleRules.Proofs.Token.Closed
import StyleRules.Proofs.Token.Tiling
import StyleRules.Proofs.Token.Case
import StyleRules.Proofs.Declaration.Parts
import StyleRules.Proofs.Declaration.Statement
import StyleRules.Proofs.Declaration.Enclosed
import StyleRules.Proofs.Declaration.Moved
import StyleRules.Proofs.Declaration.Reading
import StyleRules.Proofs.Declaration.Soundness
import StyleRules.Proofs.Declaration.Cut
import StyleRules.Proofs.Declaration.Layout
import StyleRules.Proofs.Declaration.Shape
import StyleRules.Proofs.Declaration.Heading
import StyleRules.Proofs.Declaration.BadUrl
import StyleRules.Proofs.Declaration.Written
import StyleRules.Proofs.Declaration.Case
import StyleRules.Proofs.Expansion.Words
import StyleRules.Proofs.Expansion.Emission
import StyleRules.Proofs.Expansion.Written
import StyleRules.Proofs.Text.Utf16
import StyleRules.Proofs.Text.WellFormed
import StyleRules.Proofs.Expansion.Trail
import StyleRules.Proofs.Expansion.Site
import StyleRules.Proofs.Expansion.Reach
import StyleRules.Proofs.Expansion.Between
import StyleRules.Proofs.Expansion.Shape
import StyleRules.Proofs.Expansion.Agreement
import StyleRules.Proofs.Expansion.Rescan
import StyleRules.Proofs.Table.Room
import StyleRules.Proofs.Rules.Numbering
import StyleRules.Proofs.Expansion.Weight
import StyleRules.Proofs.Expansion.Preservation
import StyleRules.Proofs.Expansion.Closure
import StyleRules.Proofs.Declaration.Pass
import StyleRules.Proofs.Host.Tables
import StyleRules.Proofs.Token.Boundary
import StyleRules.Proofs.Token.Longest
import StyleRules.Proofs.Token.Numeral
import StyleRules.Proofs.Token.Names
import StyleRules.Proofs.Token.Decoded
import StyleRules.Proofs.Token.Escaped
import StyleRules.Proofs.Token.Literal
import StyleRules.Proofs.Token.Url
import StyleRules.Proofs.Token.Flags
import StyleRules.Proofs.Expansion.Excerpt
import StyleRules.Proofs.Token.Whole
import StyleRules.Proofs.Report.Intact
import StyleRules.Proofs.Expansion.WellFormed
import StyleRules.Proofs.Table.Cells
import StyleRules.Proofs.Table.Traced
import StyleRules.Proofs.Table.Walk
import StyleRules.Proofs.Table.Need
import StyleRules.Proofs.Table.Census
import StyleRules.Proofs.Table.Count
import StyleRules.Proofs.Table.Enough
import StyleRules.Proofs.Table.Header
import StyleRules.Proofs.Table.Acceptance
import StyleRules.Proofs.Table.Isolation
import StyleRules.Proofs.Report.Rows
import StyleRules.Proofs.Command.Files
import StyleRules.Proofs.Command.Arguments
import StyleRules.Proofs.Checked.Range
