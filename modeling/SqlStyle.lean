import SqlStyle.Clause.Cut
import SqlStyle.Clause.Parts
import SqlStyle.Clause.Rules
import SqlStyle.Clause.Shrink
import SqlStyle.Clause.Split
import SqlStyle.Command
import SqlStyle.Fault
import SqlStyle.Layout
import SqlStyle.Layout.Growth
import SqlStyle.Layout.Passes
import SqlStyle.Layout.Spaces
import SqlStyle.Line
import SqlStyle.Lint
import SqlStyle.Lint.BlankLines
import SqlStyle.Lint.Commas
import SqlStyle.Lint.Joins
import SqlStyle.Lint.Spacing
import SqlStyle.Lint.Violation
import SqlStyle.Lint.Window
import SqlStyle.Main
import SqlStyle.Proofs.Clause.Begin
import SqlStyle.Proofs.Clause.Below
import SqlStyle.Proofs.Clause.Connectives
import SqlStyle.Proofs.Clause.Faithful
import SqlStyle.Proofs.Clause.Items
import SqlStyle.Proofs.Clause.Nesting
import SqlStyle.Proofs.Clause.Partition
import SqlStyle.Proofs.Clause.Terms
import SqlStyle.Proofs.Layout.Calls
import SqlStyle.Proofs.Layout.Commas
import SqlStyle.Proofs.Layout.Comments
import SqlStyle.Proofs.Layout.FullJoins
import SqlStyle.Proofs.Layout.Idempotence
import SqlStyle.Proofs.Layout.JoinSplits
import SqlStyle.Proofs.Layout.Joins
import SqlStyle.Proofs.Layout.Lines
import SqlStyle.Proofs.Layout.Order
import SqlStyle.Proofs.Layout.Outcome
import SqlStyle.Proofs.Layout.Passes
import SqlStyle.Proofs.Layout.Preservation
import SqlStyle.Proofs.Layout.Spelling
import SqlStyle.Proofs.Layout.Tidy
import SqlStyle.Proofs.Layout.Width
import SqlStyle.Proofs.Lint.BlankRuns
import SqlStyle.Proofs.Lint.Commas
import SqlStyle.Proofs.Lint.Joins
import SqlStyle.Proofs.Lint.Layouts
import SqlStyle.Proofs.Lint.Lines
import SqlStyle.Proofs.Lint.Outcome
import SqlStyle.Proofs.Lint.Positions
import SqlStyle.Proofs.Lint.Rewording
import SqlStyle.Proofs.Lint.Scripts
import SqlStyle.Proofs.Lint.Spaces
import SqlStyle.Proofs.Lint.Spacing
import SqlStyle.Proofs.Session.Growth
import SqlStyle.Proofs.Token.Blanks
import SqlStyle.Proofs.Token.Comments
import SqlStyle.Proofs.Token.Legible
import SqlStyle.Proofs.Token.Lexical
import SqlStyle.Proofs.Token.Lookup
import SqlStyle.Proofs.Token.Lossless
import SqlStyle.Proofs.Token.Progress
import SqlStyle.Proofs.Token.Recase
import SqlStyle.Proofs.Token.Recognition
import SqlStyle.Proofs.Token.Reread
import SqlStyle.Proofs.Token.Restyle
import SqlStyle.Proofs.Tree.Gathering
import SqlStyle.Proofs.Tree.Indents
import SqlStyle.Proofs.Tree.Nearest
import SqlStyle.Proofs.Tree.ReadBack
import SqlStyle.Proofs.Tree.Shape
import SqlStyle.Proofs.Tree.Tokens
import SqlStyle.Session
import SqlStyle.Session.Growth
import SqlStyle.Session.Shared
import SqlStyle.Settings
import SqlStyle.Settings.File
import SqlStyle.Settings.Ini
import SqlStyle.Statement
import SqlStyle.Text.Binary64
import SqlStyle.Text.Blank
import SqlStyle.Text.Case
import SqlStyle.Text.CaseTable
import SqlStyle.Text.Digit
import SqlStyle.Text.Printable
import SqlStyle.Text.Quoted
import SqlStyle.Token
import SqlStyle.Token.Reserved
import SqlStyle.Token.Scan
import SqlStyle.Token.Style
import SqlStyle.Tree
import SqlStyle.Tree.Vertices
import SqlStyle.Tree.Walk
