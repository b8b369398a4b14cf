import Gloss.Command.Basic
import Gloss.Command.Check
import Gloss.Command.Extract
import Gloss.Command.Json
import Gloss.Command.Spans
import Gloss.Command.Strip
import Gloss.CommandLine.Help
import Gloss.CommandLine.Invocation
import Gloss.CommandLine.Option
import Gloss.CommandLine.Program
import Gloss.CommandLine.Reading
import Gloss.Comment
import Gloss.Cursor
import Gloss.Diagnostic.Basic
import Gloss.Diagnostic.Code
import Gloss.Diagnostic.Level
import Gloss.Diagnostic.Snippet
import Gloss.Disk.Access
import Gloss.Disk.Basic
import Gloss.Inputs
import Gloss.Kind
import Gloss.Language
import Gloss.Lexeme
import Gloss.Main
import Gloss.Path
import Gloss.Problem
import Gloss.Proofs.Acceptance
import Gloss.Proofs.Access
import Gloss.Proofs.Alignment
import Gloss.Proofs.Append
import Gloss.Proofs.Below
import Gloss.Proofs.Buffer
import Gloss.Proofs.Collapse
import Gloss.Proofs.Collected
import Gloss.Proofs.CommentText
import Gloss.Proofs.Comments
import Gloss.Proofs.Construct
import Gloss.Proofs.Cursor
import Gloss.Proofs.Descent
import Gloss.Proofs.Destination
import Gloss.Proofs.Directory
import Gloss.Proofs.Driving
import Gloss.Proofs.Ending
import Gloss.Proofs.Escape
import Gloss.Proofs.Fragment
import Gloss.Proofs.Giving
import Gloss.Proofs.Glyph
import Gloss.Proofs.InPlace
import Gloss.Proofs.Iteration
import Gloss.Proofs.Joined
import Gloss.Proofs.Lexeme
import Gloss.Proofs.LineComments
import Gloss.Proofs.LineStructure
import Gloss.Proofs.Lines
import Gloss.Proofs.LogicalRows
import Gloss.Proofs.Overwrite
import Gloss.Proofs.Path
import Gloss.Proofs.Piece
import Gloss.Proofs.Plan
import Gloss.Proofs.Position
import Gloss.Proofs.Registry
import Gloss.Proofs.Report
import Gloss.Proofs.Rescan
import Gloss.Proofs.Resolution
import Gloss.Proofs.Restart
import Gloss.Proofs.Rows
import Gloss.Proofs.Rules
import Gloss.Proofs.Scanner
import Gloss.Proofs.Schedule
import Gloss.Proofs.Shape
import Gloss.Proofs.Skeleton
import Gloss.Proofs.Snippet
import Gloss.Proofs.Strip
import Gloss.Proofs.Tiling
import Gloss.Proofs.Tree
import Gloss.Proofs.Turn
import Gloss.Proofs.Unclosed
import Gloss.Proofs.Unforced
import Gloss.Proofs.Walk
import Gloss.Proofs.Width
import Gloss.Proofs.Writing
import Gloss.Proofs.Written
import Gloss.Registry
import Gloss.Rules.Basic
import Gloss.Scan
import Gloss.Scanner
import Gloss.Settings.Basic
import Gloss.Settings.Decode
import Gloss.Settings.Search
import Gloss.SourceFile
import Gloss.Span
import Gloss.Strip
import Gloss.Strip.Buffer
import Gloss.Strip.Line
import Gloss.Strip.Policy
import Gloss.Text.Basic
import Gloss.Text.Hidden
import Gloss.Text.Lines
import Gloss.Text.Quoted
import Gloss.Toml.Document
import Gloss.Toml.Lexical
import Gloss.Toml.Number
import Gloss.Toml.Reader
import Gloss.Toml.Value
import Gloss.Unclosed
