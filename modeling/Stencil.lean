import Stencil.Delimiters
import Stencil.Diagnostic.Basic
import Stencil.Diagnostic.Catalogue
import Stencil.Diagnostic.Explanation
import Stencil.Diagnostic.Message
import Stencil.Diagnostic.Snippet
import Stencil.Environment.Basic
import Stencil.Environment.Config
import Stencil.Environment.Read
import Stencil.Grammar.Builtin
import Stencil.Grammar.Expression
import Stencil.Grammar.Rule
import Stencil.Grammar.Run
import Stencil.Grammar.Statement
import Stencil.Grammar.Stream
import Stencil.Grammar.Suffix
import Stencil.Json.Reader
import Stencil.Json.Value
import Stencil.Json.Writer
import Stencil.Location
import Stencil.Main
import Stencil.Number.Double
import Stencil.Number.Layout
import Stencil.Number.Literal
import Stencil.Number.Shortest
import Stencil.Proofs.Alone.Agreement
import Stencil.Proofs.Alone.Expression
import Stencil.Proofs.Alone.Suffix
import Stencil.Proofs.Alone.Twin
import Stencil.Proofs.Blocks.Composition
import Stencil.Proofs.Blocks.Extension
import Stencil.Proofs.Blocks.Heads
import Stencil.Proofs.Blocks.Nesting
import Stencil.Proofs.Brackets.Awaited
import Stencil.Proofs.Brackets.Enclosure
import Stencil.Proofs.Brackets.Expression
import Stencil.Proofs.Brackets.Hint
import Stencil.Proofs.Brackets.Reading
import Stencil.Proofs.Brackets.Run
import Stencil.Proofs.Brackets.Statement
import Stencil.Proofs.Brackets.Suffix
import Stencil.Proofs.Context.Body
import Stencil.Proofs.Context.Chain
import Stencil.Proofs.Context.Depth
import Stencil.Proofs.Context.Edge
import Stencil.Proofs.Context.Elsewhere
import Stencil.Proofs.Context.Guard
import Stencil.Proofs.Context.Loop
import Stencil.Proofs.Derivation.Advance
import Stencil.Proofs.Derivation.Basic
import Stencil.Proofs.Derivation.Composition
import Stencil.Proofs.Derivation.Expression
import Stencil.Proofs.Derivation.Outcome
import Stencil.Proofs.Derivation.Places
import Stencil.Proofs.Derivation.Scanned
import Stencil.Proofs.Derivation.Statement
import Stencil.Proofs.Derivation.Suffix
import Stencil.Proofs.Diagnostic.Caret
import Stencil.Proofs.Diagnostic.Ending
import Stencil.Proofs.Diagnostic.Lines
import Stencil.Proofs.Diagnostic.Rendering
import Stencil.Proofs.Document.Decoding
import Stencil.Proofs.Document.Faithful
import Stencil.Proofs.Document.Kept
import Stencil.Proofs.Document.Literal
import Stencil.Proofs.Document.Record
import Stencil.Proofs.Json.Quoted
import Stencil.Proofs.Json.Value
import Stencil.Proofs.Layout.Basic
import Stencil.Proofs.Layout.Closing
import Stencil.Proofs.Layout.Cover
import Stencil.Proofs.Layout.Opener
import Stencil.Proofs.Layout.Place
import Stencil.Proofs.Layout.Raw
import Stencil.Proofs.Layout.Written
import Stencil.Proofs.Leaves.Basic
import Stencil.Proofs.Leaves.Inside
import Stencil.Proofs.Leaves.Operands
import Stencil.Proofs.Leaves.Reading
import Stencil.Proofs.Lists.Arguments
import Stencil.Proofs.Lists.Basic
import Stencil.Proofs.Lists.Imports
import Stencil.Proofs.Lists.Signature
import Stencil.Proofs.Lists.Subscripts
import Stencil.Proofs.Moved.Basic
import Stencil.Proofs.Moved.Comment
import Stencil.Proofs.Moved.Scan
import Stencil.Proofs.Moved.Tree
import Stencil.Proofs.Number.Integer
import Stencil.Proofs.Number.Numeral
import Stencil.Proofs.Number.Rounding
import Stencil.Proofs.Number.Shortest
import Stencil.Proofs.Order.Basic
import Stencil.Proofs.Order.Expression
import Stencil.Proofs.Order.Statement
import Stencil.Proofs.Outputs.Basic
import Stencil.Proofs.Outputs.Data
import Stencil.Proofs.Outputs.Gathering
import Stencil.Proofs.Outputs.Place
import Stencil.Proofs.Parallel.Basic
import Stencil.Proofs.Parallel.Conservative
import Stencil.Proofs.Parallel.Expression
import Stencil.Proofs.Parallel.Lookahead
import Stencil.Proofs.Parallel.Placeless
import Stencil.Proofs.Parallel.Run
import Stencil.Proofs.Parallel.Statement
import Stencil.Proofs.Parallel.Suffix
import Stencil.Proofs.Progress.Expression
import Stencil.Proofs.Progress.Frame
import Stencil.Proofs.Progress.Reached
import Stencil.Proofs.Progress.Run
import Stencil.Proofs.Progress.Scan
import Stencil.Proofs.Progress.Session
import Stencil.Proofs.Progress.Statement
import Stencil.Proofs.Progress.Suffix
import Stencil.Proofs.Progress.Termination
import Stencil.Proofs.Roles.Basic
import Stencil.Proofs.Roles.Form
import Stencil.Proofs.Roles.Shape
import Stencil.Proofs.Roles.Usage
import Stencil.Proofs.Safety.Examine
import Stencil.Proofs.Safety.Pieces
import Stencil.Proofs.Span.Edge
import Stencil.Proofs.Span.Expression
import Stencil.Proofs.Span.Extent
import Stencil.Proofs.Span.Group
import Stencil.Proofs.Span.Location
import Stencil.Proofs.Span.Nesting
import Stencil.Proofs.Span.Reader
import Stencil.Proofs.Span.Reading
import Stencil.Proofs.Span.Run
import Stencil.Proofs.Span.Statement
import Stencil.Proofs.Span.Suffix
import Stencil.Proofs.Text.Digit
import Stencil.Proofs.Tool.Arguments
import Stencil.Proofs.Tool.Configuration
import Stencil.Proofs.Tool.Runs
import Stencil.Proofs.Tree.Bare
import Stencil.Proofs.Tree.Below
import Stencil.Proofs.Tree.Fields
import Stencil.Proofs.Tree.Target
import Stencil.Proofs.Tree.Traversal
import Stencil.Proofs.Words.Behind
import Stencil.Proofs.Words.Brackets
import Stencil.Proofs.Words.Draft
import Stencil.Proofs.Words.Followed
import Stencil.Proofs.Words.Segment
import Stencil.Proofs.Words.Spelling
import Stencil.Proofs.Words.Strings
import Stencil.Proofs.Words.Template
import Stencil.Proofs.Words.Within
import Stencil.Proofs.Writing.Block
import Stencil.Proofs.Writing.Body
import Stencil.Proofs.Writing.Expression
import Stencil.Proofs.Writing.Given
import Stencil.Proofs.Writing.Items
import Stencil.Proofs.Writing.Level
import Stencil.Proofs.Writing.Opening
import Stencil.Proofs.Writing.Parts
import Stencil.Proofs.Writing.Position
import Stencil.Proofs.Writing.Primary
import Stencil.Proofs.Writing.Reading
import Stencil.Proofs.Writing.Recovery
import Stencil.Proofs.Writing.Shape
import Stencil.Proofs.Writing.Statement
import Stencil.Proofs.Writing.Suffix
import Stencil.Proofs.Writing.Tag
import Stencil.Proofs.Writing.Template
import Stencil.Proofs.Writing.Whole
import Stencil.Text.Blank
import Stencil.Text.Class
import Stencil.Text.Numeral
import Stencil.Text.Pattern
import Stencil.Text.Search
import Stencil.Text.Unit
import Stencil.Text.Utf8
import Stencil.Token.Basic
import Stencil.Token.Cursor
import Stencil.Token.Keyword
import Stencil.Token.Lexeme
import Stencil.Token.Raw
import Stencil.Token.Scan
import Stencil.Token.Symbol
import Stencil.Tool.Arguments
import Stencil.Tool.Check
import Stencil.Tool.Outcome
import Stencil.Tool.Path
import Stencil.Tool.Tree
import Stencil.Tool.Workspace
import Stencil.Tree.Constant
import Stencil.Tree.Expr
import Stencil.Tree.Node
import Stencil.Tree.Record
import Stencil.Tree.Size
import Stencil.Tree.Stmt
import Stencil.Tree.Target
import Stencil.Tree.Walk
