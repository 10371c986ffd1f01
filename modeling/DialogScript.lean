import DialogScript.CommandLine.Answer
import DialogScript.CommandLine.Arguments
import DialogScript.CommandLine.Command
import DialogScript.CommandLine.Conversation
import DialogScript.CommandLine.Path
import DialogScript.Cursor
import DialogScript.Diagnostic
import DialogScript.Dialog
import DialogScript.Environment
import DialogScript.Evaluation
import DialogScript.InputType
import DialogScript.Json
import DialogScript.Json.Reader
import DialogScript.Json.Shown
import DialogScript.Json.Writer
import DialogScript.Listing
import DialogScript.Main
import DialogScript.Number.Arithmetic
import DialogScript.Number.Bits
import DialogScript.Number.Decimal
import DialogScript.Number.Display
import DialogScript.Number.Floating
import DialogScript.Number.Layout
import DialogScript.Number.Numeral
import DialogScript.Play
import DialogScript.Program.Feed
import DialogScript.Program.Loader
import DialogScript.Program.Operator
import DialogScript.Program.Parser
import DialogScript.Program.Stored
import DialogScript.Program.Tree
import DialogScript.Proofs.Grammar
import DialogScript.Proofs.Lexing.Annotations
import DialogScript.Proofs.Lexing.BlockText
import DialogScript.Proofs.Lexing.Causes
import DialogScript.Proofs.Lexing.Checked
import DialogScript.Proofs.Lexing.Comments
import DialogScript.Proofs.Lexing.Continuation
import DialogScript.Proofs.Lexing.Indentation
import DialogScript.Proofs.Lexing.Layout
import DialogScript.Proofs.Lexing.Lexed
import DialogScript.Proofs.Lexing.LineOrder
import DialogScript.Proofs.Lexing.LineStarts
import DialogScript.Proofs.Lexing.Locations
import DialogScript.Proofs.Lexing.Lockstep
import DialogScript.Proofs.Lexing.Margins
import DialogScript.Proofs.Lexing.Neighbours
import DialogScript.Proofs.Lexing.Passage
import DialogScript.Proofs.Lexing.Places
import DialogScript.Proofs.Lexing.Positions
import DialogScript.Proofs.Lexing.Reindentation
import DialogScript.Proofs.Lexing.SideBySide
import DialogScript.Proofs.Lexing.Spans
import DialogScript.Proofs.Lexing.Steps
import DialogScript.Proofs.Lexing.Styles
import DialogScript.Proofs.Lexing.TextPlaces
import DialogScript.Proofs.Numbers.Decimals
import DialogScript.Proofs.Numbers.Display
import DialogScript.Proofs.Numbers.Grids
import DialogScript.Proofs.Numbers.Layouts
import DialogScript.Proofs.Numbers.Nearest
import DialogScript.Proofs.Numbers.RoundedOnce
import DialogScript.Proofs.Numbers.Rounding
import DialogScript.Proofs.Numbers.Shortest
import DialogScript.Proofs.Numbers.TwoRoundings
import DialogScript.Proofs.Numerals
import DialogScript.Proofs.Parsing.ErrorPlaces
import DialogScript.Proofs.Parsing.Errors
import DialogScript.Proofs.Parsing.Expressions
import DialogScript.Proofs.Parsing.Extents
import DialogScript.Proofs.Parsing.Failures
import DialogScript.Proofs.Parsing.Feed
import DialogScript.Proofs.Parsing.Headers
import DialogScript.Proofs.Parsing.MissingBodies
import DialogScript.Proofs.Parsing.Replacement
import DialogScript.Proofs.Parsing.Statements
import DialogScript.Proofs.Parsing.Streaming
import DialogScript.Proofs.Parsing.Trees
import DialogScript.Proofs.Printing.Lexemes
import DialogScript.Proofs.Printing.Lines
import DialogScript.Proofs.Printing.Programs
import DialogScript.Proofs.Printing.Syntax
import DialogScript.Proofs.Printing.Terms
import DialogScript.Proofs.Running.Answers
import DialogScript.Proofs.Running.Arithmetic
import DialogScript.Proofs.Running.BlockStrings
import DialogScript.Proofs.Running.Bounds
import DialogScript.Proofs.Running.Comparisons
import DialogScript.Proofs.Running.CutOffs
import DialogScript.Proofs.Running.Diagnostics
import DialogScript.Proofs.Running.Independence
import DialogScript.Proofs.Running.Interpolation
import DialogScript.Proofs.Running.Levels
import DialogScript.Proofs.Running.Meaning
import DialogScript.Proofs.Running.Programs
import DialogScript.Proofs.Running.Requests
import DialogScript.Proofs.Running.Safety
import DialogScript.Proofs.Running.Simulation
import DialogScript.Proofs.Running.SingleArithmetic
import DialogScript.Proofs.Running.Steps
import DialogScript.Proofs.Running.Tracing
import DialogScript.Proofs.Running.Wrapping
import DialogScript.Proofs.Storing.Command
import DialogScript.Proofs.Storing.Format
import DialogScript.Proofs.Storing.Loading
import DialogScript.Proofs.Storing.Reals
import DialogScript.Proofs.Storing.RoundTrip
import DialogScript.Proofs.TokenClasses
import DialogScript.Proofs.WellFormed
import DialogScript.Request
import DialogScript.Run
import DialogScript.RuntimeError
import DialogScript.Source
import DialogScript.Span
import DialogScript.SyntaxError
import DialogScript.Text.Blank
import DialogScript.Text.Digit
import DialogScript.Text.Hidden
import DialogScript.Text.Letter
import DialogScript.Text.Lines
import DialogScript.Text.Numeric
import DialogScript.Text.Quoted
import DialogScript.Text.Ranges
import DialogScript.Text.Visible
import DialogScript.Token
import DialogScript.Token.Lexer
import DialogScript.Trace
import DialogScript.Value
