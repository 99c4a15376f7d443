import BoxScript.Command.Options
import BoxScript.Command.Run
import BoxScript.Console
import BoxScript.Diagnostic
import BoxScript.Eval.Access
import BoxScript.Eval.Basic
import BoxScript.Eval.Call
import BoxScript.Eval.Flow
import BoxScript.Eval.Run
import BoxScript.Eval.Step
import BoxScript.EvalError
import BoxScript.File.Path
import BoxScript.File.Tree
import BoxScript.Library.Directive
import BoxScript.Library.File
import BoxScript.Library.Loader
import BoxScript.Main
import BoxScript.Node.Basic
import BoxScript.Node.Draft
import BoxScript.Node.Outline
import BoxScript.Node.Source
import BoxScript.Number.Binary
import BoxScript.Number.Shortest
import BoxScript.Number.Text
import BoxScript.Operator
import BoxScript.ParseError
import BoxScript.Parser.Basic
import BoxScript.Parser.Expression
import BoxScript.Parser.Form
import BoxScript.Parser.Program
import BoxScript.Parser.Statement
import BoxScript.Parser.Target
import BoxScript.Position
import BoxScript.Proofs.Command.Hosted
import BoxScript.Proofs.Eval.Access
import BoxScript.Proofs.Eval.Asking
import BoxScript.Proofs.Eval.Call
import BoxScript.Proofs.Eval.Containment
import BoxScript.Proofs.Eval.Correspondence
import BoxScript.Proofs.Eval.Countdown
import BoxScript.Proofs.Eval.Counters
import BoxScript.Proofs.Eval.Course
import BoxScript.Proofs.Eval.Declarations
import BoxScript.Proofs.Eval.Depth
import BoxScript.Proofs.Eval.Dialogue
import BoxScript.Proofs.Eval.Flow
import BoxScript.Proofs.Eval.Guarded
import BoxScript.Proofs.Eval.Innermost
import BoxScript.Proofs.Eval.Lasting
import BoxScript.Proofs.Eval.Likeness
import BoxScript.Proofs.Eval.Lockstep
import BoxScript.Proofs.Eval.Operands
import BoxScript.Proofs.Eval.Orderly
import BoxScript.Proofs.Eval.Overwriting
import BoxScript.Proofs.Eval.Ownership
import BoxScript.Proofs.Eval.Paired
import BoxScript.Proofs.Eval.PlainLoops
import BoxScript.Proofs.Eval.Private
import BoxScript.Proofs.Eval.Receiver
import BoxScript.Proofs.Eval.Returning
import BoxScript.Proofs.Eval.Rooted
import BoxScript.Proofs.Eval.Rounds
import BoxScript.Proofs.Eval.Runs
import BoxScript.Proofs.Eval.Scoping
import BoxScript.Proofs.Eval.Siblings
import BoxScript.Proofs.Eval.Signals
import BoxScript.Proofs.Eval.Trace
import BoxScript.Proofs.Eval.Trees
import BoxScript.Proofs.Eval.Typing
import BoxScript.Proofs.Eval.Unfiled
import BoxScript.Proofs.Eval.Written
import BoxScript.Proofs.File.Path
import BoxScript.Proofs.File.Tree
import BoxScript.Proofs.Library.Dense
import BoxScript.Proofs.Library.Directive
import BoxScript.Proofs.Library.Locating
import BoxScript.Proofs.Node.Ambiguous
import BoxScript.Proofs.Node.Expanded
import BoxScript.Proofs.Node.Legible
import BoxScript.Proofs.Node.Lexed
import BoxScript.Proofs.Node.Literal
import BoxScript.Proofs.Node.Paths
import BoxScript.Proofs.Node.Printable
import BoxScript.Proofs.Node.Shape
import BoxScript.Proofs.Node.Statements
import BoxScript.Proofs.Node.Term
import BoxScript.Proofs.Node.Tidy
import BoxScript.Proofs.Node.WellFormed
import BoxScript.Proofs.Number.Whole
import BoxScript.Proofs.Parser.Checked
import BoxScript.Proofs.Parser.Compound
import BoxScript.Proofs.Parser.Copies
import BoxScript.Proofs.Parser.Expression
import BoxScript.Proofs.Parser.Faithful
import BoxScript.Proofs.Parser.Form
import BoxScript.Proofs.Parser.Imports
import BoxScript.Proofs.Parser.Nesting
import BoxScript.Proofs.Parser.Numbering
import BoxScript.Proofs.Parser.Pointing
import BoxScript.Proofs.Parser.Precedence
import BoxScript.Proofs.Parser.Program
import BoxScript.Proofs.Parser.Reading
import BoxScript.Proofs.Parser.Refusal
import BoxScript.Proofs.Parser.RoundTrip
import BoxScript.Proofs.Parser.Unfailing
import BoxScript.Proofs.Parser.Unplaced
import BoxScript.Proofs.Session
import BoxScript.Proofs.Store.Behind
import BoxScript.Proofs.Store.Keeps
import BoxScript.Proofs.Store.Lookup
import BoxScript.Proofs.Store.Pairing
import BoxScript.Proofs.Store.Rendering
import BoxScript.Proofs.Store.Sound
import BoxScript.Proofs.Token.Balanced
import BoxScript.Proofs.Token.Joining
import BoxScript.Proofs.Token.Layout
import BoxScript.Proofs.Token.Lexeme
import BoxScript.Proofs.Token.Matching
import BoxScript.Proofs.Token.Nesting
import BoxScript.Proofs.Token.Parts
import BoxScript.Proofs.Token.Quoting
import BoxScript.Proofs.Token.Spacing
import BoxScript.Proofs.Token.Splitting
import BoxScript.Proofs.Token.Statement
import BoxScript.Proofs.Token.Terminal
import BoxScript.Proofs.Token.Unplaced
import BoxScript.Session
import BoxScript.Store.Basic
import BoxScript.Store.Datum
import BoxScript.Store.Text
import BoxScript.Table
import BoxScript.Text.Numeral
import BoxScript.Text.Printable
import BoxScript.Text.Quoted
import BoxScript.Text.Split
import BoxScript.Token.Basic
import BoxScript.Token.Bracket
import BoxScript.Token.Lexer
import BoxScript.Token.Statement
import BoxScript.Value.Operation
