import Stencil.Calendar
import Stencil.Context
import Stencil.DataSource
import Stencil.Dependencies
import Stencil.Diagnostic
import Stencil.Eval.Basic
import Stencil.Eval.Fault
import Stencil.Eval.Report
import Stencil.Expr.Analysis
import Stencil.Expr.Basic
import Stencil.Expr.Operator
import Stencil.Expr.Parser
import Stencil.Expr.Traversal
import Stencil.Limits
import Stencil.Log
import Stencil.Number.Basic
import Stencil.Number.Decimal
import Stencil.Number.Numeral
import Stencil.Proofs.Calendar
import Stencil.Proofs.Context
import Stencil.Proofs.DataSource
import Stencil.Proofs.Distinct
import Stencil.Proofs.Eval.Budget
import Stencil.Proofs.Eval.Cost
import Stencil.Proofs.Eval.Dependencies
import Stencil.Proofs.Eval.Move
import Stencil.Proofs.Eval.Notation
import Stencil.Proofs.Eval.Reference
import Stencil.Proofs.Eval.Relation
import Stencil.Proofs.Eval.Run
import Stencil.Proofs.Expr.Agreement
import Stencil.Proofs.Expr.Analysis
import Stencil.Proofs.Expr.Dependencies
import Stencil.Proofs.Expr.Nodes
import Stencil.Proofs.Expr.Traversal
import Stencil.Proofs.Grammar.Acceptance
import Stencil.Proofs.Grammar.Basic
import Stencil.Proofs.Grammar.Call
import Stencil.Proofs.Grammar.Completeness
import Stencil.Proofs.Grammar.Fault
import Stencil.Proofs.Grammar.Level
import Stencil.Proofs.Grammar.Limit
import Stencil.Proofs.Grammar.Lookahead
import Stencil.Proofs.Grammar.Move
import Stencil.Proofs.Grammar.Nest
import Stencil.Proofs.Grammar.Origin
import Stencil.Proofs.Grammar.Pending
import Stencil.Proofs.Grammar.Productions
import Stencil.Proofs.Grammar.Refusal
import Stencil.Proofs.Grammar.Soundness
import Stencil.Proofs.Grammar.Span
import Stencil.Proofs.Grammar.Viable
import Stencil.Proofs.Instant
import Stencil.Proofs.Number.Decimal
import Stencil.Proofs.Number.Digits
import Stencil.Proofs.Number.Literal
import Stencil.Proofs.Number.Numeral
import Stencil.Proofs.Number.Order
import Stencil.Proofs.Number.Pattern
import Stencil.Proofs.Number.Quantity
import Stencil.Proofs.Number.Rounding
import Stencil.Proofs.Number.Whole
import Stencil.Proofs.Print.Basic
import Stencil.Proofs.Print.Label
import Stencil.Proofs.Print.Parsed
import Stencil.Proofs.Print.RoundTrip
import Stencil.Proofs.Print.Spacing
import Stencil.Proofs.Print.Spelling
import Stencil.Proofs.Registry.Binding
import Stencil.Proofs.Registry.Built
import Stencil.Proofs.Registry.History
import Stencil.Proofs.Registry.Name
import Stencil.Proofs.Registry.Signature
import Stencil.Proofs.Source.Place
import Stencil.Proofs.Source.Snippet
import Stencil.Proofs.Summary
import Stencil.Proofs.Table
import Stencil.Proofs.Template.Append
import Stencil.Proofs.Template.Cut
import Stencil.Proofs.Template.Description
import Stencil.Proofs.Template.Elements
import Stencil.Proofs.Template.Fault
import Stencil.Proofs.Template.Limit
import Stencil.Proofs.Template.Literal
import Stencil.Proofs.Template.Missing
import Stencil.Proofs.Template.Normalize
import Stencil.Proofs.Template.Print
import Stencil.Proofs.Template.Segment
import Stencil.Proofs.Template.Span
import Stencil.Proofs.Text
import Stencil.Proofs.Text.Lines
import Stencil.Proofs.Text.Quoted
import Stencil.Proofs.Token.Fault
import Stencil.Proofs.Token.Layout
import Stencil.Proofs.Token.Number
import Stencil.Proofs.Token.Progress
import Stencil.Proofs.Token.Reading
import Stencil.Proofs.Token.Reference
import Stencil.Proofs.Token.Run
import Stencil.Proofs.Token.Shape
import Stencil.Proofs.Token.Unit
import Stencil.Proofs.Validation.Confinement
import Stencil.Proofs.Validation.Exactness
import Stencil.Proofs.Validation.FirstUse
import Stencil.Proofs.Validation.Issues
import Stencil.Proofs.Validation.Limit
import Stencil.Proofs.Validation.Order
import Stencil.Proofs.Validation.Prediction
import Stencil.Proofs.Value.Access
import Stencil.Proofs.Value.Equality
import Stencil.Proofs.Value.Graph
import Stencil.Proofs.Value.Host
import Stencil.Proofs.Value.Keys
import Stencil.Proofs.Value.Layout
import Stencil.Proofs.Value.Lines
import Stencil.Proofs.Value.Numeral
import Stencil.Proofs.Value.Plain
import Stencil.Quantity
import Stencil.Registry.Basic
import Stencil.Registry.Plugin
import Stencil.Registry.Signature
import Stencil.Source.Place
import Stencil.Source.Snippet
import Stencil.Summary
import Stencil.SyntaxFault
import Stencil.Table
import Stencil.Template.Basic
import Stencil.Template.Description
import Stencil.Template.Element
import Stencil.Text.Basic
import Stencil.Text.Blank
import Stencil.Text.Point
import Stencil.Text.Quoted
import Stencil.Token.Basic
import Stencil.Token.Cursor
import Stencil.Token.Reading
import Stencil.Validation.Basic
import Stencil.Validation.Issue
import Stencil.Value.Access
import Stencil.Value.Basic
import Stencil.Value.Coercion
import Stencil.Value.Display
import Stencil.Value.Equality
import Stencil.Value.Fault
import Stencil.Value.Host
import Stencil.Value.Layout
