import CallContract.Address
import CallContract.ArgPath
import CallContract.Arguments
import CallContract.Association
import CallContract.Coercion
import CallContract.Command.File
import CallContract.Command.Flags
import CallContract.Command.Run
import CallContract.Command.Usage
import CallContract.Doc
import CallContract.Doc.Tag
import CallContract.Doc.TypeExpr
import CallContract.Extraction
import CallContract.Json.Node
import CallContract.Json.Number
import CallContract.Json.Quoted
import CallContract.Json.Reader
import CallContract.Json.Value
import CallContract.Leaves
import CallContract.Main
import CallContract.Number.Binary64
import CallContract.Number.Numeral
import CallContract.Number.Shortest
import CallContract.OptionSchema
import CallContract.Parameter
import CallContract.Pattern
import CallContract.Reconciliation
import CallContract.Registry
import CallContract.Registry.Expansion
import CallContract.Registry.Range
import CallContract.Registry.Schema
import CallContract.Source.Checked.Access
import CallContract.Source.Checked.Lexer
import CallContract.Source.Checked.Module
import CallContract.Source.Error
import CallContract.Source.Escape
import CallContract.Source.Lexer
import CallContract.Source.Module
import CallContract.Source.NumberLiteral
import CallContract.Source.Parameters
import CallContract.Source.Statement
import CallContract.Source.Stretch
import CallContract.Source.Token
import CallContract.Stored.Contract
import CallContract.Stored.Doc
import CallContract.Stored.OptionSpec
import CallContract.Stored.Parameter
import CallContract.Stored.Record
import CallContract.Stored.TypeDef
import CallContract.Table
import CallContract.Text.Blank
import CallContract.Text.DecimalDigit
import CallContract.Text.Integer
import CallContract.Text.Split
import CallContract.Text.WordCharacter
import CallContract.TypeDef
import CallContract.Warning
import CallContract.Proofs.Arguments.Crossing
import CallContract.Proofs.Arguments.MappedAgain
import CallContract.Proofs.Arguments.Positions
import CallContract.Proofs.Arguments.ReadBack
import CallContract.Proofs.Arguments.Refusal
import CallContract.Proofs.Arguments.Reordering
import CallContract.Proofs.Arguments.Rest
import CallContract.Proofs.Association.Carried
import CallContract.Proofs.Association.Cursor
import CallContract.Proofs.Association.Documentation
import CallContract.Proofs.Association.Hoisting
import CallContract.Proofs.Association.Places
import CallContract.Proofs.Association.Repetition
import CallContract.Proofs.Command.Flags
import CallContract.Proofs.Command.ShortNames
import CallContract.Proofs.Defaults
import CallContract.Proofs.Doc.Balanced
import CallContract.Proofs.Doc.DefaultTag
import CallContract.Proofs.Doc.JsonDefault
import CallContract.Proofs.Doc.ParamPaths
import CallContract.Proofs.Doc.TagGroups
import CallContract.Proofs.Doc.TagText
import CallContract.Proofs.Doc.WrittenTag
import CallContract.Proofs.Json.Front
import CallContract.Proofs.Json.Pointer
import CallContract.Proofs.Json.RoundTrip
import CallContract.Proofs.Json.Spelling
import CallContract.Proofs.Number.Numeral
import CallContract.Proofs.Number.Rounding
import CallContract.Proofs.Number.Written
import CallContract.Proofs.Optional
import CallContract.Proofs.Path.Above
import CallContract.Proofs.Path.Bindings
import CallContract.Proofs.Path.Collapse
import CallContract.Proofs.Path.Fallbacks
import CallContract.Proofs.Path.Inheritance
import CallContract.Proofs.Path.Key
import CallContract.Proofs.Path.OtherName
import CallContract.Proofs.Path.Pieces
import CallContract.Proofs.Path.Segments
import CallContract.Proofs.Path.SharedPath
import CallContract.Proofs.Quoted
import CallContract.Proofs.Reconciliation.Account
import CallContract.Proofs.Reconciliation.Apart
import CallContract.Proofs.Reconciliation.BoundNames
import CallContract.Proofs.Reconciliation.Documented
import CallContract.Proofs.Reconciliation.Implied
import CallContract.Proofs.Reconciliation.PropertyByProperty
import CallContract.Proofs.Reconciliation.PropertyTags
import CallContract.Proofs.Reconciliation.SameText
import CallContract.Proofs.Reconciliation.TypedProperty
import CallContract.Proofs.Reconciliation.WrittenOut
import CallContract.Proofs.Registry.Circles
import CallContract.Proofs.Registry.Composite
import CallContract.Proofs.Registry.Composition
import CallContract.Proofs.Registry.Filling
import CallContract.Proofs.Registry.Merging
import CallContract.Proofs.Registry.Nesting
import CallContract.Proofs.Registry.Range
import CallContract.Proofs.Registry.Recording
import CallContract.Proofs.Registry.References
import CallContract.Proofs.Registry.Schema
import CallContract.Proofs.Registry.Union
import CallContract.Proofs.Source.Blanking
import CallContract.Proofs.Source.Brackets
import CallContract.Proofs.Source.Checked.Access
import CallContract.Proofs.Source.Checked.Literals
import CallContract.Proofs.Source.Checked.Module
import CallContract.Proofs.Source.Checked.Parameters
import CallContract.Proofs.Source.Checked.Runs
import CallContract.Proofs.Source.Checked.Tokens
import CallContract.Proofs.Source.Concatenation.Module
import CallContract.Proofs.Source.Concatenation.Parameters
import CallContract.Proofs.Source.Concatenation.Statements
import CallContract.Proofs.Source.Concatenation.Tokens
import CallContract.Proofs.Source.CutUp
import CallContract.Proofs.Source.DeclarationOrder
import CallContract.Proofs.Source.Literal.BigInteger
import CallContract.Proofs.Source.Literal.Escape
import CallContract.Proofs.Source.Literal.Json
import CallContract.Proofs.Source.Literal.Number
import CallContract.Proofs.Source.Literal.Template
import CallContract.Proofs.Source.Literal.Units
import CallContract.Proofs.Source.Lookahead
import CallContract.Proofs.Source.Pattern
import CallContract.Proofs.Source.Piece
import CallContract.Proofs.Source.Printing.Function
import CallContract.Proofs.Source.Recovery.Function
import CallContract.Proofs.Source.Recovery.Parameters
import CallContract.Proofs.Source.Reaching
import CallContract.Proofs.Source.Tiling
import CallContract.Proofs.Source.TopLevel
import CallContract.Proofs.Stored.Contract
import CallContract.Proofs.Stored.Extraction
import CallContract.Proofs.Stored.Record
import CallContract.Proofs.Variables
