import ApiAssembly.Text.Line
import ApiAssembly.Text.Numeric
import ApiAssembly.Decimal.Shortest
import ApiAssembly.Decimal.Literal
import ApiAssembly.Value.Merge
import ApiAssembly.Value.Reference
import ApiAssembly.Json.Reader
import ApiAssembly.Json.Writer
import ApiAssembly.TypeExpr.Parse
import ApiAssembly.Schema.OfTypeExpr
import ApiAssembly.Comment.Parse
import ApiAssembly.Typedef.OfComment
import ApiAssembly.Document.Assembly
import ApiAssembly.Yaml.Read
import ApiAssembly.Yaml.Write
import ApiAssembly.Project.Scan
import ApiAssembly.Project.Models
import ApiAssembly.Command.Run
import ApiAssembly.Main
import ApiAssembly.Proofs.Value.Reference
import ApiAssembly.Proofs.Document.Place
import ApiAssembly.Proofs.Document.SchemaMapping
import ApiAssembly.Proofs.Document.Handling
import ApiAssembly.Proofs.Document.MissingReference
import ApiAssembly.Proofs.Document.Worklist
import ApiAssembly.Proofs.Document.BreadthFirst
import ApiAssembly.Proofs.TypeExpr.Syntax
import ApiAssembly.Proofs.TypeExpr.Reading
import ApiAssembly.Proofs.TypeExpr.Derivation
import ApiAssembly.Proofs.TypeExpr.Unambiguous
import ApiAssembly.Proofs.TypeExpr.Character
import ApiAssembly.Proofs.TypeExpr.Run
import ApiAssembly.Proofs.TypeExpr.Spelling
import ApiAssembly.Proofs.TypeExpr.Lexing
import ApiAssembly.Proofs.TypeExpr.Spacing
import ApiAssembly.Proofs.TypeExpr.Canonical
import ApiAssembly.Proofs.TypeExpr.RoundTrip
import ApiAssembly.Proofs.Entries
import ApiAssembly.Proofs.Value.WellKeyed
import ApiAssembly.Proofs.Value.Merging
import ApiAssembly.Proofs.Yaml.WellKeyed
import ApiAssembly.Proofs.Value.Column
import ApiAssembly.Proofs.Value.Growth
import ApiAssembly.Proofs.Document.Sections
import ApiAssembly.Proofs.Document.Contributing
import ApiAssembly.Proofs.Document.Rebuilding
import ApiAssembly.Proofs.Typedef.Conversion
import ApiAssembly.Proofs.Typedef.Declaring
import ApiAssembly.Proofs.Typedef.Reading
import ApiAssembly.Proofs.Document.Effect
import ApiAssembly.Proofs.Document.Layout
import ApiAssembly.Proofs.Document.Source
import ApiAssembly.Proofs.Document.OpenReference
import ApiAssembly.Proofs.Value.Position
import ApiAssembly.Proofs.Text.Line
import ApiAssembly.Proofs.Text.Search
import ApiAssembly.Proofs.Comment.Extraction
import ApiAssembly.Proofs.Comment.Group
import ApiAssembly.Proofs.Comment.Writing
import ApiAssembly.Proofs.Comment.RoundTrip
import ApiAssembly.Proofs.Document.Exchange
import ApiAssembly.Proofs.Typedef.Consistency
import ApiAssembly.Proofs.Comment.TypeGroup
import ApiAssembly.Proofs.Decimal.Digits
import ApiAssembly.Proofs.Decimal.Rounding
import ApiAssembly.Proofs.Decimal.Shortest
import ApiAssembly.Proofs.Yaml.Cursor
import ApiAssembly.Proofs.Yaml.Gap
import ApiAssembly.Proofs.Yaml.Plain
import ApiAssembly.Proofs.Yaml.PlainText
import ApiAssembly.Proofs.Yaml.Enquoting
import ApiAssembly.Proofs.Yaml.Literal
import ApiAssembly.Proofs.Yaml.Scanning
import ApiAssembly.Proofs.Yaml.ScalarTokens
import ApiAssembly.Proofs.Yaml.TextStyle
import ApiAssembly.Proofs.Yaml.BlockTokens
import ApiAssembly.Proofs.Yaml.ValueTokens
import ApiAssembly.Proofs.Yaml.ValueTree
import ApiAssembly.Proofs.Value.Extent
import ApiAssembly.Proofs.Yaml.ValueNode
import ApiAssembly.Proofs.Decimal.Finite
import ApiAssembly.Proofs.Value.Fitting
import ApiAssembly.Proofs.Yaml.RoundTrip
import ApiAssembly.Proofs.Json.Reading
import ApiAssembly.Proofs.Yaml.Fitting
import ApiAssembly.Proofs.Typedef.Data
import ApiAssembly.Proofs.Typedef.Change
import ApiAssembly.Proofs.Typedef.Running
import ApiAssembly.Proofs.Typedef.Insertion
import ApiAssembly.Proofs.Typedef.Required
import ApiAssembly.Proofs.Typedef.Marking
import ApiAssembly.Proofs.Typedef.Target
import ApiAssembly.Proofs.Document.Data
import ApiAssembly.Proofs.Yaml.MergeLoss
import ApiAssembly.Proofs.Document.Rereading
import ApiAssembly.Proofs.Value.Associativity
import ApiAssembly.Proofs.Document.Normalizing
import ApiAssembly.Proofs.TypeExpr.Failing
import ApiAssembly.Proofs.TypeExpr.Lookahead
import ApiAssembly.Proofs.TypeExpr.Stuck
import ApiAssembly.Proofs.TypeExpr.ErrorOffset
import ApiAssembly.Proofs.Decimal.Rational
import ApiAssembly.Proofs.Schema.Converting
import ApiAssembly.Proofs.Schema.Enumeration
import ApiAssembly.Proofs.Schema.Equation
import ApiAssembly.Proofs.TypeExpr.Reaching
import ApiAssembly.Proofs.Schema.Record
import ApiAssembly.Proofs.Schema.Coverage
import ApiAssembly.Proofs.Schema.Reference
import ApiAssembly.Proofs.TypeExpr.Chain
import ApiAssembly.Proofs.Schema.Shape
import ApiAssembly.Proofs.Schema.Joining
import ApiAssembly.Proofs.Comment.Locality
import ApiAssembly.Proofs.Schema.FirstFault
import ApiAssembly.Proofs.Schema.ArraySpelling
import ApiAssembly.Proofs.Json.NumberText
import ApiAssembly.Proofs.Json.RoundTrip
import ApiAssembly.Proofs.Json.Extending
import ApiAssembly.Proofs.Json.CompactText
import ApiAssembly.Proofs.Typedef.Default
import ApiAssembly.Proofs.Comment.BlankLines
import ApiAssembly.Proofs.Comment.Cutting
import ApiAssembly.Proofs.Comment.Relayout
import ApiAssembly.Proofs.Document.Reporting
import ApiAssembly.Proofs.Json.Uniqueness
import ApiAssembly.Proofs.Yaml.Sameness
import ApiAssembly.Proofs.Yaml.KeyText
import ApiAssembly.Proofs.Comment.BraceDepth
import ApiAssembly.Proofs.Value.DocumentOrder
import ApiAssembly.Proofs.Command.Flag
import ApiAssembly.Proofs.Command.Strictness
import ApiAssembly.Proofs.Text.Bytes
import ApiAssembly.Proofs.Project.Following
import ApiAssembly.Proofs.Project.Listing
import ApiAssembly.Proofs.Decimal.Numeral
import ApiAssembly.Proofs.TypeExpr.NumberRun
