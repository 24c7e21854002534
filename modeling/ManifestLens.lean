import ManifestLens.Decimal.Layout
import ManifestLens.Decimal.Read
import ManifestLens.Decimal.Shortest
import ManifestLens.Digest.Md5
import ManifestLens.Dispatch.Line
import ManifestLens.Dispatch.Worker
import ManifestLens.Editor.Edit
import ManifestLens.Editor.Hover
import ManifestLens.Editor.Lens
import ManifestLens.Expression.Classify
import ManifestLens.Expression.Lexeme
import ManifestLens.Expression.Token
import ManifestLens.Fault
import ManifestLens.Index.Resources
import ManifestLens.Inputs.Compare
import ManifestLens.Inspect.Arguments
import ManifestLens.Inspect.Paint
import ManifestLens.Inspect.Snapshot
import ManifestLens.Inspect.Walk
import ManifestLens.Json.Reader
import ManifestLens.Json.Writer
import ManifestLens.Key.Pattern
import ManifestLens.Main
import ManifestLens.Manifest.Basic
import ManifestLens.Manifest.Outline
import ManifestLens.Manifest.Scalar
import ManifestLens.Outline.Basic
import ManifestLens.Outline.Flatten
import ManifestLens.Outline.Kind
import ManifestLens.Outline.Ranges
import ManifestLens.Outline.Search
import ManifestLens.Position
import ManifestLens.Proofs.Dispatch.Accounting
import ManifestLens.Proofs.Dispatch.Registry
import ManifestLens.Proofs.Dispatch.Requests
import ManifestLens.Proofs.Dispatch.Schedule
import ManifestLens.Proofs.Dispatch.Steps
import ManifestLens.Proofs.Expression.Spans
import ManifestLens.Proofs.Manifest.Decoding
import ManifestLens.Proofs.Manifest.Derivation
import ManifestLens.Proofs.Manifest.Growth
import ManifestLens.Proofs.Manifest.Independence
import ManifestLens.Proofs.Manifest.Parallel
import ManifestLens.Proofs.Manifest.Placement
import ManifestLens.Proofs.Manifest.Run
import ManifestLens.Proofs.Manifest.Scalar
import ManifestLens.Proofs.Outline.Deltas
import ManifestLens.Proofs.Outline.Preorder
import ManifestLens.Report.Block
import ManifestLens.Report.Diagnostic
import ManifestLens.Report.File
import ManifestLens.Resource.Basic
import ManifestLens.Resource.Cache
import ManifestLens.Schema.Basic
import ManifestLens.Schema.Key
import ManifestLens.Schema.Resources
import ManifestLens.Session.Analysis
import ManifestLens.Session.Basic
import ManifestLens.Session.Lookup
import ManifestLens.Session.Request
import ManifestLens.Session.Turn
import ManifestLens.Test.Report
import ManifestLens.Test.Result
import ManifestLens.Test.Run
import ManifestLens.Text.Blank
import ManifestLens.Text.Digit
import ManifestLens.Text.Lines
import ManifestLens.Text.Printable
import ManifestLens.Text.Quoted
import ManifestLens.Text.Ranges
import ManifestLens.Text.Utf8
import ManifestLens.Text.Word
import ManifestLens.Value.Basic
import ManifestLens.Value.Calendar
import ManifestLens.Value.Compare
import ManifestLens.Value.Field
import ManifestLens.Value.Order
import ManifestLens.Value.Text
import ManifestLens.Workflow.Check
import ManifestLens.Yaml.Document
import ManifestLens.Yaml.Error
import ManifestLens.Yaml.Event
import ManifestLens.Yaml.Mark
import ManifestLens.Yaml.Node
import ManifestLens.Yaml.Node.Merge
import ManifestLens.Yaml.Node.OfValue
import ManifestLens.Yaml.Node.Scalar
import ManifestLens.Yaml.Node.Value
import ManifestLens.Yaml.Tag
import ManifestLens.Yaml.Token
import ManifestLens.Yaml.Token.BlockScalar
import ManifestLens.Yaml.Token.Name
import ManifestLens.Yaml.Token.PlainScalar
import ManifestLens.Yaml.Token.QuotedScalar
import ManifestLens.Yaml.Token.Space
import ManifestLens.Yaml.Token.Stream
import ManifestLens.Yaml.Writer.Node
import ManifestLens.Yaml.Writer.Pen
import ManifestLens.Yaml.Writer.Style
import ManifestLens.Proofs.Report.Entries
import ManifestLens.Proofs.Session.Steps
import ManifestLens.Proofs.Session.Schedule
import ManifestLens.Proofs.Session.Latest
import ManifestLens.Proofs.Session.Forgetting
import ManifestLens.Proofs.Value.Names
import ManifestLens.Proofs.Inputs.Marking
import ManifestLens.Proofs.Workflow.Verdict
import ManifestLens.Proofs.Manifest.Alike
import ManifestLens.Proofs.Manifest.Lines
import ManifestLens.Proofs.Report.Broken
import ManifestLens.Proofs.Manifest.Settling
import ManifestLens.Proofs.Inputs.Mismatches
import ManifestLens.Proofs.Editor.Mending
import ManifestLens.Proofs.Text.Lines
import ManifestLens.Proofs.Manifest.FirstDocument
import ManifestLens.Proofs.Manifest.Version
import ManifestLens.Proofs.Index.Duplicates
import ManifestLens.Proofs.Manifest.Naming
import ManifestLens.Proofs.Report.Definitions
import ManifestLens.Proofs.Expression.Lossless
import ManifestLens.Proofs.Expression.Distances
import ManifestLens.Proofs.Inputs.Agreement
import ManifestLens.Proofs.Manifest.Trail
import ManifestLens.Proofs.Dispatch.Life
import ManifestLens.Proofs.Dispatch.Chronicle
import ManifestLens.Proofs.Expression.Readable
import ManifestLens.Proofs.Expression.Symbols
import ManifestLens.Proofs.Expression.Literals
import ManifestLens.Proofs.Expression.Quoting
import ManifestLens.Proofs.Expression.Braces
import ManifestLens.Proofs.Expression.Commas
import ManifestLens.Proofs.Yaml.Cursors
import ManifestLens.Proofs.Yaml.Spelling
import ManifestLens.Proofs.Yaml.Blocks
import ManifestLens.Proofs.Yaml.Scanning
import ManifestLens.Proofs.Yaml.Origins
import ManifestLens.Proofs.Yaml.TokenOrder
import ManifestLens.Proofs.Yaml.EventOrder
import ManifestLens.Proofs.Yaml.NodeOrder
import ManifestLens.Proofs.Manifest.Standing
import ManifestLens.Proofs.Manifest.Starts
import ManifestLens.Proofs.Manifest.Pointing
import ManifestLens.Proofs.Manifest.Coverage
import ManifestLens.Proofs.Manifest.Agreement
import ManifestLens.Proofs.Manifest.Strictness
import ManifestLens.Proofs.Manifest.Items
import ManifestLens.Proofs.Manifest.Fitting
import ManifestLens.Proofs.Outline.Queries
import ManifestLens.Proofs.Manifest.KeyRemarks
import ManifestLens.Proofs.Manifest.Plain
import ManifestLens.Proofs.Manifest.References
import ManifestLens.Proofs.Manifest.Reach
import ManifestLens.Proofs.Value.Identity
import ManifestLens.Proofs.Value.Exchange
import ManifestLens.Proofs.Test.Verdict
import ManifestLens.Proofs.Workflow.Misfits
import ManifestLens.Proofs.Editor.Offers
import ManifestLens.Proofs.Editor.Replacement
import ManifestLens.Proofs.Report.Routing
import ManifestLens.Proofs.Manifest.Demands
import ManifestLens.Proofs.Manifest.Lenience
import ManifestLens.Proofs.Manifest.Suiting
