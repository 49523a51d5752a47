import ComponentAudit.Catalog.Builtin
import ComponentAudit.Catalog.Document
import ComponentAudit.Catalog.Load
import ComponentAudit.Catalog.Name
import ComponentAudit.Catalog.Resolve
import ComponentAudit.Catalog.Spec
import ComponentAudit.CommandLine.Arguments
import ComponentAudit.CommandLine.Clock
import ComponentAudit.CommandLine.Command
import ComponentAudit.CommandLine.Print
import ComponentAudit.CommandLine.Run
import ComponentAudit.CommandLine.Style
import ComponentAudit.Decimal.Layout
import ComponentAudit.Decimal.Reading
import ComponentAudit.Decimal.Shortest
import ComponentAudit.Document.Format
import ComponentAudit.Document.Toml
import ComponentAudit.Document.Toml.Date
import ComponentAudit.Document.Toml.Scalar
import ComponentAudit.Document.Toml.Text
import ComponentAudit.Document.Toml.Tree
import ComponentAudit.Document.Value
import ComponentAudit.Document.Yaml
import ComponentAudit.Document.Yaml.Block
import ComponentAudit.Document.Yaml.Gap
import ComponentAudit.Document.Yaml.Place
import ComponentAudit.Document.Yaml.Plain
import ComponentAudit.Document.Yaml.Quoted
import ComponentAudit.Document.Yaml.Scan
import ComponentAudit.Document.Yaml.Token
import ComponentAudit.Error
import ComponentAudit.Extraction
import ComponentAudit.Glob.Braces
import ComponentAudit.Glob.Pattern
import ComponentAudit.Json.Number
import ComponentAudit.Json.Parser
import ComponentAudit.Json.Printer
import ComponentAudit.Json.Value
import ComponentAudit.Main
import ComponentAudit.NameTable
import ComponentAudit.Path.Basic
import ComponentAudit.Path.Relative
import ComponentAudit.Record.Scan
import ComponentAudit.Record.Usage
import ComponentAudit.Rules.Accessibility
import ComponentAudit.Rules.Design
import ComponentAudit.Rules.Label
import ComponentAudit.Scan.Project
import ComponentAudit.Scan.Report
import ComponentAudit.Scan.Result
import ComponentAudit.Scan.Run
import ComponentAudit.Script.Bracket
import ComponentAudit.Script.Expression
import ComponentAudit.Script.ObjectLiteral
import ComponentAudit.Script.Split
import ComponentAudit.Script.Token
import ComponentAudit.Server.Reply
import ComponentAudit.Server.Request
import ComponentAudit.Server.Session
import ComponentAudit.Server.Tool
import ComponentAudit.Settings.Config
import ComponentAudit.Settings.Effective
import ComponentAudit.Site.Attribute
import ComponentAudit.Site.Basic
import ComponentAudit.Site.Call
import ComponentAudit.Site.Effort
import ComponentAudit.Site.Markup
import ComponentAudit.Site.Parent
import ComponentAudit.Site.Script
import ComponentAudit.Site.Tag
import ComponentAudit.Store.Access
import ComponentAudit.Store.Listing
import ComponentAudit.Store.Memory
import ComponentAudit.Store.Patterns
import ComponentAudit.Store.Tree
import ComponentAudit.Store.Walk
import ComponentAudit.Text.Blank
import ComponentAudit.Text.Find
import ComponentAudit.Text.Lower
import ComponentAudit.Text.Utf8
import ComponentAudit.Text.Word
import ComponentAudit.Usage.Basic
import ComponentAudit.Usage.Issue
import ComponentAudit.Usage.Value
import ComponentAudit.Proofs.Invocation.Basic
import ComponentAudit.Proofs.Invocation.Tag
import ComponentAudit.Proofs.Invocation.Script
import ComponentAudit.Proofs.Invocation.Markup
import ComponentAudit.Proofs.Location
import ComponentAudit.Proofs.Outline
import ComponentAudit.Proofs.Written.Word
import ComponentAudit.Proofs.Script.Bracket
import ComponentAudit.Proofs.Script.Expression
import ComponentAudit.Proofs.Written.Path
import ComponentAudit.Proofs.Written.Code
import ComponentAudit.Proofs.Written.Tag
import ComponentAudit.Proofs.Written.Template
import ComponentAudit.Proofs.Written.Quoted
import ComponentAudit.Proofs.Script.ObjectLiteral
import ComponentAudit.Proofs.Written.Jsx
import ComponentAudit.Proofs.Written.Call
import ComponentAudit.Proofs.Text.Search
import ComponentAudit.Proofs.Path.Components
import ComponentAudit.Proofs.Catalog.Resolution
import ComponentAudit.Proofs.Rules.Standing
import ComponentAudit.Proofs.Rules.Unknown
import ComponentAudit.Proofs.Rules.Origin
import ComponentAudit.Proofs.Rules.Spread
import ComponentAudit.Proofs.Rules.Repeats
import ComponentAudit.Proofs.Rules.Spelling
import ComponentAudit.Proofs.Store.Memory
import ComponentAudit.Proofs.Scan.Isolation
import ComponentAudit.Proofs.Scan.Validation
import ComponentAudit.Proofs.Invocation.Failure
import ComponentAudit.Proofs.Offset.Attribute
import ComponentAudit.Proofs.Offset.Call
import ComponentAudit.Proofs.Offset.Extraction
import ComponentAudit.Proofs.Offset.Literal
import ComponentAudit.Proofs.Offset.Safety
import ComponentAudit.Proofs.Mention
import ComponentAudit.Proofs.Invocation.Move
import ComponentAudit.Proofs.Limit.CutOff
import ComponentAudit.Proofs.Limit.Count
import ComponentAudit.Proofs.Extent.Stack
import ComponentAudit.Proofs.Extent.Scan
import ComponentAudit.Proofs.Locality.Shift
import ComponentAudit.Proofs.Locality.Region
import ComponentAudit.Proofs.Progress.Token
import ComponentAudit.Proofs.Progress.Scan
import ComponentAudit.Proofs.Progress.Outcome
import ComponentAudit.Proofs.NameTable
import ComponentAudit.Proofs.Path.Below
import ComponentAudit.Proofs.Scan.Counts
import ComponentAudit.Proofs.Store.Run
import ComponentAudit.Proofs.Json.Scalar
import ComponentAudit.Proofs.Json.Layout
import ComponentAudit.Proofs.Json.Reading
import ComponentAudit.Proofs.Record.Usage
import ComponentAudit.Proofs.Server.Framing
import ComponentAudit.Proofs.Extent.Parent
import ComponentAudit.Proofs.Rules.Labels
import ComponentAudit.Proofs.Text.ByteOrder
import ComponentAudit.Proofs.Catalog.Name
import ComponentAudit.Proofs.Catalog.Chain
import ComponentAudit.Proofs.Rules.Enabling
import ComponentAudit.Proofs.Script.Code
import ComponentAudit.Proofs.Script.Literal
import ComponentAudit.Proofs.Script.Wrapped
import ComponentAudit.Proofs.Glob.Braces
import ComponentAudit.Proofs.Glob.Matching
import ComponentAudit.Proofs.Limit.Depth
import ComponentAudit.Proofs.Limit.Time
import ComponentAudit.Proofs.Script.Piece
import ComponentAudit.Proofs.Script.PlainValue
import ComponentAudit.Proofs.Script.Entry
import ComponentAudit.Proofs.Script.Comment
import ComponentAudit.Proofs.Script.RegexLine
import ComponentAudit.Proofs.Script.Regex
import ComponentAudit.Proofs.Table.Growth
import ComponentAudit.Proofs.Table.Scan
import ComponentAudit.Proofs.Offset.Region
