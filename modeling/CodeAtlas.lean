import CodeAtlas.Arena
import CodeAtlas.CommandLine.Flag
import CodeAtlas.CommandLine.Invocation
import CodeAtlas.CommandLine.Words
import CodeAtlas.Decimal.Shortest
import CodeAtlas.Failure
import CodeAtlas.FileUrl
import CodeAtlas.Json.Fault
import CodeAtlas.Json.Printer
import CodeAtlas.Json.Reader
import CodeAtlas.Json.Token
import CodeAtlas.Json.Value
import CodeAtlas.Main
import CodeAtlas.Mismatch
import CodeAtlas.Occurrence
import CodeAtlas.Position
import CodeAtlas.PrefixIndex.Basic
import CodeAtlas.PrefixIndex.Listing
import CodeAtlas.Repeats
import CodeAtlas.Request
import CodeAtlas.Request.Definition
import CodeAtlas.Request.Folding
import CodeAtlas.Request.Highlight
import CodeAtlas.Request.Outline
import CodeAtlas.Request.Selection
import CodeAtlas.Request.WorkspaceSymbols
import CodeAtlas.Session
import CodeAtlas.Settings
import CodeAtlas.Settings.OfToml
import CodeAtlas.Source
import CodeAtlas.Symbol.Collector
import CodeAtlas.Symbol.Index
import CodeAtlas.Symbol.Name
import CodeAtlas.Symbol.Scope
import CodeAtlas.Syntax.Kind
import CodeAtlas.Syntax.Node
import CodeAtlas.Syntax.OfText
import CodeAtlas.Syntax.OfValue
import CodeAtlas.Syntax.Record
import CodeAtlas.Text.Bytes
import CodeAtlas.Text.Lines
import CodeAtlas.Text.Printable
import CodeAtlas.Text.Quoted
import CodeAtlas.Toml.Document
import CodeAtlas.Toml.Number
import CodeAtlas.Toml.Text
import CodeAtlas.Toml.Value
import CodeAtlas.Walk
import CodeAtlas.Workspace
import CodeAtlas.PrefixIndex.Graph
import CodeAtlas.PrefixIndex.Tree
import CodeAtlas.PrefixIndex.Replacement
import CodeAtlas.PrefixIndex.Descent
import CodeAtlas.PrefixIndex.Insertion
import CodeAtlas.PrefixIndex.Removal
import CodeAtlas.PrefixIndex.Traversal
import CodeAtlas.PrefixIndex.Shape
import CodeAtlas.Proofs.Arena
import CodeAtlas.Proofs.PrefixIndex.Entries
import CodeAtlas.Proofs.PrefixIndex.Prefixes
import CodeAtlas.Proofs.PrefixIndex.FiniteMap
import CodeAtlas.Proofs.PrefixIndex.Order
import CodeAtlas.Proofs.PrefixIndex.Soundness
import CodeAtlas.Proofs.Walk
import CodeAtlas.Proofs.Occurrence
import CodeAtlas.Proofs.Symbol.Contents
import CodeAtlas.Proofs.Symbol.Answers
import CodeAtlas.Proofs.Symbol.Repetition
import CodeAtlas.Proofs.Symbol.Nesting
import CodeAtlas.Proofs.Symbol.Agreement
import CodeAtlas.Proofs.Text.Lines
import CodeAtlas.Proofs.Position
import CodeAtlas.Proofs.Position.Order
import CodeAtlas.Proofs.Position.Clamping
import CodeAtlas.Proofs.Position.Monotone
import CodeAtlas.Proofs.Repeats
import CodeAtlas.Proofs.Workspace
import CodeAtlas.Proofs.Request.Definition
import CodeAtlas.Proofs.Request.WorkspaceSymbols
import CodeAtlas.Proofs.Syntax.Sites
import CodeAtlas.Proofs.Related
import CodeAtlas.Proofs.Request.Highlight
import CodeAtlas.Proofs.Request.Occurrences
import CodeAtlas.Proofs.Request.Encoding
import CodeAtlas.Proofs.SharedWalk
import CodeAtlas.Proofs.Request.Outline
import CodeAtlas.Proofs.Request.Forest
import CodeAtlas.Proofs.Request.SingletonMethods
import CodeAtlas.Proofs.Symbol.Bodies
import CodeAtlas.Proofs.Request.Selection
import CodeAtlas.Proofs.Request.Candidates
import CodeAtlas.Proofs.Json.Tokens
import CodeAtlas.Proofs.Json.Spelling
import CodeAtlas.Proofs.Json.Reading
import CodeAtlas.Proofs.Syntax.RoundTrip
import CodeAtlas.Proofs.Checked.Arena
import CodeAtlas.Proofs.Checked.Walk
import CodeAtlas.Proofs.Checked.Workspace
import CodeAtlas.Proofs.Checked.Position
import CodeAtlas.Proofs.Checked.LineTable
import CodeAtlas.Proofs.Checked.Request
import CodeAtlas.Proofs.LineTable
import CodeAtlas.Proofs.Syntax.Paths
import CodeAtlas.Proofs.Request.SelectionPath
import CodeAtlas.Proofs.Request.Containment
import CodeAtlas.Proofs.Request.Folding
import CodeAtlas.Proofs.FileUrl.Percent
import CodeAtlas.Proofs.FileUrl.Segments
import CodeAtlas.Proofs.FileUrl
import CodeAtlas.Proofs.Text.CommonPrefix
import CodeAtlas.Proofs.Arena.Peak
import CodeAtlas.Proofs.PrefixIndex.Cuts
import CodeAtlas.Proofs.PrefixIndex.Peak
