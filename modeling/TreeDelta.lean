import TreeDelta.Command.Basic
import TreeDelta.Command.Parse
import TreeDelta.Delta.Accumulator
import TreeDelta.Delta.Basic
import TreeDelta.Delta.Document
import TreeDelta.Delta.Listing
import TreeDelta.Delta.Merge
import TreeDelta.Delta.Shared
import TreeDelta.Delta.Valid
import TreeDelta.Digest.MD5
import TreeDelta.Fault
import TreeDelta.Json.Basic
import TreeDelta.Json.Reader
import TreeDelta.Json.Token
import TreeDelta.Json.Writer
import TreeDelta.Log
import TreeDelta.Main
import TreeDelta.Number.Decimal
import TreeDelta.Number.Double
import TreeDelta.Program.Disk
import TreeDelta.Program.Dispatch
import TreeDelta.Program.Options
import TreeDelta.Program.Run
import TreeDelta.Program.Streams
import TreeDelta.Proofs.Accumulate
import TreeDelta.Proofs.Cells.Settled
import TreeDelta.Proofs.Cells.Entries
import TreeDelta.Proofs.Delta.Unshared
import TreeDelta.Proofs.Settings.Unshared
import TreeDelta.Proofs.Cells.Steps
import TreeDelta.Proofs.Delta.Compose
import TreeDelta.Proofs.Delta.Leads
import TreeDelta.Proofs.Delta.Listing
import TreeDelta.Proofs.Delta.Merge
import TreeDelta.Proofs.Delta.Net
import TreeDelta.Proofs.Delta.Readings
import TreeDelta.Proofs.Equality
import TreeDelta.Proofs.Fields
import TreeDelta.Proofs.Place
import TreeDelta.Proofs.Shape
import TreeDelta.Proofs.Sorting.Permutation
import TreeDelta.Proofs.Update.Draft
import TreeDelta.Proofs.Update.Exact
import TreeDelta.Proofs.Update.Full
import TreeDelta.Proofs.Update.Meaning
import TreeDelta.Proofs.Update.Record
import TreeDelta.Proofs.Update.Shuffle
import TreeDelta.Proofs.Update.Step
import TreeDelta.Report.Delta
import TreeDelta.Report.Style
import TreeDelta.Report.Value
import TreeDelta.Settings.Basic
import TreeDelta.Settings.File
import TreeDelta.Settings.Overlay
import TreeDelta.Settings.Shared
import TreeDelta.Sorting.Adaptive
import TreeDelta.Sorting.Merge
import TreeDelta.Sorting.Search
import TreeDelta.Text.Base64
import TreeDelta.Text.Basic
import TreeDelta.Text.Blank
import TreeDelta.Text.CharName
import TreeDelta.Text.CodePage
import TreeDelta.Text.Digits
import TreeDelta.Text.Encoding
import TreeDelta.Text.Lines
import TreeDelta.Text.Printable
import TreeDelta.Text.Quoted
import TreeDelta.Text.Units
import TreeDelta.Text.Utf7
import TreeDelta.Trail
import TreeDelta.Update.Apply
import TreeDelta.Update.Factory
import TreeDelta.Update.Operation
import TreeDelta.Value.Basic
import TreeDelta.Value.Cells
import TreeDelta.Value.Equality
import TreeDelta.Value.Fields
import TreeDelta.Value.Layout
import TreeDelta.Value.Order
import TreeDelta.Value.SetOrder
import TreeDelta.Value.Show
import TreeDelta.Proofs.Symmetry
import TreeDelta.Proofs.Update.Normal
import TreeDelta.Proofs.Update.Again
import TreeDelta.Proofs.Update.Split
import TreeDelta.Proofs.Number.Decimal
import TreeDelta.Proofs.Json.Number
import TreeDelta.Proofs.Json.Lex
import TreeDelta.Proofs.Json.Read
import TreeDelta.Proofs.Json.Copy
import TreeDelta.Proofs.Delta.Document
import TreeDelta.Proofs.Json.Parse
import TreeDelta.Proofs.Update.Json
import TreeDelta.Proofs.Delta.Stored
import TreeDelta.Proofs.Program.Disk
import TreeDelta.Proofs.Program.Run
import TreeDelta.Proofs.Program.Fold
import TreeDelta.Proofs.Update.Idempotent
import TreeDelta.Proofs.Command.Raw
import TreeDelta.Proofs.Update.Failure
import TreeDelta.Proofs.Delta.Chain
import TreeDelta.Proofs.Delta.Refused
import TreeDelta.Proofs.Delta.Conflict
import TreeDelta.Proofs.Delta.Neat
import TreeDelta.Proofs.Command.Grammar
import TreeDelta.Proofs.Delta.Decode
import TreeDelta.Proofs.Program.Refusal
import TreeDelta.Proofs.Delta.Format
import TreeDelta.Proofs.Number.Exact
import TreeDelta.Proofs.Sameness
import TreeDelta.Proofs.Update.Along
import TreeDelta.Proofs.Update.Overlay
import TreeDelta.Proofs.Update.Lens
import TreeDelta.Proofs.Settings.Layers
import TreeDelta.Proofs.Report.Listing
import TreeDelta.Proofs.Report.Parts
import TreeDelta.Proofs.Report.Lines
import TreeDelta.Proofs.Report.Color
import TreeDelta.Proofs.Update.Order
import TreeDelta.Proofs.Delta.Pointwise
import TreeDelta.Proofs.Delta.Enumeration
import TreeDelta.Proofs.Settings.Pruned
