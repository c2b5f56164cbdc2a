import RecordCipher.Expression.Canonical
import RecordCipher.Json.Parse
import RecordCipher.Pipeline.Basic
import RecordCipher.Settings.Document
import RecordCipher.Proofs.Computation
import RecordCipher.Proofs.LocationText
import RecordCipher.Proofs.SortedMap
import RecordCipher.Proofs.Record.Fields
import RecordCipher.Proofs.Tree.Document
import RecordCipher.Proofs.Tree.Structured
import RecordCipher.Proofs.Tree.SameOutside
import RecordCipher.Proofs.Tree.Lenses
import RecordCipher.Proofs.Record.WellFormed
import RecordCipher.Proofs.Record.Completeness
import RecordCipher.Proofs.Record.Operations
import RecordCipher.Proofs.Text.Base64
import RecordCipher.Proofs.Text.Utf8
import RecordCipher.Proofs.Expression.Grammar
import RecordCipher.Proofs.Expression.Lexing
import RecordCipher.Proofs.Expression.Splitting
import RecordCipher.Proofs.Expression.BareNames
import RecordCipher.Proofs.Expression.Canonical
import RecordCipher.Proofs.Expression.CanonicalLength
import RecordCipher.Proofs.Expression.Beginnings
import RecordCipher.Proofs.Expression.Positions
import RecordCipher.Proofs.Expression.Progress
import RecordCipher.Proofs.Plan.Reading
import RecordCipher.Proofs.Plan.Denotation
import RecordCipher.Proofs.Plan.SelfAddressing
import RecordCipher.Proofs.Plan.Descent
import RecordCipher.Proofs.Plan.Writing
import RecordCipher.Proofs.Plan.Typing
import RecordCipher.Proofs.Plan.Failures
import RecordCipher.Proofs.Record.Elements
import RecordCipher.Proofs.Plan.ReadBack
import RecordCipher.Proofs.Plan.Frame
import RecordCipher.Proofs.Plan.Agreement
import RecordCipher.Proofs.Plan.FirstFailure
import RecordCipher.Proofs.Plan.WriteBack
import RecordCipher.Proofs.Plan.StaticTyping
import RecordCipher.Proofs.Plan.Idempotence
import RecordCipher.Proofs.Plan.Composition
import RecordCipher.Proofs.Plan.Footprint
import RecordCipher.Proofs.Plan.Erasure
import RecordCipher.Proofs.Plan.LocationCode
import RecordCipher.Proofs.Exchange.Alike
import RecordCipher.Proofs.Exchange.Leaves
import RecordCipher.Proofs.Exchange.LeafWriting
import RecordCipher.Proofs.Exchange.Overlay
import RecordCipher.Proofs.Pipeline.Preparation
import RecordCipher.Proofs.Pipeline.Harvest
import RecordCipher.Proofs.Pipeline.Splice
import RecordCipher.Proofs.Pipeline.RoundTrip
import RecordCipher.Proofs.Pipeline.Confinement
import RecordCipher.Proofs.Pipeline.Integrity
import RecordCipher.Proofs.Pipeline.Calls
import RecordCipher.Proofs.Pipeline.FieldOrder
import RecordCipher.Proofs.Pipeline.NonInterference
import RecordCipher.Proofs.Json.Spelling
import RecordCipher.Proofs.Json.Reading
import RecordCipher.Proofs.Settings.Layout
import RecordCipher.Proofs.Settings.Decoding
