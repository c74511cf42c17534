import TypedRecord.Catalog.Models
import TypedRecord.Json.Printer
import TypedRecord.Json.Reader
import TypedRecord.Proofs.Binary64.Exact
import TypedRecord.Proofs.Binary64.Rounding
import TypedRecord.Proofs.Catalog
import TypedRecord.Proofs.Entries
import TypedRecord.Proofs.Json.Proper
import TypedRecord.Proofs.Json.Reader
import TypedRecord.Proofs.Json.Validation
import TypedRecord.Proofs.Outcome
import TypedRecord.Proofs.Pointer
import TypedRecord.Proofs.Random
import TypedRecord.Proofs.Random.Draws
import TypedRecord.Proofs.Random.Numbers
import TypedRecord.Proofs.Random.Validity
import TypedRecord.Proofs.Record.Acceptance
import TypedRecord.Proofs.Record.Agreement
import TypedRecord.Proofs.Record.Assembly
import TypedRecord.Proofs.Record.Attribution
import TypedRecord.Proofs.Record.Concurrence
import TypedRecord.Proofs.Record.Conformance
import TypedRecord.Proofs.Record.Congruence
import TypedRecord.Proofs.Record.Delegation
import TypedRecord.Proofs.Record.Description
import TypedRecord.Proofs.Record.Editing
import TypedRecord.Proofs.Record.Encoding
import TypedRecord.Proofs.Record.Interchange
import TypedRecord.Proofs.Record.Loosening
import TypedRecord.Proofs.Record.Noninterference
import TypedRecord.Proofs.Record.NormalForm
import TypedRecord.Proofs.Record.Placement
import TypedRecord.Proofs.Record.Presence
import TypedRecord.Proofs.Record.Preservation
import TypedRecord.Proofs.Record.Reading
import TypedRecord.Proofs.Record.Recasting
import TypedRecord.Proofs.Record.Refusal
import TypedRecord.Proofs.Record.Replacement
import TypedRecord.Proofs.Record.RoundTrip
import TypedRecord.Proofs.Record.Sampling
import TypedRecord.Proofs.Record.Strictness
import TypedRecord.Proofs.Record.Substitution
import TypedRecord.Proofs.Record.Supply
import TypedRecord.Proofs.Record.Taxonomy
import TypedRecord.Proofs.Record.Union
import TypedRecord.Proofs.Record.Validity
import TypedRecord.Proofs.Record.Versions
import TypedRecord.Proofs.Record.Widening
import TypedRecord.Proofs.Sample
import TypedRecord.Proofs.Sample.Numbers
import TypedRecord.Proofs.Sample.Shape
import TypedRecord.Proofs.Schema.Alike
import TypedRecord.Proofs.Schema.Built
import TypedRecord.Proofs.Schema.Definitions
import TypedRecord.Proofs.Schema.Equality
import TypedRecord.Proofs.Schema.Exactness
import TypedRecord.Proofs.Schema.Induction
import TypedRecord.Proofs.Schema.Integrity
import TypedRecord.Proofs.Schema.Keywords
import TypedRecord.Proofs.Schema.Lookup
import TypedRecord.Proofs.Schema.Loosening
import TypedRecord.Proofs.Schema.Reach
import TypedRecord.Proofs.Schema.Reference
import TypedRecord.Proofs.Schema.Visits
import TypedRecord.Proofs.World
import TypedRecord.Random.Value
import TypedRecord.Record.Access
import TypedRecord.Record.Decode
import TypedRecord.Record.Encode
import TypedRecord.Schema.Export
