import RecordLens.Main
import RecordLens.Proofs.Elaboration.FieldOrder
import RecordLens.Proofs.Elaboration.Inference
import RecordLens.Proofs.Elaboration.Mismatch
import RecordLens.Proofs.Host.Pairing
import RecordLens.Proofs.Host.Refusal
import RecordLens.Proofs.Host.Spelling
import RecordLens.Proofs.Lens.Derivation
import RecordLens.Proofs.Lens.Interference
import RecordLens.Proofs.Path.Printed
import RecordLens.Proofs.Program.Values
import RecordLens.Proofs.Report.Underline
import RecordLens.Proofs.Session.Addressing
import RecordLens.Proofs.Session.Places
import RecordLens.Proofs.Session.Replacing
import RecordLens.Proofs.Session.Retyping
import RecordLens.Proofs.Session.SinglePass
import RecordLens.Proofs.Token.Tiling
import RecordLens.Proofs.Ty.Slices
import RecordLens.Proofs.Value.Slices
import RecordLens.Proofs.Ty.RoundTrip
import RecordLens.Proofs.Value.RoundTrip
import RecordLens.Proofs.Literal.Spans
import RecordLens.Proofs.Elaboration.Orderly
import RecordLens.Proofs.Literal.Limit
import RecordLens.Proofs.Literal.Positions
import RecordLens.Proofs.Elaboration.Tuples
import RecordLens.Proofs.Registry.Lookup
import RecordLens.Proofs.Elaboration.Leftovers
