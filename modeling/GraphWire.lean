import GraphWire.Number.Arithmetic
import GraphWire.Number.Decimal
import GraphWire.Wire.Layout
import GraphWire.Wire.Scalar
import GraphWire.Text.Utf8
import GraphWire.Log
import GraphWire.Options
import GraphWire.Reader.Table
import GraphWire.Builder.Finish
import GraphWire.Builder.Table
import GraphWire.Builder.Vector
import GraphWire.Model.Decoding
import GraphWire.Session
import GraphWire.Proofs.Reader.Coverage
import GraphWire.Proofs.Model.WellTyped
import GraphWire.Proofs.Builder.Content
import GraphWire.Proofs.Builder.Finish
import GraphWire.Proofs.Builder.Table
import GraphWire.Proofs.Model.Stored
import GraphWire.Proofs.Model.Writing
import GraphWire.Proofs.Model.Attributes
import GraphWire.Proofs.Model.Parts
import GraphWire.Proofs.Model.Refusal
import GraphWire.Proofs.Model.RoundTrip
import GraphWire.Proofs.Number.Rounding
import GraphWire.Proofs.Builder.OpenVector
import GraphWire.Proofs.Session.Agreement
import GraphWire.Model.Path
import GraphWire.Proofs.Model.Extension
import GraphWire.Proofs.Model.Framing
import GraphWire.Proofs.Model.Reencoding
import GraphWire.Proofs.Session.Growth
import GraphWire.Proofs.Model.Truncation
import GraphWire.Proofs.Model.ByteStability
import GraphWire.Proofs.Model.EncodeOptions
import GraphWire.Proofs.Session.Vtables
import GraphWire.Proofs.Model.Validation
import GraphWire.Proofs.Session.Strings
import GraphWire.Proofs.Session.Head
import GraphWire.Proofs.Session.LifeCycle
import GraphWire.Proofs.Session.NaturalAlignment
import GraphWire.Proofs.Session.Isolation
import GraphWire.Proofs.Reader.Vectors
import GraphWire.Proofs.Model.Sniffing
import GraphWire.Proofs.Builder.Contiguity
import GraphWire.Proofs.Builder.Thrift
import GraphWire.Proofs.Model.EncodedSize
import GraphWire.Proofs.Builder.Capacity
import GraphWire.Proofs.Session.Reservation
import GraphWire.Proofs.Session.Refinement
import GraphWire.Proofs.Session.Soundness
import GraphWire.Proofs.Number.Text
