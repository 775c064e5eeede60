import WireCodec.Proofs.Stream.RoundTrip
import WireCodec.Proofs.Stream.Segmentation
import WireCodec.Proofs.Stream.Tearing
import WireCodec.Proofs.Tape.RoundTrip
import WireCodec.Slice
import WireCodec.Stream.Bound
import WireCodec.Proofs.Tape.Outcomes
import WireCodec.Proofs.Tape.Extents
import WireCodec.Proofs.Tape.Drive
import WireCodec.Proofs.Tape.Skipping
import WireCodec.Proofs.Tape.Driving
import WireCodec.Proofs.Tape.Storing
import WireCodec.Proofs.Tape.Effects
import WireCodec.Proofs.Tape.Atomicity
import WireCodec.Proofs.Tape.Safety
import WireCodec.Proofs.Stream.ScratchWriter
import WireCodec.Proofs.Stream.FirstFailure
import WireCodec.Proofs.Stream.Parsing
import WireCodec.Proofs.Stream.ScratchReader
import WireCodec.Proofs.Stream.KeptFailure
import WireCodec.Proofs.Stream.Modes
import WireCodec.Proofs.Tape.Locality
import WireCodec.Proofs.WireFormat
import WireCodec.Proofs.Tape.Narrowest
import WireCodec.Proofs.Register
import WireCodec.Proofs.Stream.Grammar
import WireCodec.Proofs.Stream.Reporting
import WireCodec.Proofs.Tape.Reporting
import WireCodec.Proofs.Reporting
import WireCodec.Proofs.Accesses
import WireCodec.Proofs.Positional
import WireCodec.Proofs.Stream.FixedWidth
import WireCodec.Proofs.Tape.Classes
import WireCodec.Proofs.Tape.Dispatch
import WireCodec.Proofs.Stream.Binding
import WireCodec.Proofs.Canonical
import WireCodec.Proofs.Stream.Blobs
import WireCodec.Proofs.Stream.Calls
import WireCodec.Proofs.Stream.Filling
import WireCodec.Proofs.Stream.Interruptions
import WireCodec.Proofs.Stream.Remnants
import WireCodec.Proofs.Tape.Numbers
import WireCodec.Proofs.Tape.Narrowing
import WireCodec.Proofs.Stream.Texts
import WireCodec.Proofs.Stream.Adapters
