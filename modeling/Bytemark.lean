import Bytemark.Bytes.BigEndian
import Bytemark.Bytes.BigEndian.Lemmas
import Bytemark.Bytes.Input
import Bytemark.Bytes.Output
import Bytemark.Codec.Atom
import Bytemark.Codec.Basic
import Bytemark.Codec.Builtin
import Bytemark.Error
import Bytemark.Field.Binding
import Bytemark.Field.Lending
import Bytemark.Field.Type
import Bytemark.Marker
import Bytemark.MarkerRange
import Bytemark.Proofs.Coding.Atoms
import Bytemark.Proofs.Coding.Codecs
import Bytemark.Proofs.Coding.Decoding
import Bytemark.Proofs.Coding.Discipline
import Bytemark.Proofs.Coding.Packing
import Bytemark.Proofs.Coding.Sizes
import Bytemark.Proofs.Coding.Texts
import Bytemark.Proofs.Coding.Widths
import Bytemark.Proofs.Comparing.Typed
import Bytemark.Proofs.Comparing.Upholding
import Bytemark.Proofs.Reading.Alike
import Bytemark.Proofs.Reading.Composition
import Bytemark.Proofs.Reading.Delimited
import Bytemark.Proofs.Reading.Depth
import Bytemark.Proofs.Reading.Failures
import Bytemark.Proofs.Reading.Owned
import Bytemark.Proofs.Reading.Progress
import Bytemark.Proofs.Reading.Splitting
import Bytemark.Proofs.Reading.Tidy
import Bytemark.Proofs.Record.Bindings
import Bytemark.Proofs.Record.Building
import Bytemark.Proofs.Record.Fields
import Bytemark.Proofs.Record.Pairing
import Bytemark.Proofs.Registry.Answers
import Bytemark.Proofs.Registry.Consistency
import Bytemark.Proofs.Registry.Growth
import Bytemark.Proofs.Registry.History
import Bytemark.Proofs.Registry.Order
import Bytemark.Proofs.Registry.Soundness
import Bytemark.Proofs.Registry.Standard
import Bytemark.Proofs.Registry.Twins
import Bytemark.Proofs.RoundTrip.Back
import Bytemark.Proofs.RoundTrip.Canonical
import Bytemark.Proofs.RoundTrip.Collections
import Bytemark.Proofs.RoundTrip.Entries
import Bytemark.Proofs.RoundTrip.Exhaustion
import Bytemark.Proofs.RoundTrip.Expressions
import Bytemark.Proofs.RoundTrip.Law
import Bytemark.Proofs.RoundTrip.Values
import Bytemark.Proofs.Stream.Atomic
import Bytemark.Proofs.Stream.Iteration
import Bytemark.Proofs.Stream.Law
import Bytemark.Proofs.Value.Equivalence
import Bytemark.Proofs.Value.Likeness
import Bytemark.Proofs.Value.Matching
import Bytemark.Proofs.Value.Occurrences
import Bytemark.Proofs.Value.Repetition
import Bytemark.Proofs.Value.Slotwise
import Bytemark.Proofs.Writing.Appending
import Bytemark.Proofs.Writing.Domain
import Bytemark.Proofs.Writing.Encoding
import Bytemark.Proofs.Writing.Parts
import Bytemark.Record.Layout
import Bytemark.Record.Plan
import Bytemark.Registry.Basic
import Bytemark.Registry.Declared
import Bytemark.Registry.Encode
import Bytemark.Registry.Read
import Bytemark.Registry.Standard
import Bytemark.Registry.Write
import Bytemark.Settings
import Bytemark.Size
import Bytemark.Stream.Deserializer
import Bytemark.Stream.Serializer
import Bytemark.Text.Json
import Bytemark.Text.Utf8
import Bytemark.Text.Utf8.Lemmas
import Bytemark.Text.Utf8.Order
import Bytemark.Value.Basic
import Bytemark.Value.Equality
import Bytemark.Value.Slotwise
import Bytemark.ValueType
