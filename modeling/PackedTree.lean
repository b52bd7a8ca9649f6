import PackedTree.Bytes.Reader
import PackedTree.Bytes.Draft
import PackedTree.Bytes.KeyOrder
import PackedTree.Bytes.Mix
import PackedTree.Bytes.Hex
import PackedTree.Text.Blank
import PackedTree.Decimal.Wire
import PackedTree.Decimal.Reading
import PackedTree.Decimal.Display
import PackedTree.Container.Descriptor
import PackedTree.Container.Header
import PackedTree.Container.Child
import PackedTree.Container.Replay
import PackedTree.Container.Lookup
import PackedTree.Hash
import PackedTree.Builder
import PackedTree.Value.Packing
import PackedTree.Json.Parser
import PackedTree.Json.Printer
import PackedTree.Json.Packing
import PackedTree.Main
import PackedTree.Proofs.ContainerWalk
import PackedTree.Proofs.DecimalOrder
import PackedTree.Proofs.KeyedCanonical
import PackedTree.Proofs.TraceShape
import PackedTree.Proofs.EventOrder
import PackedTree.Proofs.TraceOrder
import PackedTree.Proofs.ReplayTrace
import PackedTree.Proofs.ContainerOrder
import PackedTree.Proofs.ContainerHash
import PackedTree.Proofs.LayoutReading
import PackedTree.Proofs.ValueCanonical
import PackedTree.Proofs.PackingMembers
import PackedTree.Proofs.PackingTrace
import PackedTree.Proofs.Rebuilding
import PackedTree.Proofs.ValueOrder
import PackedTree.Proofs.ReplayWalk
import PackedTree.Proofs.ValueStream
import PackedTree.Proofs.BuilderRuns
import PackedTree.Proofs.AccessSafety
import PackedTree.Proofs.NumeralValue
import PackedTree.Proofs.NumeralText
import PackedTree.Proofs.ValidatedBuilding
import PackedTree.Proofs.ValidatedExport
import PackedTree.Proofs.CanonicalPacking
import PackedTree.Proofs.Reencoding
import PackedTree.Proofs.BuilderFeeding
import PackedTree.Proofs.BuilderInvariant
import PackedTree.Proofs.PackedMembers
import PackedTree.Proofs.DecimalReading
import PackedTree.Proofs.DocumentParts
import PackedTree.Proofs.DocumentTelling
import PackedTree.Proofs.DocumentBuilding
import PackedTree.Proofs.PackingSize
import PackedTree.Proofs.DocumentRoundTrip
import PackedTree.Proofs.BuiltValues
import PackedTree.Proofs.MemberForms
import PackedTree.Proofs.KeySearch
import PackedTree.Proofs.NumeralRereading
import PackedTree.Proofs.DocumentReading
import PackedTree.Proofs.DocumentLayout
import PackedTree.Proofs.DocumentText
import PackedTree.Proofs.PackedWeight
import PackedTree.Proofs.DocumentRebuilding
import PackedTree.Proofs.ConversionStable
import PackedTree.Proofs.MemberPieces
import PackedTree.Proofs.OnePassWriting
import PackedTree.Proofs.LayoutInvariant
import PackedTree.Proofs.WrappedScalars
import PackedTree.Proofs.AcceptedValues
import PackedTree.Proofs.ReadingWork
import PackedTree.Proofs.Truncation
import PackedTree.Proofs.BuilderOptions
import PackedTree.Proofs.PairOrder
import PackedTree.Proofs.DecimalBytes
import PackedTree.Proofs.ElementScan
import PackedTree.Proofs.BuilderRefusals
import PackedTree.Proofs.ReplayEnding
import PackedTree.Proofs.KeyedSweep
import PackedTree.Proofs.DraftReading
