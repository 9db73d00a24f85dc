import PacketCodec.Codec
import PacketCodec.Definition.Basic
import PacketCodec.Definition.Grammar
import PacketCodec.Definition.Shape
import PacketCodec.Definition.Table
import PacketCodec.EnumMap.Basic
import PacketCodec.EnumMap.MapText
import PacketCodec.Failure
import PacketCodec.Files.Load
import PacketCodec.Files.Path
import PacketCodec.Files.Tree
import PacketCodec.Frame
import PacketCodec.Frame.Parts
import PacketCodec.Json
import PacketCodec.Layout.Basic
import PacketCodec.Layout.Compile
import PacketCodec.Layout.Decode
import PacketCodec.Layout.Encode
import PacketCodec.LogEntry
import PacketCodec.Number.Binary
import PacketCodec.Number.Double
import PacketCodec.Number.Shortest
import PacketCodec.Proofs.Codec.Conforms
import PacketCodec.Proofs.Codec.Encoding
import PacketCodec.Proofs.Codec.Paths
import PacketCodec.Proofs.Codec.RoundTrip
import PacketCodec.Proofs.Codec.Segments
import PacketCodec.Proofs.Codec.SelfDelimiting
import PacketCodec.Proofs.Codec.Terminated
import PacketCodec.Proofs.Codec.Truncated
import PacketCodec.Proofs.Definition.Draft
import PacketCodec.Proofs.Definition.Grammar
import PacketCodec.Proofs.Definition.History
import PacketCodec.Proofs.Definition.Insertion
import PacketCodec.Proofs.Definition.Listing
import PacketCodec.Proofs.Definition.Loading
import PacketCodec.Proofs.Definition.LookUp
import PacketCodec.Proofs.Definition.Rendering
import PacketCodec.Proofs.Definition.Versions
import PacketCodec.Proofs.Effects
import PacketCodec.Proofs.EnumMap.Directions
import PacketCodec.Proofs.EnumMap.Format
import PacketCodec.Proofs.EnumMap.LastWriters
import PacketCodec.Proofs.EnumMap.MapText
import PacketCodec.Proofs.EnumMap.Paired
import PacketCodec.Proofs.Except
import PacketCodec.Proofs.Failure
import PacketCodec.Proofs.Files.FileName
import PacketCodec.Proofs.Files.Listing
import PacketCodec.Proofs.Files.Tree
import PacketCodec.Proofs.Frame.Format
import PacketCodec.Proofs.Frame.Header
import PacketCodec.Proofs.Inspection
import PacketCodec.Proofs.Layout.Bindings
import PacketCodec.Proofs.Layout.Conforms
import PacketCodec.Proofs.Layout.Format
import PacketCodec.Proofs.Layout.Ledger
import PacketCodec.Proofs.Layout.Locations
import PacketCodec.Proofs.Layout.Measuring
import PacketCodec.Proofs.Layout.Paths
import PacketCodec.Proofs.Layout.Puts
import PacketCodec.Proofs.Layout.Reading
import PacketCodec.Proofs.Layout.Resolves
import PacketCodec.Proofs.Layout.RoundTrip
import PacketCodec.Proofs.Layout.Truncated
import PacketCodec.Proofs.Layout.Unbound
import PacketCodec.Proofs.Layout.WellFormed
import PacketCodec.Proofs.Number.Conversion
import PacketCodec.Proofs.Number.Grid
import PacketCodec.Proofs.Number.Nearest
import PacketCodec.Proofs.Number.Rounding
import PacketCodec.Proofs.Reader
import PacketCodec.Proofs.Registry.Anew
import PacketCodec.Proofs.Registry.Answers
import PacketCodec.Proofs.Registry.Coherent
import PacketCodec.Proofs.Registry.Compiling
import PacketCodec.Proofs.Registry.FrameEnd
import PacketCodec.Proofs.Registry.Frames
import PacketCodec.Proofs.Registry.Labels
import PacketCodec.Proofs.Registry.Loading
import PacketCodec.Proofs.Registry.Resolution
import PacketCodec.Proofs.Registry.Wildcard
import PacketCodec.Proofs.Revision.Grammar
import PacketCodec.Proofs.Text.Blank
import PacketCodec.Proofs.Text.Decimal
import PacketCodec.Proofs.Text.Literal
import PacketCodec.Proofs.Text.Order
import PacketCodec.Proofs.Text.Pattern
import PacketCodec.Proofs.Text.Utf16
import PacketCodec.Proofs.Value.Key
import PacketCodec.Proofs.Value.Keyed
import PacketCodec.Proofs.Value.Order
import PacketCodec.Proofs.Value.Parts
import PacketCodec.Proofs.Value.Showable
import PacketCodec.Proofs.Wire.Accepts
import PacketCodec.Proofs.Wire.Cursors
import PacketCodec.Proofs.Wire.Format
import PacketCodec.Proofs.Wire.Guarded
import PacketCodec.Proofs.Wire.LittleEndian
import PacketCodec.Proofs.Wire.Number
import PacketCodec.Proofs.Wire.Reading
import PacketCodec.Proofs.Wire.Single
import PacketCodec.Proofs.Wire.Truncated
import PacketCodec.Proofs.Wire.Writing
import PacketCodec.Registry.Basic
import PacketCodec.Registry.Build
import PacketCodec.Registry.Identity
import PacketCodec.Registry.Packet
import PacketCodec.Revision.Basic
import PacketCodec.Revision.Fields
import PacketCodec.Settings
import PacketCodec.Sorting
import PacketCodec.Sorting.Merge
import PacketCodec.Sorting.Run
import PacketCodec.Sorting.Search
import PacketCodec.Text.Basic
import PacketCodec.Text.Blank
import PacketCodec.Text.Decimal
import PacketCodec.Text.Digit
import PacketCodec.Text.Literal
import PacketCodec.Text.Numeral
import PacketCodec.Text.Printable
import PacketCodec.Text.Quoted
import PacketCodec.Text.Utf16
import PacketCodec.Text.Utf8
import PacketCodec.Value.Basic
import PacketCodec.Value.Key
import PacketCodec.Value.Order
import PacketCodec.Value.Shown
import PacketCodec.Wire.Cursor
import PacketCodec.Wire.LittleEndian
import PacketCodec.Wire.Misfit
import PacketCodec.Wire.Number
import PacketCodec.Wire.TypeSet
import PacketCodec.Wire.Units
import PacketCodec.Wire.WireType
