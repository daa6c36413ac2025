import Granule.Bits
import Granule.Bytes
import Granule.Codec
import Granule.Codec.BitStream
import Granule.Codec.Brotli
import Granule.Codec.Brotli.Codes
import Granule.Codec.Brotli.Context
import Granule.Codec.Filter
import Granule.Codec.Input
import Granule.Codec.Lz4
import Granule.Codec.Lzma
import Granule.Codec.Lzma.RangeCoder
import Granule.Codec.Output
import Granule.Codec.PrefixCode
import Granule.Codec.Zstd.Block
import Granule.Codec.Zstd.Frame
import Granule.Codec.Zstd.Fse
import Granule.Codec.Zstd.Huffman
import Granule.Digest.Blake3
import Granule.Digest.Crc32
import Granule.Digest.XxHash64
import Granule.Frame.Format
import Granule.Frame.Grib1
import Granule.Frame.Grib1.DataHeader
import Granule.Frame.Grib1.LargeMessage
import Granule.Frame.Grib1.Sections
import Granule.Frame.Tagged
import Granule.Grid.Assembly
import Granule.Grid.Chunk
import Granule.Grid.Error
import Granule.Grid.Plan
import Granule.Grid.Segment
import Granule.Grid.Selection
import Granule.Grid.Shape
import Granule.Grid.Storage
import Granule.Grid.Transfer
import Granule.Intern
import Granule.Json.Document
import Granule.Json.Library
import Granule.Json.Token
import Granule.Proofs.Bits
import Granule.Proofs.Bytes
import Granule.Proofs.Frame.DataHeader
import Granule.Proofs.Frame.Forward
import Granule.Proofs.Frame.Grammar
import Granule.Proofs.Frame.Grib1
import Granule.Proofs.Frame.ImpliedEnd
import Granule.Proofs.Frame.LargeMessage
import Granule.Proofs.Frame.Payload
import Granule.Proofs.Frame.Reassembly
import Granule.Proofs.Frame.Relay
import Granule.Proofs.Frame.Tagged
import Granule.Proofs.Frame.View
import Granule.Proofs.Frame.WrongLength
import Granule.Proofs.Grid.Adjacency
import Granule.Proofs.Grid.Agreement
import Granule.Proofs.Grid.Alike
import Granule.Proofs.Grid.AnySupplier
import Granule.Proofs.Grid.Assemblies
import Granule.Proofs.Grid.Assembly
import Granule.Proofs.Grid.FixedStorage
import Granule.Proofs.Grid.Gather
import Granule.Proofs.Grid.Order
import Granule.Proofs.Grid.Pulls
import Granule.Proofs.Grid.Queue
import Granule.Proofs.Grid.QueueSearch
import Granule.Proofs.Grid.Reckoning
import Granule.Proofs.Grid.SafeAssembly
import Granule.Proofs.Grid.Scatter
import Granule.Proofs.Grid.Sequence
import Granule.Proofs.Grid.ShortStorage
import Granule.Proofs.Grid.Storage
import Granule.Proofs.Grid.Transfers
import Granule.Proofs.Grid.TypedRead
import Granule.Proofs.Grid.Walk
import Granule.Proofs.Grid.Words
import Granule.Proofs.Intern
import Granule.Proofs.Intern.History
import Granule.Proofs.Json.Grammar
import Granule.Proofs.Json.Library
import Granule.Proofs.Json.Reading
import Granule.Proofs.Scan.Coverage
import Granule.Proofs.Scan.Damage
import Granule.Proofs.Scan.Emission
import Granule.Proofs.Scan.Failure
import Granule.Proofs.Scan.FirstLook
import Granule.Proofs.Scan.History
import Granule.Proofs.Scan.Interning
import Granule.Proofs.Scan.Peeking
import Granule.Proofs.Scan.PlainRun
import Granule.Proofs.Scan.PlainScan
import Granule.Proofs.Scan.Reading
import Granule.Proofs.Scan.Refinement
import Granule.Proofs.Scan.Rest
import Granule.Proofs.Scan.Retry
import Granule.Proofs.Scan.Run
import Granule.Proofs.Scan.SettingsJson
import Granule.Proofs.Scan.Soundness
import Granule.Proofs.Scan.Stream
import Granule.Proofs.Scan.Termination
import Granule.Proofs.Scan.Words
import Granule.Proofs.Source.Reads
import Granule.Proofs.Source.Search
import Granule.Proofs.Source.Steady
import Granule.Proofs.Tile.Damage
import Granule.Proofs.Tile.Header
import Granule.Proofs.Tile.HeaderCodec
import Granule.Proofs.Tile.Progress
import Granule.Proofs.Tile.Requests
import Granule.Proofs.Tile.Walk
import Granule.Scan.FirstLook
import Granule.Scan.Framing
import Granule.Scan.Json
import Granule.Scan.Record
import Granule.Scan.Scanner
import Granule.Scan.Search
import Granule.Scan.Settings
import Granule.Source
import Granule.Text.Lossy
import Granule.Tile.Header
import Granule.Tile.Walk
import Granule.Words.Assembly
import Granule.Words.Plan
import Granule.Words.Reckoning
import Granule.Words.Scan
import Granule.Words.Transfer
import Granule.Words.Walk
