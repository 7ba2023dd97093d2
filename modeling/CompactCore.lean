import CompactCore.Checked.Bits
import CompactCore.Checked.Codecs
import CompactCore.Checked.ColumnBlock
import CompactCore.Checked.Primitives
import CompactCore.Checked.Search
import CompactCore.Checked.Streaming
import CompactCore.Checked.V3
import CompactCore.Checked.V4
import CompactCore.Cli.Arguments
import CompactCore.Cli.AtomicWrite
import CompactCore.Cli.Commands
import CompactCore.Cli.Create
import CompactCore.Cli.Log
import CompactCore.Cli.Search
import CompactCore.Codecs
import CompactCore.Codecs.Dictionary
import CompactCore.Codecs.Strings
import CompactCore.Codecs.V3.Boolean
import CompactCore.Codecs.V3.Nullable
import CompactCore.Codecs.V3.Numeric
import CompactCore.Codecs.V3.String
import CompactCore.Core
import CompactCore.Ffi.Buffer
import CompactCore.Format.V3
import CompactCore.Format.V4
import CompactCore.Format.V4.Footer
import CompactCore.Framing
import CompactCore.Integrity
import CompactCore.Io.ColumnBlock
import CompactCore.Io.Decoded
import CompactCore.Io.RoundTrip
import CompactCore.Io.Rows
import CompactCore.Io.V3
import CompactCore.Io.V3.Encodable
import CompactCore.Io.V3.Inspect
import CompactCore.Io.V3.RoundTrip
import CompactCore.Io.V3.Selection
import CompactCore.Io.V4.File
import CompactCore.Io.V4.Rebuild
import CompactCore.Io.V4.Recovery
import CompactCore.Io.V4.RoundTrip
import CompactCore.Io.V4.RowGroup
import CompactCore.Io.V4.Scan
import CompactCore.Io.V4.Tail
import CompactCore.Io.V4.Validate
import CompactCore.Parallel.AsyncDecode
import CompactCore.Parallel.Collect
import CompactCore.Parallel.Decode
import CompactCore.Parallel.Encode
import CompactCore.Parallel.Failure
import CompactCore.Primitives.Bitmap
import CompactCore.Primitives.Bitpack
import CompactCore.Primitives.Delta
import CompactCore.Primitives.Rle
import CompactCore.Primitives.Signed
import CompactCore.Primitives.Varint
import CompactCore.Reference
import CompactCore.Reference.Json
import CompactCore.Schema
import CompactCore.Schema.Evolution
import CompactCore.Schema.Metadata
import CompactCore.Schema.Reading
import CompactCore.Schema.Upgrade
import CompactCore.Search.Dictionary
import CompactCore.Search.Postings
import CompactCore.Search.Query
import CompactCore.Search.Sections
import CompactCore.Search.Seek
import CompactCore.Statistics
import CompactCore.Storage
import CompactCore.Storage.Acceptance
import CompactCore.Storage.Conversion
import CompactCore.Storage.Migration
import CompactCore.Storage.Recovery
import CompactCore.Storage.Repair
import CompactCore.Streaming.Append
import CompactCore.Streaming.Block
import CompactCore.Streaming.Calls
import CompactCore.Streaming.Inspect
import CompactCore.Streaming.Lines
import CompactCore.Streaming.Reader
import CompactCore.Streaming.Recovery
import CompactCore.Streaming.Replay
import CompactCore.Streaming.Rolling
import CompactCore.Streaming.RoundTrip
import CompactCore.Streaming.RowGroup
import CompactCore.Streaming.Scan
import CompactCore.Streaming.Segments
import CompactCore.Streaming.Snapshot
import CompactCore.Streaming.Writer
import CompactCore.Text
import CompactCore.Wire.Bits
import CompactCore.Wire.Bytes
import CompactCore.Wire.Checked
import CompactCore.Wire.Concurrent
import CompactCore.Wire.Crc
import CompactCore.Wire.Files
import CompactCore.Wire.Greedy
import CompactCore.Wire.Log
import CompactCore.Wire.Loop
import CompactCore.Wire.Method
import CompactCore.Wire.Pool
import CompactCore.Wire.Process
import CompactCore.Wire.Raises
import CompactCore.Wire.Reader
import CompactCore.Wire.Scan
import CompactCore.Wire.Search
import CompactCore.Wire.Select
import CompactCore.Wire.Tiling
import CompactCore.Wire.Yaml
