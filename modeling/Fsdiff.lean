import Fsdiff.Data.Bytes
import Fsdiff.Data.Exec
import Fsdiff.Data.Varint
import Fsdiff.Data.Bitmap
import Fsdiff.Data.Worklist
import Fsdiff.Data.LeastByKey
import Fsdiff.Data.FirstMax
import Fsdiff.Data.Stdio
import Fsdiff.Data.Crc
import Fsdiff.Types
import Fsdiff.Encoding.BkdfHeader
import Fsdiff.Format.Operation
import Fsdiff.Patch.Decoder
import Fsdiff.Patch.Faults
import Fsdiff.Patch.Offsets
import Fsdiff.Patch.Safety
import Fsdiff.Patch.Grammar
import Fsdiff.Patch.Fields
import Fsdiff.Patch.Varints
import Fsdiff.Patch.Diffs
import Fsdiff.Patch.Blocks
import Fsdiff.Patch.Refinement
import Fsdiff.Core.BlockTracker
import Fsdiff.Core.BlockStatistics
import Fsdiff.Core.Crc32
import Fsdiff.Core.HashTable
import Fsdiff.Simd.Kernels
import Fsdiff.Encoding.OperationEncoder
import Fsdiff.Encoding.Emission
import Fsdiff.Encoding.RunLength
import Fsdiff.Encoding.Statistics
import Fsdiff.Encoding.DiffData
import Fsdiff.Encoding.Codec
import Fsdiff.Fs.ExtReader
import Fsdiff.Fs.ReadSafety
import Fsdiff.Fs.Walk
import Fsdiff.Fs.DirectoryTree
import Fsdiff.Fs.Stopping
import Fsdiff.Stages.Context
import Fsdiff.Stages.Records
import Fsdiff.Stages.Identity
import Fsdiff.Stages.Relocation
import Fsdiff.Stages.Completeness
import Fsdiff.Stages.BlockSearch
import Fsdiff.Stages.SearchBest
import Fsdiff.Stages.Fsmap
import Fsdiff.Stages.Hypotheses
import Fsdiff.Stages.PartialMatch
import Fsdiff.Stages.Controller
import Fsdiff.Diff
import Fsdiff.Io.BufferedWriter
import Fsdiff.Io.WriterRuns
import Fsdiff.Io.DiffFiles
import Fsdiff.Io.PatchFiles
import Fsdiff.Io.Path
import Fsdiff.Stages.Verification
import Fsdiff.Fs.Coalescing
import Fsdiff.Fs.ExtentTree
import Fsdiff.Fs.BlockMap
import Fsdiff.Core.MemoryPool
import Fsdiff.Core.PoolRuns
import Fsdiff.Core.PoolChunks
import Fsdiff.Data.Pread
import Fsdiff.Io.SourceReader
import Fsdiff.Data.Polling
import Fsdiff.Stages.Cancellation
import Fsdiff.Io.Session
import Fsdiff.Io.Backends
import Fsdiff.Patch.SparseRuns
import Fsdiff.Encoding.DiffBuffer
import Fsdiff.Data.Lanes
import Fsdiff.Simd.Vectors
import Fsdiff.Stages.Dispatch
import Fsdiff.Fs.ReportOrder
import Fsdiff.Core.DispatchTable
import Fsdiff.Patch.Extension
import Fsdiff.Stages.Classification
import Fsdiff.Stages.PartialCompleteness
import Fsdiff.DiffSize
import Fsdiff.Fs.Resolution
import Fsdiff.Patch.Denotation
import Fsdiff.Cli.Create
import Fsdiff.Data.Ownership
import Fsdiff.Io.Lifetimes
import Fsdiff.Io.Teardown
import Fsdiff.Data.Along
import Fsdiff.Data.Csv
import Fsdiff.MatchLog
import Fsdiff.Stages.Progress
import Fsdiff.DiffStatistics
import Fsdiff.Cli.Commands
