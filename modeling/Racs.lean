import Racs.AdjacentWindows
import Racs.Agreement
import Racs.BackgroundFlush
import Racs.Batch
import Racs.Bindings
import Racs.BlockBoundaries
import Racs.Bytes
import Racs.Cache
import Racs.CacheMemory
import Racs.CachedReads
import Racs.Checkpoint
import Racs.Clients
import Racs.Command
import Racs.CommandLines
import Racs.Contents
import Racs.CopyRegions
import Racs.Crc32c
import Racs.CrcInstruction
import Racs.Damage
import Racs.Database
import Racs.EncodeFaults
import Racs.Encoders
import Racs.Exec
import Racs.Fading
import Racs.FileList
import Racs.Flush
import Racs.FormatTimes
import Racs.Foundation.ByteBuffer
import Racs.Foundation.Calendar
import Racs.Foundation.Chain
import Racs.Foundation.Decimal
import Racs.Foundation.Growable
import Racs.Foundation.Lexicographic
import Racs.Foundation.LinkedList
import Racs.Foundation.MessagePack
import Racs.Foundation.PartialRun
import Racs.Foundation.Ramp
import Racs.Foundation.RecentlyUsed
import Racs.Foundation.Regex
import Racs.Foundation.Riff
import Racs.Foundation.RoundedIntegers
import Racs.Foundation.ShiftRegister
import Racs.Foundation.SortedParts
import Racs.Foundation.TickQueue
import Racs.Foundation.WindowedSources
import Racs.Frame
import Racs.FrameConfinement
import Racs.GrowingArrays
import Racs.Hash
import Racs.IntLiterals
import Racs.IntegerArguments
import Racs.InverseOps
import Racs.KvStore
import Racs.KvStoreLifetime
import Racs.KvStoreMemory
import Racs.LexerProgress
import Racs.Memtable
import Racs.MemtableList
import Racs.MemtableStorage
import Racs.Metadata
import Racs.MetadataFiles
import Racs.Mixing
import Racs.OffsetsInit
import Racs.OggEncoding
import Racs.Ops
import Racs.OwnBytes
import Racs.Pack
import Racs.Parser
import Racs.Path
import Racs.Pcm
import Racs.PcmBuffer
import Racs.Pipeline
import Racs.Planner
import Racs.Platform
import Racs.Range
import Racs.RangeComplete
import Racs.RangeOrder
import Racs.RecordNumbers
import Racs.Recovery
import Racs.RejectedFrames
import Racs.ReplayAgain
import Racs.ReplayTimes
import Racs.Replica
import Racs.Replication
import Racs.Run
import Racs.Scm
import Racs.SegPath
import Racs.Server
import Racs.Sessions
import Racs.Shutdown
import Racs.Sstable
import Racs.StageResults
import Racs.Stages
import Racs.Stream
import Racs.StreamTimes
import Racs.TimeIndex
import Racs.TimeLiterals
import Racs.TimeTexts
import Racs.Unescape
import Racs.Visibility
import Racs.Wal.Confinement
import Racs.Wal.Entry
import Racs.Wal.FaithfulLog
import Racs.Wal.Files
import Racs.Wal.Layout
import Racs.Wal.Log
import Racs.Wal.ReplayLoop
import Racs.Wal.SequenceNumbers
import Racs.Wal.TornWrite
import Racs.Wal.Truncation
import Racs.WalReplay
import Racs.Wav
import Racs.WholeFrames
