import RocksdbJs.Lib.Runs
import RocksdbJs.Lib.SortedVec
import RocksdbJs.Lib.SeqMap
import RocksdbJs.Lib.BigEndian
import RocksdbJs.Lib.Binary64
import RocksdbJs.Spec.LogFormat
import RocksdbJs.Spec.LogRecovery
import RocksdbJs.Spec.LogFile
import RocksdbJs.Spec.LogStore
import RocksdbJs.Spec.LogWriter
import RocksdbJs.Spec.System
import RocksdbJs.Spec.Lifecycle
import RocksdbJs.Spec.Transactions
import RocksdbJs.Spec.RetryLoop
import RocksdbJs.Spec.LogParse
import RocksdbJs.Spec.LogReader
import RocksdbJs.Spec.VerificationTable
import RocksdbJs.Spec.TableAccess
import RocksdbJs.Sanity.Frames
import RocksdbJs.Sanity.Append
import RocksdbJs.Sanity.Files
import RocksdbJs.Sanity.Writer
import RocksdbJs.Sanity.Load
import RocksdbJs.Sanity.System
import RocksdbJs.Sanity.Batch
import RocksdbJs.Sanity.BatchRun
import RocksdbJs.Sanity.Lifecycle
import RocksdbJs.Sanity.Recovery
import RocksdbJs.Sanity.Numbers
import RocksdbJs.Sanity.Index
import RocksdbJs.Sanity.Stamped
import RocksdbJs.Sanity.Readers
import RocksdbJs.Sanity.Positions
import RocksdbJs.Sanity.Sessions
import RocksdbJs.Sanity.BatchEnd
import RocksdbJs.Sanity.Walkers
import RocksdbJs.Sanity.Reader
import RocksdbJs.Sanity.TableSlots
import RocksdbJs.Sanity.TableMoves
import RocksdbJs.Sanity.TableTurns
import RocksdbJs.Sanity.TableSnapshots
import RocksdbJs.Sanity.TableIntents
import RocksdbJs.Sanity.TableData
import RocksdbJs.Sanity.TableSound
import RocksdbJs.Sanity.TableViews
import RocksdbJs.Sanity.TableAnswers
import RocksdbJs.Proofs.AppendAtomicity
import RocksdbJs.Proofs.Watermark
import RocksdbJs.Proofs.ReplaySafety
import RocksdbJs.Proofs.BatchAppend
import RocksdbJs.Proofs.BatchLimits
import RocksdbJs.Proofs.PurgeSafety
import RocksdbJs.Proofs.FreshNumbers
import RocksdbJs.Proofs.TimestampLookup
import RocksdbJs.Proofs.WatermarkOrder
import RocksdbJs.Proofs.FlushOrder
import RocksdbJs.Proofs.CommitRetry
import RocksdbJs.Proofs.PendingCount
import RocksdbJs.Proofs.CloseSafety
import RocksdbJs.Proofs.LoggedOnce
import RocksdbJs.Proofs.WalkersAgree
import RocksdbJs.Proofs.PublishedLatest
import RocksdbJs.Proofs.SharedSlots
import RocksdbJs.Proofs.FreshAnswers
import RocksdbJs.Spec.Locks
import RocksdbJs.Sanity.LockTokens
import RocksdbJs.Proofs.LockExclusion
import RocksdbJs.Proofs.LockOrder
import RocksdbJs.Spec.LockTrackers
import RocksdbJs.Sanity.TrackerCounts
import RocksdbJs.Proofs.TrackerLifecycle
import RocksdbJs.Spec.TransactionCalls
import RocksdbJs.Proofs.TransactionOutcome
import RocksdbJs.Spec.Registry
import RocksdbJs.Proofs.ReopenSafety
import RocksdbJs.Lib.OrderedTable
import RocksdbJs.Spec.TransactionReads
import RocksdbJs.Proofs.SnapshotReads
import RocksdbJs.Spec.CreateBackup
import RocksdbJs.Proofs.BackupAtomicity
import RocksdbJs.Spec.Backup
import RocksdbJs.Sanity.Backup
import RocksdbJs.Proofs.BackupLinks
import RocksdbJs.Proofs.BackupComplete
import RocksdbJs.Sanity.Placement
import RocksdbJs.Proofs.BackupConsistent
import RocksdbJs.Spec.Querying
import RocksdbJs.Sanity.Iterators
import RocksdbJs.Proofs.ReaderSoundness
import RocksdbJs.Proofs.RecoveryScan
import RocksdbJs.Proofs.FlushSamples
import RocksdbJs.Proofs.IndexBounds
import RocksdbJs.Proofs.AppendOffset
import RocksdbJs.Proofs.WriteSizes
import RocksdbJs.Proofs.BatchTermination
import RocksdbJs.Proofs.SlotHistory
import RocksdbJs.Spec.WakeCallbacks
import RocksdbJs.Proofs.WakeUps
import RocksdbJs.Spec.StoreRegistry
import RocksdbJs.Proofs.DestroySafety
import RocksdbJs.Lib.ByteBlock
import RocksdbJs.Lib.Utf8
import RocksdbJs.Spec.Tar
import RocksdbJs.Sanity.TarHeader
import RocksdbJs.Proofs.TarRoundTrip
import RocksdbJs.Spec.FreshChecks
import RocksdbJs.Proofs.FreshVersions
import RocksdbJs.Proofs.TarNames
import RocksdbJs.Spec.WriteBatch
import RocksdbJs.Proofs.WriteBatchExact
import RocksdbJs.Spec.EventEmitter
import RocksdbJs.Sanity.Listeners
import RocksdbJs.Proofs.ListenerGate
import RocksdbJs.Spec.SharedBuffers
import RocksdbJs.Proofs.SharedWhileAlive
import RocksdbJs.Lib.LengthPrefixed
import RocksdbJs.Spec.PutMany
import RocksdbJs.Sanity.EntryBuffers
import RocksdbJs.Proofs.PutManyAsLoop
import RocksdbJs.Spec.StoreGets
import RocksdbJs.Proofs.CachedReads
import RocksdbJs.Spec.StoreRanges
import RocksdbJs.Sanity.RangeBounds
import RocksdbJs.Proofs.RangeLaw
import RocksdbJs.Proofs.CountsIterate
import RocksdbJs.Proofs.NumericKeys
import RocksdbJs.Spec.BackupStream
import RocksdbJs.Spec.StreamHandshake
import RocksdbJs.Proofs.StreamSafety
import RocksdbJs.Proofs.StreamedArchive
import RocksdbJs.Proofs.TailingReaders
import RocksdbJs.Proofs.OneWriter
import RocksdbJs.Proofs.SnapshotsMatch
import RocksdbJs.Proofs.ReaderExactness
import RocksdbJs.Proofs.CrashRecovery
