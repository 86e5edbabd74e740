import RocksdbJs.Spec.LogRecovery

/-! `TransactionLogFile` on POSIX (`transaction_log_file.cpp`,
`transaction_log_file_posix.cpp`). A file's bytes live on the disk; the object
holds what the process believes about them. Each system call takes its result
from an explicit argument, so a proof ranges over every pattern of failures. -/

namespace RocksdbJs

structure TransactionLogFile where
  sequenceNumber : ℕ
  /-- `fd != -1`. -/
  isOpen : Bool := false
  version : UInt8 := 1
  timestamp : Binary64 := Binary64.zero
  size : ℕ := 0
  fileLastWriteTime : ℤ := 0
  /-- A `std::map`: ascending keys, a later key only ever added at the end. -/
  positionByTimestampIndex : List (Binary64 × ℕ) := []
  lastIndexedPosition : ℕ := TRANSACTION_LOG_FILE_TIMESTAMP_POSITION
  hasAppendedSinceOpen : Bool := false
deriving DecidableEq

inductive DBException
  | storeClosed
  | failedToOpen
  | failedToStat
  | fileTooSmall
  | failedToRead
  | invalidToken
  | unsupportedVersion (version : UInt8)
  | failedToWrite
deriving DecidableEq, Repr

/-- What the system calls of one `open` return. -/
structure OpenCalls where
  opened : Bool := true
  statted : Bool := true
  readable : Bool := true
  /-- The bytes the three writes of a fresh header put into the file. -/
  headerWrites : ℕ × ℕ × ℕ := (4, 1, 8)
  /-- The modification time, if it can be read. -/
  mtime : Option ℤ := none
  now : ℤ := 0
deriving DecidableEq

/-- Every call of the open succeeds and every header byte lands. -/
def OpenCalls.Succeeds (io : OpenCalls) : Prop :=
  io.opened = true ∧ io.statted = true ∧ io.readable = true ∧ io.headerWrites = (4, 1, 8)

instance OpenCalls.decidableSucceeds (io : OpenCalls) : Decidable io.Succeeds :=
  inferInstanceAs (Decidable (_ ∧ _ ∧ _ ∧ _))

namespace TransactionLogFile

def openFile (f : TransactionLogFile) (disk : Option Bytes) (io : OpenCalls) :
    Option DBException × TransactionLogFile × Option Bytes :=
  if f.isOpen then (none, f, disk)
  else
    let f := { f with hasAppendedSinceOpen := false }
    if !io.opened then (some .failedToOpen, f, disk)
    else
      -- `O_CREAT`
      let bytes := disk.getD []
      let f := { f with isOpen := true }
      if !io.statted then (some .failedToStat, f, some bytes)
      else (none, { f with size := bytes.length % UINT32_RANGE }, some bytes)

/-- The bytes that the three header writes of `open` leave, none of whose results is looked at. -/
def headerBytes (version : UInt8) (timestamp : Binary64) (n : ℕ × ℕ × ℕ) : Bytes :=
  (writeUint32BE TRANSACTION_LOG_TOKEN).take n.1 ++ [version].take n.2.1 ++ (writeDoubleBE timestamp).take n.2.2

/-- The part of `open` after `openFile`: initialise an empty file, check any other. -/
def readHeader (f : TransactionLogFile) (bytes : Bytes) (latestTimestamp : Binary64) (io : OpenCalls) :
    Option DBException × TransactionLogFile × Bytes :=
  let f := { f with fileLastWriteTime := if f.size = 0 then io.now else io.mtime.getD io.now }
  if f.size = 0 then
    (none, { f with timestamp := latestTimestamp, size := TRANSACTION_LOG_FILE_HEADER_SIZE },
      bytes ++ headerBytes f.version latestTimestamp io.headerWrites)
  else if f.size < TRANSACTION_LOG_FILE_HEADER_SIZE then (some .fileTooSmall, f, bytes)
  else if !io.readable then (some .failedToRead, f, bytes)
  else if readUint32BE bytes 0 ≠ TRANSACTION_LOG_TOKEN then (some .invalidToken, f, bytes)
  else
    let f := { f with version := readUint8 bytes 4 }
    if f.version ≠ 1 then (some (.unsupportedVersion f.version), f, bytes)
    else (none, { f with timestamp := readDoubleBE bytes TRANSACTION_LOG_FILE_TIMESTAMP_POSITION }, bytes)

/-- `open`: the exception it throws, if any, with the object and the file it leaves. -/
def «open» (f : TransactionLogFile) (disk : Option Bytes) (latestTimestamp : Binary64) (io : OpenCalls) :
    Option DBException × TransactionLogFile × Option Bytes :=
  match f.openFile disk io with
  | (some e, f, disk) => (some e, f, disk)
  | (none, f, disk) =>
    let r := f.readHeader (disk.getD []) latestTimestamp io
    (r.1, r.2.1, some r.2.2)

end TransactionLogFile

/-- What one `writev` call returns. A count above what was offered stands for all of it. -/
inductive WritevResult
  | error
  | eintr
  | count (n : ℕ)
deriving DecidableEq, Repr

/-- Linux's limit on the buffers of one `writev`. -/
def IOV_MAX : ℕ := 1024

/-- The inner loop of `writeBatchToFile`: skip the buffers written whole and cut the
one written in part. -/
def advanceIovecs : ℕ → List Bytes → List Bytes
  | _, [] => []
  | remainingBytes, iov :: iovecs =>
    if remainingBytes = 0 then iov :: iovecs
    else if iov.length ≤ remainingBytes then advanceIovecs (remainingBytes - iov.length) iovecs
    else iov.drop remainingBytes :: iovecs

/-- `blocked` means that the listed results ran out with buffers still to write. -/
inductive WriteOutcome
  | written (total : ℕ)
  | failed
  | blocked
deriving DecidableEq, Repr

/-- `writeBatchToFile`: the bytes it appends and what it returns. -/
def writeBatchToFile : List WritevResult → List Bytes → ℕ → Bytes × WriteOutcome
  | [], iovecs, totalWritten => ([], if iovecs.isEmpty then .written totalWritten else .blocked)
  | r :: rs, iovecs, totalWritten =>
    if iovecs.isEmpty then ([], .written totalWritten)
    else match r with
      | .eintr => writeBatchToFile rs iovecs totalWritten
      | .error => ([], .failed)
      | .count n =>
        let offered := (iovecs.take IOV_MAX).flatten
        let written := min n offered.length
        if written = 0 then ([], .failed)
        else
          let rest := writeBatchToFile rs (advanceIovecs written iovecs) (totalWritten + written)
          (offered.take written ++ rest.1, rest.2)

/-- The fit loop of `writeEntriesV1`; `first` holds at the batch's current entry only,
which a file without entries always takes. -/
def countFitting (size availableSpace : ℕ) : ℕ → Bool → List TransactionLogEntry → ℕ
  | _, _, [] => 0
  | totalSizeToWrite, first, e :: es =>
    let spaceNeeded := add32 totalSizeToWrite e.size
    if (TRANSACTION_LOG_FILE_HEADER_SIZE < size ∨ !first) ∧ availableSpace < spaceNeeded then 0
    else countFitting size availableSpace (add32 totalSizeToWrite e.size) false es + 1

namespace TransactionLogFile

def numEntriesToWrite (f : TransactionLogFile) (batch : TransactionLogEntryBatch) (maxFileSize : ℕ) : ℕ :=
  if 0 < maxFileSize then
    if maxFileSize ≤ f.size then 0
    else countFitting f.size (maxFileSize - f.size) 0 true batch.pending
  else batch.entries.length - batch.currentEntryIndex

/-- How a call of `writeEntries` ended, with everything it can have changed. -/
structure WriteEntriesResult where
  outcome : WriteOutcome
  error : Option DBException
  file : TransactionLogFile
  bytes : Bytes
  batch : TransactionLogEntryBatch

/-- `writeEntriesV1`. The batch's cursor moves before the write and stays moved when it fails. -/
def writeEntriesV1 (f : TransactionLogFile) (bytes : Bytes) (batch : TransactionLogEntryBatch)
    (maxFileSize : ℕ) (results : List WritevResult) : WriteEntriesResult :=
  let n := f.numEntriesToWrite batch maxFileSize
  if n = 0 then ⟨.written 0, none, f, bytes, batch⟩
  else
    let w := writeBatchToFile results ((batch.nextRecords n).map LogRecord.frame) 0
    let batch := { batch with currentEntryIndex := batch.currentEntryIndex + n }
    match w.2 with
    | .written total => ⟨w.2, none, { f with size := add32 f.size total }, bytes ++ w.1, batch⟩
    | .failed => ⟨w.2, some .failedToWrite, f, bytes ++ w.1, batch⟩
    | .blocked => ⟨w.2, none, f, bytes ++ w.1, batch⟩

def writeEntries (f : TransactionLogFile) (bytes : Bytes) (batch : TransactionLogEntryBatch)
    (maxFileSize : ℕ) (results : List WritevResult) : WriteEntriesResult :=
  let f := { f with hasAppendedSinceOpen := true }
  if f.version = 1 then f.writeEntriesV1 bytes batch maxFileSize results
  else ⟨.written 0, some (.unsupportedVersion f.version), f, bytes, batch⟩

/-- What the system calls of `recoverTail` return. -/
structure RecoverCalls where
  readable : Bool := true
  truncated : Bool := true
deriving DecidableEq

def recoverTail (f : TransactionLogFile) (bytes : Bytes) (io : RecoverCalls) : TransactionLogFile × Bytes :=
  if f.version ≠ 1 then (f, bytes)
  else if f.size ≤ TRANSACTION_LOG_FILE_HEADER_SIZE then (f, bytes)
  else if !io.readable ∨ (bytes.take f.size).length ≠ f.size then (f, bytes)
  else
    let scan := scanTransactionLogForRecovery (bytes.take f.size) f.size
    match scan.kind with
    | .clean => (f, bytes)
    | .midFileCorruption => (f, bytes)
    | .truncateTail =>
      if f.size ≤ scan.validEnd then (f, bytes)
      else if io.truncated then ({ f with size := scan.validEnd }, bytes.take scan.validEnd)
      else (f, bytes)

end TransactionLogFile

/-- A mapping of `mapSize` bytes: the file's bytes, then zeros. -/
def mapView (bytes : Bytes) (mapSize : ℕ) : Bytes :=
  bytes.take mapSize ++ List.replicate (mapSize - bytes.length) 0

/-- `getMemoryMapLocked`: the length of the mapping it returns, if any. -/
def getMemoryMapLocked (fileSize : ℕ) (mmapOk : Bool) : Option ℕ :=
  if fileSize = 0 then none else if mmapOk then some fileSize else none

/-- What `findPositionByTimestamp` comes to: a position, a read outside the mapping, or
an index walk still going after more steps than the file has bytes. -/
inductive FindOutcome
  | position (p : ℕ)
  | outOfBounds
  | spinning
deriving DecidableEq, Repr

/-- Past every entry of the file. -/
def NOT_IN_FILE : ℕ := 0xFFFFFFFF

namespace TransactionLogFile

/-- The indexing loop; the flag is `stoppedAtUnindexedTail`. -/
def indexLoop (map : Bytes) : ℕ → TransactionLogFile → Except FindOutcome (TransactionLogFile × Bool)
  | 0, _ => .error .spinning
  | fuel + 1, f =>
    let pos := f.lastIndexedPosition
    if f.size ≤ pos then .ok (f, false)
    else if map.length < pos + 8 then .error .outOfBounds
    else
      let entryTimestamp := readDoubleBE map pos
      if entryTimestamp.isZero then
        if !f.hasAppendedSinceOpen then .ok ({ f with size := pos }, false) else .ok (f, true)
      else if pos = TRANSACTION_LOG_FILE_TIMESTAMP_POSITION then
        indexLoop map fuel { f with
          positionByTimestampIndex := [(entryTimestamp, 0)]
          lastIndexedPosition := TRANSACTION_LOG_FILE_HEADER_SIZE }
      else if map.length < pos + 12 then .error .outOfBounds
      else
        let index := match f.positionByTimestampIndex.getLast? with
          | some last =>
            if Binary64.lt last.1 entryTimestamp then f.positionByTimestampIndex ++ [(entryTimestamp, pos)]
            else f.positionByTimestampIndex
          | none => f.positionByTimestampIndex
        indexLoop map fuel { f with
          positionByTimestampIndex := index
          lastIndexedPosition := add32 pos (add32 TRANSACTION_LOG_ENTRY_HEADER_SIZE (readUint32BE map (pos + 8))) }

/-- `lower_bound`: the position of the first key that is not below `timestamp`. -/
def lowerBound (index : List (Binary64 × ℕ)) (timestamp : Binary64) : Option ℕ :=
  (index.find? fun e => !Binary64.lt e.1 timestamp).map Prod.snd

/-- `findPositionByTimestamp` over a mapping of `mapSize` bytes of the file. -/
def findPositionByTimestamp (f : TransactionLogFile) (bytes : Bytes) (timestamp : Binary64)
    (mapSize : ℕ) (mmapOk : Bool) : TransactionLogFile × FindOutcome :=
  match getMemoryMapLocked mapSize mmapOk with
  | none => (f, .position NOT_IN_FILE)
  | some length =>
    match indexLoop (mapView bytes length) (f.size + 2) f with
    | .error e => (f, e)
    | .ok (f, stoppedAtUnindexedTail) =>
      match lowerBound f.positionByTimestampIndex timestamp with
      | some p => (f, .position p)
      | none => (f, .position (if stoppedAtUnindexedTail then f.lastIndexedPosition else NOT_IN_FILE))

end TransactionLogFile

end RocksdbJs
