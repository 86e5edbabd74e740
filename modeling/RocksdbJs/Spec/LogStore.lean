import RocksdbJs.Spec.LogFile
import RocksdbJs.Lib.SeqMap
import RocksdbJs.Lib.SortedVec

/-! `TransactionLogStore` (`transaction_log_store.h`, `transaction_log_store.cpp`)
and the directory it works on. Every function here is one critical section of the
source; `writeBatch`, which is several, is in `LogWriter`. -/

namespace RocksdbJs

structure SequencePosition where
  rocksSequenceNumber : ℕ
  position : LogPosition
deriving DecidableEq, Repr

def RECENTLY_COMMITTED_POSITIONS_SIZE : ℕ := 24

/-- The `maximum int64` that no flush reaches. -/
def NO_SEQUENCE : ℕ := 0x7FFFFFFFFFFFFFFF

structure StoreConfig where
  maxFileSize : ℕ
  retentionMs : ℤ := 0
  /-- `retentionMs * (1 - maxAgeThreshold)` in milliseconds, when `maxAgeThreshold > 0`. -/
  thresholdDuration : Option ℤ := none
deriving DecidableEq

/-- The check of `Database::Open` on the option behind `maxFileSize`. -/
def acceptsTransactionLogMaxSize (transactionLogMaxSize : ℕ) : Bool :=
  !(decide (0 < transactionLogMaxSize) && decide (transactionLogMaxSize < TRANSACTION_LOG_ENTRY_HEADER_SIZE))

/-- The `txn.state` stream: after its file is deleted it still takes writes. -/
inductive StateStream
  | closed | linked | unlinked
deriving DecidableEq, Repr

structure TransactionLogStore where
  latestTimestamp : Binary64 := Binary64.zero
  currentSequenceNumber : ℕ := 1
  nextSequenceNumber : ℕ := 2
  sequenceFiles : SeqMap TransactionLogFile := SeqMap.empty
  isClosing : Bool := false
  pendingTransactionCount : ℤ := 0
  uncommittedTransactionPositions : SortedVec LogPosition := SortedVec.empty
  recentlyCommittedSequencePositions : List SequencePosition :=
    List.replicate RECENTLY_COMMITTED_POSITIONS_SIZE ⟨NO_SEQUENCE, ⟨0, 0⟩⟩
  nextSequencePositionsCount : ℕ := 0
  flushedStateFile : StateStream := .closed
  lastWrittenFlushedPosition : LogPosition := ⟨0, 0⟩
  nextLogPosition : LogPosition := ⟨0, 0⟩
  lastCommittedPosition : LogPosition := ⟨0, 0⟩

/-- The store's directory: the log files by number, and `txn.state`. -/
structure Disk where
  logs : SeqMap Bytes := SeqMap.empty
  txnState : Option LogPosition := none
  directory : Bool := true

/-- The bytes of a log file, none if it does not exist. -/
def Disk.bytes (d : Disk) (seq : ℕ) : Bytes := (d.logs.get? seq).getD []

def getLastFlushedPosition (d : Disk) : LogPosition := d.txnState.getD ⟨0, 0⟩

namespace TransactionLogStore

def setFile (s : TransactionLogStore) (seq : ℕ) (f : TransactionLogFile) : TransactionLogStore :=
  { s with sequenceFiles := s.sequenceFiles.set seq f }

def advanceSequence (s : TransactionLogStore) : TransactionLogStore :=
  { s with currentSequenceNumber := s.nextSequenceNumber, nextSequenceNumber := s.nextSequenceNumber + 1 }

def positionInsert (s : TransactionLogStore) (pos : LogPosition) : TransactionLogStore :=
  { s with uncommittedTransactionPositions := s.uncommittedTransactionPositions.insert pos }

def positionErase (s : TransactionLogStore) (pos : LogPosition) : TransactionLogStore :=
  { s with uncommittedTransactionPositions := s.uncommittedTransactionPositions.erase pos }

/-- The beginning of the earliest uncommitted transaction, or the end of the log. -/
def fullyCommittedPosition (s : TransactionLogStore) : LogPosition :=
  s.uncommittedTransactionPositions.front?.getD s.nextLogPosition

/-- The slot of the sample array: the lowest set bit of the count, up to the last slot. -/
def sampleIndex (count : ℕ) : ℕ :=
  ((List.range (RECENTLY_COMMITTED_POSITIONS_SIZE - 1)).find? count.testBit).getD
    (RECENTLY_COMMITTED_POSITIONS_SIZE - 1)

def commitAborted (s : TransactionLogStore) (position : LogPosition) : TransactionLogStore :=
  let s := s.positionErase position
  { s with lastCommittedPosition := s.fullyCommittedPosition }

def commitFinished (s : TransactionLogStore) (position : LogPosition) (rocksSequenceNumber : ℕ) :
    TransactionLogStore :=
  let s := s.commitAborted position
  { s with
    recentlyCommittedSequencePositions := s.recentlyCommittedSequencePositions.set
      (sampleIndex s.nextSequencePositionsCount) ⟨rocksSequenceNumber, s.lastCommittedPosition⟩
    nextSequencePositionsCount := (s.nextSequencePositionsCount + 1) % UINT32_RANGE }

/-- The first critical section of `databaseFlushed`: the latest sampled position that
the flush covers. -/
def latestSequencePosition (s : TransactionLogStore) (rocksSequenceNumber : ℕ) : LogPosition :=
  s.recentlyCommittedSequencePositions.foldl
    (fun latest sp =>
      if sp.rocksSequenceNumber ≤ rocksSequenceNumber ∧ latest < sp.position then sp.position else latest)
    ⟨0, 0⟩

/-- The second critical section of `databaseFlushed`. -/
def writeFlushedPosition (s : TransactionLogStore) (d : Disk) (position : LogPosition) :
    TransactionLogStore × Disk :=
  if position = s.lastWrittenFlushedPosition then (s, d)
  else
    let stream := if s.flushedStateFile = .closed ∧ d.directory then .linked else s.flushedStateFile
    match stream with
    | .closed => (s, d)
    | .linked => ({ s with flushedStateFile := stream, lastWrittenFlushedPosition := position },
        { d with txnState := some position })
    | .unlinked => ({ s with lastWrittenFlushedPosition := position }, d)

/-- `getLogFile`: a file not registered yet is created in memory and becomes the place
of the next entry. -/
def getLogFile (s : TransactionLogStore) (d : Disk) (seq : ℕ) (now : ℤ) : TransactionLogStore × Disk :=
  match s.sequenceFiles.get? seq with
  | some _ => (s, d)
  | none =>
    ({ s with
        sequenceFiles := s.sequenceFiles.set seq { sequenceNumber := seq, fileLastWriteTime := now }
        nextLogPosition := ⟨0, seq⟩ },
      { d with directory := true })

/-- `logFile->open` on a registered file. -/
def openLogFile (s : TransactionLogStore) (d : Disk) (seq : ℕ) (f : TransactionLogFile) (io : OpenCalls) :
    Option DBException × TransactionLogStore × Disk :=
  let r := f.open (d.logs.get? seq) s.latestTimestamp io
  (r.1, s.setFile seq r.2.1,
    match r.2.2 with
    | some bytes => { d with logs := d.logs.set seq bytes, directory := true }
    | none => d)

/-- `if (!logFile->isOpen()) logFile->open(...)`. -/
def ensureOpen (s : TransactionLogStore) (d : Disk) (seq : ℕ) (f : TransactionLogFile) (io : OpenCalls) :
    Option DBException × TransactionLogStore × Disk :=
  if f.isOpen then (none, s, d) else s.openLogFile d seq f io

/-- The results of the system calls a reader can cause. -/
structure ReadCalls where
  openCalls : ℕ → OpenCalls := fun _ => {}
  mmapOk : ℕ → Bool := fun _ => true

/-- `getMemoryMap`: the length of the mapping, if there is one. -/
def getMemoryMap (cfg : StoreConfig) (s : TransactionLogStore) (d : Disk) (seq : ℕ) (io : ReadCalls) :
    Except DBException (Option ℕ) × TransactionLogStore × Disk :=
  match s.sequenceFiles.get? seq with
  | none => (.ok none, s, d)
  | some f =>
    let r := s.ensureOpen d seq f (io.openCalls seq)
    match r.1 with
    | some e => (.error e, r.2)
    | none =>
      let size := ((r.2.1.sequenceFiles.get? seq).map TransactionLogFile.size).getD 0
      let fileSize := if s.currentSequenceNumber = seq then cfg.maxFileSize else size
      (.ok (getMemoryMapLocked fileSize (io.mmapOk seq)), r.2)

/-- `getLogFileSize` of one file. -/
def getLogFileSize (s : TransactionLogStore) (d : Disk) (seq : ℕ) (io : ReadCalls) :
    Except DBException ℕ × TransactionLogStore × Disk :=
  match s.sequenceFiles.get? seq with
  | none => (.ok 0, s, d)
  | some f =>
    let r := s.ensureOpen d seq f (io.openCalls seq)
    match r.1 with
    | some e => (.error e, r.2)
    | none => (.ok (((r.2.1.sequenceFiles.get? seq).map TransactionLogFile.size).getD 0), r.2)

/-- `getLastCommittedPosition`: the watermark, initialised if it never was. -/
def getLastCommittedPosition (s : TransactionLogStore) (d : Disk) : TransactionLogStore :=
  if s.lastCommittedPosition.isZero then
    let flushedPosition := getLastFlushedPosition d
    let initialPosition :=
      if !flushedPosition.isZero then flushedPosition
      else match s.sequenceFiles.entries.head? with
        | some firstLogFile => ⟨TRANSACTION_LOG_FILE_HEADER_SIZE, firstLogFile.1⟩
        | none =>
          if 0 < s.currentSequenceNumber then ⟨TRANSACTION_LOG_FILE_HEADER_SIZE, s.currentSequenceNumber⟩
          else ⟨0, 0⟩
    { s with lastCommittedPosition := initialPosition }
  else s

/-- The backwards walk of `findPositionByTimestamp` from `sequenceNumber`. -/
def findPositionFrom (cfg : StoreConfig) (d : Disk) (timestamp : Binary64) (io : ReadCalls) :
    ℕ → Bool → TransactionLogStore → Except FindOutcome LogPosition × TransactionLogStore
  | seq, isCurrent, s =>
    match s.sequenceFiles.get? seq with
    | none => (.ok ⟨TRANSACTION_LOG_FILE_HEADER_SIZE, seq + 1⟩, s)
    | some f =>
      let mapSize := if isCurrent then cfg.maxFileSize else f.size
      let r := f.findPositionByTimestamp (if f.isOpen then d.bytes seq else []) timestamp mapSize (io.mmapOk seq)
      let s := s.setFile seq r.1
      match r.2 with
      | .position p =>
        if 0 < p then
          if p = NOT_IN_FILE then
            if seq < s.currentSequenceNumber then (.ok ⟨TRANSACTION_LOG_FILE_HEADER_SIZE, seq + 1⟩, s)
            else (.ok ⟨r.1.size, seq⟩, s)
          else (.ok ⟨p, seq⟩, s)
        else match seq with
          -- the counter wraps, no file has that number, and adding one wraps back
          | 0 => (.ok ⟨TRANSACTION_LOG_FILE_HEADER_SIZE, 0⟩, s)
          | seq + 1 => findPositionFrom cfg d timestamp io seq false s
      | e => (.error e, s)

def findPositionByTimestamp (cfg : StoreConfig) (s : TransactionLogStore) (d : Disk) (timestamp : Binary64)
    (io : ReadCalls) : Except FindOutcome LogPosition × TransactionLogStore :=
  let seq := s.currentSequenceNumber
  match s.sequenceFiles.get? seq with
  | some _ => findPositionFrom cfg d timestamp io seq true s
  | none => findPositionFrom cfg d timestamp io (seq - 1) false s

/-- What the system calls of a purge or of the scan of a directory return. -/
structure FilesCalls where
  now : ℤ := 0
  mtime : ℕ → Option ℤ := fun _ => some 0
  removed : ℕ → Bool := fun _ => true
  openCalls : ℕ → OpenCalls := fun _ => {}
  recover : TransactionLogFile.RecoverCalls := {}

/-- The age and flag part of `doPurge`'s decision. -/
def shouldPurge (cfg : StoreConfig) (all : Bool) (before : ℕ) (io : FilesCalls) (seq : ℕ) : Bool :=
  if all then true
  else if 0 < before ∨ 0 < cfg.retentionMs then
    match io.mtime seq with
    | none => false
    | some mtime =>
      (decide (0 < before) && decide (mtime % 2 ^ 64 < before)) ||
        (decide (0 < cfg.retentionMs) && decide (cfg.retentionMs < io.now - mtime))
  else false

/-- The file ends at or before the flushed position, by the size the object holds. -/
def entirelyFlushed (flushed : LogPosition) (seq : ℕ) (f : TransactionLogFile) : Bool :=
  !(decide (flushed.logSequenceNumber < seq) ||
    (decide (seq = flushed.logSequenceNumber) && decide (flushed.positionInLogFile < f.size)))

/-- The files that `doPurge` removes, in map order. -/
def purgedSequences (cfg : StoreConfig) (s : TransactionLogStore) (d : Disk) (all : Bool) (before : ℕ)
    (io : FilesCalls) : List ℕ :=
  (s.sequenceFiles.entries.filter fun e =>
    shouldPurge cfg all before io e.1 && entirelyFlushed (getLastFlushedPosition d) e.1 e.2 &&
      (d.logs.get? e.1).isSome && io.removed e.1).map Prod.fst

/-- The removal of one purged file from the map; the current file moves the store on. -/
def forgetFile (s : TransactionLogStore) (seq : ℕ) : TransactionLogStore :=
  let s :=
    if seq = s.currentSequenceNumber then
      let s := (s.positionErase s.nextLogPosition).advanceSequence
      let s := { s with nextLogPosition := ⟨0, s.currentSequenceNumber⟩ }
      let s := s.positionInsert s.nextLogPosition
      { s with lastCommittedPosition := s.fullyCommittedPosition }
    else s
  { s with sequenceFiles := s.sequenceFiles.erase seq }

def doPurge (cfg : StoreConfig) (s : TransactionLogStore) (d : Disk) (all : Bool) (before : ℕ) (io : FilesCalls) :
    TransactionLogStore × Disk :=
  let removed := purgedSequences cfg s d all before io
  let s := removed.foldl forgetFile s
  let d := { d with logs := removed.foldl SeqMap.erase d.logs }
  if s.sequenceFiles.entries.isEmpty ∧ removed ≠ [] then
    -- `remove_all` on the directory
    ({ s with flushedStateFile := if s.flushedStateFile = .linked then .unlinked else s.flushedStateFile },
      { logs := SeqMap.empty, txnState := none, directory := false })
  else (s, d)

/-- `doClose`: the map is emptied before the purge, which then returns at once. -/
def doClose (cfg : StoreConfig) (s : TransactionLogStore) (d : Disk) (io : FilesCalls) : TransactionLogStore × Disk :=
  let s := { s with isClosing := true, sequenceFiles := SeqMap.empty, flushedStateFile := .closed }
  doPurge cfg s d false 0 io

def registerLogFile (s : TransactionLogStore) (d : Disk) (seq : ℕ) (io : FilesCalls) : TransactionLogStore × Disk :=
  let f : TransactionLogFile := { sequenceNumber := seq, fileLastWriteTime := (io.mtime seq).getD io.now }
  let s := s.setFile seq f
  if s.currentSequenceNumber ≤ seq then
    let r := s.ensureOpen d seq f (io.openCalls seq)
    match r.1 with
    | some _ => r.2
    | none =>
      let size := ((r.2.1.sequenceFiles.get? seq).map TransactionLogFile.size).getD 0
      ({ r.2.1 with
          currentSequenceNumber := seq
          nextLogPosition := ⟨size, seq⟩
          nextSequenceNumber := max s.nextSequenceNumber (seq + 1) }, r.2.2)
  else ({ s with nextSequenceNumber := max s.nextSequenceNumber (seq + 1) }, d)

/-- The file is past the retention period when `load` looks at it. -/
def expired (cfg : StoreConfig) (io : FilesCalls) (seq : ℕ) : Bool :=
  match io.mtime seq with
  | none => false
  | some mtime => decide (0 < cfg.retentionMs) && decide (cfg.retentionMs < io.now - mtime)

/-- One directory entry of the scan in `load`. -/
def loadFile (cfg : StoreConfig) (io : FilesCalls) (sd : TransactionLogStore × Disk) (seq : ℕ) :
    TransactionLogStore × Disk :=
  if 0 < cfg.retentionMs ∧ (io.mtime seq).isNone then sd
  else if expired cfg io seq then
    (sd.1, if io.removed seq then { sd.2 with logs := sd.2.logs.erase seq } else sd.2)
  else sd.1.registerLogFile sd.2 seq io

/-- `load` over a directory that is listed in `order`, with the disk it leaves; there is no
store when an exception leaves it. -/
def load (cfg : StoreConfig) (d : Disk) (order : List ℕ) (io : FilesCalls) : Option TransactionLogStore × Disk :=
  let sd := order.foldl (loadFile cfg io) ({}, d)
  let seq := sd.1.currentSequenceNumber
  match sd.1.sequenceFiles.get? seq with
  | none => (some (sd.1.positionInsert sd.1.nextLogPosition), sd.2)
  | some f =>
    let r := sd.1.ensureOpen sd.2 seq f (io.openCalls seq)
    match r.1 with
    | some _ => (none, r.2.2)
    | none =>
      let f := (r.2.1.sequenceFiles.get? seq).getD f
      let rec' := f.recoverTail (r.2.2.bytes seq) io.recover
      let s := { (r.2.1.setFile seq rec'.1) with nextLogPosition := ⟨rec'.1.size, seq⟩ }
      (some (s.positionInsert s.nextLogPosition), { r.2.2 with logs := r.2.2.logs.set seq rec'.2 })

end TransactionLogStore

end RocksdbJs
