import RocksdbJs.Spec.LogWriter

/-! The query reader (`transaction-log-reader.ts`). A `LogBuffer` lives as long as something refers
to it and its cached `WeakRef` finds it as long, so there is one for each log file, and the
reader's buffers are a map. One call of `query` or `next` is one step: the reader's thread reads
the watermark and maps the files under locks that the writer takes too. -/

namespace RocksdbJs

/-- A mapping handed to JavaScript; `size` is the limit kept on it for a file that is not the latest. -/
structure LogBuffer where
  logId : ℕ
  length : ℕ
  size : Option ℕ := none
deriving DecidableEq, Repr

/-- What the JavaScript object of a log keeps between calls. -/
structure TransactionLog where
  /-- `_lastCommittedPosition` is set. -/
  queried : Bool := false
  logBuffers : SeqMap LogBuffer := SeqMap.empty
  /-- The number of `_currentLogBuffer`. -/
  currentLogBuffer : Option ℕ := none

structure TransactionLogQueryOptions where
  start : Option Binary64 := none
  «end» : Option Binary64 := none
  exactStart : Bool := false
  startFromLastFlushed : Bool := false
  readUncommitted : Bool := false
  exclusiveStart : Bool := false

structure TransactionEntry where
  timestamp : Binary64
  endTxn : Bool
  data : Bytes
deriving DecidableEq

/-- The variables an iterator closes over; `size` can be left undefined by an exception, and log
file 0 stands for the fake buffer. -/
structure LogIterator where
  start : Binary64
  «end» : Binary64
  exactStart : Bool := false
  readUncommitted : Bool := false
  exclusiveStart : Bool := false
  position : ℕ
  size : Option ℕ
  logId : ℕ
  foundExactStart : Bool := false
deriving DecidableEq

inductive ReaderError
  | binding (e : DBException)
  | find (e : FindOutcome)
  | rangeError
deriving DecidableEq, Repr

/-- A store with its reader. -/
structure Reading where
  store : TransactionLogStore
  disk : Disk
  log : TransactionLog := {}

/-- What `next` returns or throws, an entry together with where it begins. -/
inductive NextResult
  | value (entry : TransactionEntry) (place : LogPosition)
  | done
  | threw (e : ReaderError)
deriving DecidableEq

namespace LogIterator

/-- `matchesRange` for an entry, and `foundExactStart` after it. -/
def matchesRange (it : LogIterator) (timestamp : Binary64) : Bool × Bool :=
  if it.foundExactStart then
    ((!it.exclusiveStart || !Binary64.eq timestamp it.start) && Binary64.lt timestamp it.end, true)
  else if it.exactStart then
    if Binary64.eq timestamp it.start then (!it.exclusiveStart, true) else (false, false)
  else
    ((if it.exclusiveStart then Binary64.lt it.start timestamp else Binary64.ge timestamp it.start) &&
      Binary64.lt timestamp it.end, false)

end LogIterator

/-- How the loop of `next` leaves a file. -/
inductive ScanResult
  /-- The loop's condition fails at its head. -/
  | ended
  /-- The timestamp is zero or not a number. -/
  | done
  | rangeError
  | value (entry : TransactionEntry) (place : LogPosition)
  /-- An entry out of the range ends at `size` or behind it. -/
  | passed
deriving DecidableEq

/-- The loop of `next` inside one file, over the bytes of the mapping. -/
def scanBuffer (view : Bytes) (size : ℕ) : ℕ → LogIterator → ScanResult × LogIterator
  | 0, it => (.ended, it)
  | fuel + 1, it =>
    let position := it.position
    if size ≤ position then (.ended, it)
    else if view.length < position + 8 then (.rangeError, it)
    else
      let timestamp := readDoubleBE view position
      if timestamp.isZero ∨ timestamp.isNaN then (.done, it)
      else
        let limit := if it.readUncommitted then view.length else min size view.length
        if limit < position + TRANSACTION_LOG_ENTRY_HEADER_SIZE then (.rangeError, it)
        else
          let length := readUint32BE view (position + 8)
          let entryStart := position + TRANSACTION_LOG_ENTRY_HEADER_SIZE
          if limit < entryStart + length then (.rangeError, it)
          else
            let r := it.matchesRange timestamp
            let it := { it with position := entryStart + length, foundExactStart := r.2 }
            if r.1 then
              (.value ⟨timestamp, readUint8 view (position + 12) &&& 1 != 0, (view.drop entryStart).take length⟩
                ⟨position, it.logId⟩, it)
            else if size ≤ it.position then (.passed, it)
            else scanBuffer view size fuel it

namespace Reading

/-- The buffer under a number, or the fake one. -/
def buffer (y : Reading) (logId : ℕ) : LogBuffer := (y.log.logBuffers.get? logId).getD ⟨0, 0, some 0⟩

/-- The bytes an iterator on that buffer sees. -/
def view (y : Reading) (logId : ℕ) : Bytes := mapView (y.disk.bytes logId) (y.buffer logId).length

def setBuffer (y : Reading) (b : LogBuffer) : Reading :=
  { y with log := { y.log with logBuffers := y.log.logBuffers.set b.logId b } }

def getLogFileSize (y : Reading) (logId : ℕ) (io : TransactionLogStore.ReadCalls) : Except ReaderError ℕ × Reading :=
  let r := y.store.getLogFileSize y.disk logId io
  (r.1.mapError .binding, { y with store := r.2.1, disk := r.2.2 })

/-- The walk of `loadLastPosition` with `readUncommitted`. -/
def lastPositionFrom (io : TransactionLogStore.ReadCalls) :
    ℕ → ℕ → ℕ × ℕ → Reading → Except ReaderError (ℕ × ℕ) × Reading
  | 0, _, last, y => (.ok last, y)
  | fuel + 1, nextLogId, last, y =>
    match y.getLogFileSize nextLogId io with
    | (.error e, y) => (.error e, y)
    | (.ok nextSize, y) =>
      if nextSize = 0 then (.ok last, y) else lastPositionFrom io fuel (nextLogId + 1) (nextLogId, nextSize) y

/-- The latest file to read in, and how far. -/
def loadLastPosition (y : Reading) (readUncommitted : Bool) (io : TransactionLogStore.ReadCalls) :
    Except ReaderError (ℕ × ℕ) × Reading :=
  let last := y.store.lastCommittedPosition
  if readUncommitted then
    let logId := last.logSequenceNumber
    -- every file of the walk is a registered one
    lastPositionFrom io (y.store.sequenceFiles.entries.length + 1) (if logId = 0 then 1 else logId) (logId, 0) y
  else (.ok (last.logSequenceNumber, last.positionInLogFile), y)

def getLogMemoryMap (cfg : StoreConfig) (y : Reading) (logId : ℕ) (io : TransactionLogStore.ReadCalls) :
    Except ReaderError (Option LogBuffer) × Reading :=
  if logId = 0 then (.ok none, y)
  else match y.log.logBuffers.get? logId with
    | some b => (.ok (some b), y)
    | none =>
      let r := y.store.getMemoryMap cfg y.disk logId io
      let y := { y with store := r.2.1, disk := r.2.2 }
      match r.1 with
      | .error e => (.error (.binding e), y)
      | .ok none => (.ok none, y)
      | .ok (some length) => (.ok (some ⟨logId, length, none⟩), y.setBuffer ⟨logId, length, none⟩)

/-- `buffer.size ?? (buffer.size = getLogFileSize(buffer.logId))`. -/
def cachedSize (y : Reading) (b : LogBuffer) (io : TransactionLogStore.ReadCalls) : Except ReaderError ℕ × Reading :=
  match b.size with
  | some size => (.ok size, y)
  | none => match y.getLogFileSize b.logId io with
    | (.error e, y) => (.error e, y)
    | (.ok size, y) => (.ok size, y.setBuffer { b with size := some size })

/-- Where a query starts: a log file, a position in it and the `start` of its filter. -/
def queryStart (cfg : StoreConfig) (y : Reading) (options : TransactionLogQueryOptions) (latest : ℕ × ℕ)
    (io : TransactionLogStore.ReadCalls) : Except ReaderError (ℕ × ℕ × Binary64) × Reading :=
  let afterHeader (position : ℕ) := if position = 0 then TRANSACTION_LOG_FILE_HEADER_SIZE else position
  let find (timestamp : Binary64) : Except ReaderError (ℕ × ℕ × Binary64) × Reading :=
    let r := y.store.findPositionByTimestamp cfg y.disk timestamp io
    let y := { y with store := r.2 }
    match r.1 with
    | .error e => (.error (.find e), y)
    | .ok p => (.ok (p.logSequenceNumber, afterHeader p.positionInLogFile, timestamp), y)
  if options.startFromLastFlushed then
    let flushed := getLastFlushedPosition y.disk
    let start := options.start.getD Binary64.zero
    if flushed.isZero then
      match find Binary64.zero with
      | (.error e, y) => (.error e, y)
      | (.ok p, y) => (.ok (p.1, p.2.1, start), y)
    else (.ok (flushed.logSequenceNumber, afterHeader flushed.positionInLogFile, start), y)
  else match options.start with
    | none => (.ok (latest.1, afterHeader latest.2, Binary64.zero), y)
    | some start => find start

/-- The buffer a query starts on, and the `size` left by a missing one. -/
def queryBuffer (cfg : StoreConfig) (y : Reading) (readUncommitted : Bool) (latest : ℕ × ℕ) (logId : ℕ)
    (io : TransactionLogStore.ReadCalls) : Except ReaderError (LogBuffer × ℕ) × Reading :=
  if y.log.currentLogBuffer = some logId then (.ok (y.buffer logId, latest.2), y)
  else match y.getLogMemoryMap cfg logId io with
    | (.error e, y) => (.error e, y)
    | (.ok none, y) => (.ok (⟨0, 0, some 0⟩, 0), y)
    | (.ok (some b), y) =>
      (.ok (b, latest.2), if latest.1 = logId ∧ !readUncommitted then
        { y with log := { y.log with currentLogBuffer := some logId } } else y)

def query (cfg : StoreConfig) (y : Reading) (options : TransactionLogQueryOptions)
    (io : TransactionLogStore.ReadCalls) :
    Except ReaderError LogIterator × Reading :=
  let y := if y.log.queried then y
    else { y with
      store := y.store.getLastCommittedPosition y.disk
      log := { y.log with queried := true, logBuffers := SeqMap.empty } }
  match y.loadLastPosition options.readUncommitted io with
  | (.error e, y) => (.error e, y)
  | (.ok latest, y) =>
    match y.queryStart cfg options latest io with
    | (.error e, y) => (.error e, y)
    | (.ok (logId, position, start), y) =>
      match y.queryBuffer cfg options.readUncommitted latest logId io with
      | (.error e, y) => (.error e, y)
      | (.ok (b, size), y) =>
        let it : LogIterator := {
          start
          «end» := options.end.getD Binary64.maxValue
          exactStart := options.exactStart
          readUncommitted := options.readUncommitted
          exclusiveStart := options.exclusiveStart
          position
          size := some size
          logId := b.logId }
        if latest.1 = logId then (.ok it, y)
        else match y.cachedSize b io with
          | (.error e, y) => (.error e, y)
          | (.ok size, y) => (.ok { it with size := some size }, y)

/-- The head of `next`: an iterator at its limit looks for more, in its file or in the next one. -/
def nextHead (cfg : StoreConfig) (y : Reading) (it : LogIterator) (io : TransactionLogStore.ReadCalls) :
    Except ReaderError Unit × Reading × LogIterator :=
  if it.size.any (· ≤ it.position) then
    match y.loadLastPosition it.readUncommitted io with
    | (.error e, y) => (.error e, y, it)
    | (.ok (latestLogId, latestSize), y) =>
      let it := { it with size := some latestSize }
      if it.logId < latestLogId then
        match y.cachedSize (y.buffer it.logId) io with
        | (.error e, y) => (.error e, y, it)
        | (.ok size, y) =>
          let it := { it with size := some size }
          if size ≤ it.position then
            match y.getLogMemoryMap cfg (it.logId + 1) io with
            | (.error e, y) => (.error e, y, it)
            | (.ok none, y) => (.ok (), y, it)
            | (.ok (some b), y) =>
              let it := { it with logId := b.logId }
              if b.logId < latestLogId then
                match y.cachedSize b io with
                | (.error e, y) => (.error e, y, it)
                | (.ok size, y) =>
                  (.ok (), y, { it with size := some size, position := TRANSACTION_LOG_FILE_HEADER_SIZE })
              else (.ok (), y, { it with size := some latestSize, position := TRANSACTION_LOG_FILE_HEADER_SIZE })
          else (.ok (), y, it)
      else (.ok (), y, it)
  else (.ok (), y, it)

/-- The loop of `next`, file by file. -/
def nextLoop (cfg : StoreConfig) (io : TransactionLogStore.ReadCalls) : ℕ → Reading → LogIterator →
    NextResult × Reading × LogIterator
  | 0, y, it => (.done, y, it)
  | fuel + 1, y, it =>
    match it.size with
    | none => (.done, y, it)
    | some size =>
      let view := y.view it.logId
      match scanBuffer view size (view.length + 1) it with
      | (.ended, it) => (.done, y, it)
      | (.done, it) => (.done, y, it)
      | (.rangeError, it) => (.threw .rangeError, y, it)
      | (.value entry place, it) => (.value entry place, y, it)
      | (.passed, it) =>
        match y.loadLastPosition it.readUncommitted io with
        | (.error e, y) => (.threw e, y, it)
        | (.ok (latestLogId, latestSize), y) =>
          let it := { it with size := some latestSize }
          if it.logId < latestLogId then
            match y.getLogMemoryMap cfg (it.logId + 1) io with
            | (.error e, y) => (.threw e, y, it)
            | (.ok none, y) => (.done, y, it)
            | (.ok (some b), y) =>
              let it := { it with logId := b.logId, size := b.size }
              match b.size with
              | some _ => nextLoop cfg io fuel y { it with position := TRANSACTION_LOG_FILE_HEADER_SIZE }
              | none => match y.getLogFileSize b.logId io with
                | (.error e, y) => (.threw e, y, it)
                | (.ok size, y) =>
                  nextLoop cfg io fuel (if it.readUncommitted then y else y.setBuffer { b with size := some size })
                    { it with size := some size, position := TRANSACTION_LOG_FILE_HEADER_SIZE }
          else nextLoop cfg io fuel y it

/-- `next`. A round of the loop that does not end it moves to a higher file, or reads up to the
watermark and ends in the round after. -/
def next (cfg : StoreConfig) (y : Reading) (it : LogIterator) (io : TransactionLogStore.ReadCalls) :
    NextResult × Reading × LogIterator :=
  match y.nextHead cfg it io with
  | (.error e, y, it) => (.threw e, y, it)
  | (.ok (), y, it) =>
    nextLoop cfg io (y.store.lastCommittedPosition.logSequenceNumber + y.store.sequenceFiles.entries.length + 3) y it

/-- The entries that the calls of `next` give up to the first one that gives none, and how it ends. -/
def drain (cfg : StoreConfig) (io : TransactionLogStore.ReadCalls) : ℕ → Reading → LogIterator →
    List TransactionEntry × Option NextResult
  | 0, _, _ => ([], none)
  | fuel + 1, y, it =>
    match y.next cfg it io with
    | (.value entry _, y, it) =>
      let r := drain cfg io fuel y it
      (entry :: r.1, r.2)
    | (r, _, _) => ([], some r)

end Reading

end RocksdbJs
