import RocksdbJs.Spec.System

/-! One store directory over the lives of the stores that are opened on it: batches, commits,
flushes, readers, purges, then a close or a crash, and the next load. A commit may bring any
position, which only adds runs. -/

namespace RocksdbJs

/-- The directory with the store on it, and the `databaseFlushed` calls between their two
critical sections. -/
structure Life where
  world : World := { disk := { directory := false } }
  isOpen : Bool := false
  flushes : List LogPosition := []
  /-- The numbers of all the log files there have been. -/
  used : List ℕ := []

inductive Event
  /-- A store is made for a directory that is not there. -/
  | create
  | beginWrite (batch : TransactionLogEntryBatch)
  | writer (io : WriterCalls)
  | commitFinished (position : LogPosition) (rocksSequenceNumber : ℕ)
  | commitAborted (position : LogPosition)
  | flushScan (rocksSequenceNumber : ℕ)
  | flushWrite (k : ℕ)
  | getLastCommittedPosition
  /-- A reader asks for the size or for a mapping of a file, and either call opens it. -/
  | getLogFileSize (seq : ℕ) (io : TransactionLogStore.ReadCalls)
  | findPosition (timestamp : Binary64) (io : TransactionLogStore.ReadCalls)
  | purge (all : Bool) (before : ℕ) (io : TransactionLogStore.FilesCalls)
  | close (io : TransactionLogStore.FilesCalls)
  | crash
  | load (order : List ℕ) (io : TransactionLogStore.FilesCalls)

namespace Life

/-- The world moves on, and the files it now has count as used. -/
def moveTo (y : Life) (w : World) : Life := { y with world := w, used := w.disk.logs.keys ++ y.used }

def withStore (y : Life) (s : TransactionLogStore) : Life := y.moveTo { y.world with store := s }

/-- What happens to an open store. -/
def stepOpen (cfg : StoreConfig) (y : Life) : Event → Option Life
  | .beginWrite batch => if y.world.busy then none else some (y.moveTo (RocksdbJs.beginWrite y.world batch))
  | .writer io => (stepWriter cfg y.world io).map y.moveTo
  | .commitFinished position seq => some (y.withStore (y.world.store.commitFinished position seq))
  | .commitAborted position => some (y.withStore (y.world.store.commitAborted position))
  | .flushScan seq => some { y with flushes := y.world.store.latestSequencePosition seq :: y.flushes }
  | .flushWrite k => (y.flushes[k]?).map fun position =>
      let r := y.world.store.writeFlushedPosition y.world.disk position
      { y.moveTo { y.world with store := r.1, disk := r.2 } with flushes := y.flushes.eraseIdx k }
  | .getLastCommittedPosition => some (y.withStore (y.world.store.getLastCommittedPosition y.world.disk))
  | .getLogFileSize seq io =>
    let r := y.world.store.getLogFileSize y.world.disk seq io
    some (y.moveTo { y.world with store := r.2.1, disk := r.2.2 })
  | .findPosition timestamp io =>
    some (y.withStore (y.world.store.findPositionByTimestamp cfg y.world.disk timestamp io).2)
  | .purge all before io =>
    if y.world.busy then none
    else
      let r := y.world.store.doPurge cfg y.world.disk all before io
      some (y.moveTo { y.world with store := r.1, disk := r.2 })
  | .close io =>
    if y.world.busy then none
    else
      let r := y.world.store.doClose cfg y.world.disk io
      some { y.moveTo { store := r.1, disk := r.2 } with isOpen := false, flushes := [] }
  | .crash => some { y with world := { disk := y.world.disk }, isOpen := false, flushes := [] }
  | .create => none
  | .load _ _ => none

/-- What happens where no store is open. The scan of a directory meets each file once. -/
def stepClosed (cfg : StoreConfig) (y : Life) : Event → Option Life
  | .create =>
    if y.world.disk.directory then none else some { y with world := { disk := y.world.disk }, isOpen := true }
  | .load order io =>
    if y.world.disk.directory ∧ order.Perm y.world.disk.logs.keys then
      match TransactionLogStore.load cfg y.world.disk order io with
      | (some s, d) => some { y.moveTo { store := s, disk := d } with isOpen := true }
      | (none, d) => some (y.moveTo { disk := d })
    else none
  | _ => none

def step (cfg : StoreConfig) (y : Life) (e : Event) : Option Life :=
  if y.isOpen then y.stepOpen cfg e else y.stepClosed cfg e

end Life

end RocksdbJs
