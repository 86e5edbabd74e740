import RocksdbJs.Lib.Runs
import RocksdbJs.Spec.LogWriter

/-! Any number of transactions on one store, as `Transaction::Commit` and
`TransactionHandle::close` drive them, with RocksDB's sequence numbers and the
flush events (`transaction.cpp`, `transaction_handle.cpp`). A transaction's record
also says where its entries begin in the files, which no field of the source does. -/

namespace RocksdbJs

/-- One transaction from its `writeBatch` call on. -/
structure Txn where
  committedPosition : LogPosition
  /-- The true places of the entries `writeEntries` took from its batch. -/
  locations : List LogPosition := []
  /-- Its RocksDB commit sequence, once committed there. -/
  rocksCommit : Option ℕ := none
  /-- What `GetLatestSequenceNumber` gave it, until `commitFinished` is called with it. -/
  latestRead : Option ℕ := none
  /-- `commitFinished` or `commitAborted` has been called for it. -/
  decided : Bool := false
deriving DecidableEq

/-- Where records appended to file `seq` from `offset` on begin. -/
def entryLocations (seq : ℕ) : ℕ → List LogRecord → List LogPosition
  | _, [] => []
  | offset, r :: rs => ⟨offset, seq⟩ :: entryLocations seq (offset + r.frame.length) rs

/-- The places of the entries taken by the step from `wr` to `wr'`. -/
def Writer.appends (wr wr' : Writer) (d : Disk) : List LogPosition :=
  match wr.pc with
  | .write seq => entryLocations seq (d.bytes seq).length
      (wr.batch.nextRecords (wr'.batch.currentEntryIndex - wr.batch.currentEntryIndex))
  | _ => []

/-- `writeMutex` is held. -/
def Writer.busy (wr : Writer) : Bool :=
  match wr.pc with
  | .returned => false
  | .threw _ => false
  | _ => true

def World.busy (w : World) : Bool := (w.writer.map Writer.busy).getD false

/-- The transactions are listed newest first, so a running `writeBatch` belongs to the head. -/
structure Sys where
  world : World := {}
  txns : List Txn := []
  latestSequenceNumber : ℕ := 0
  /-- `databaseFlushed` calls between their two critical sections. -/
  flushes : List (ℕ × LogPosition) := []
  /-- The positions written to `txn.state`, each with the sequence number of its flush. -/
  persisted : List (ℕ × LogPosition) := []

inductive Action
  | beginWrite (batch : TransactionLogEntryBatch)
  | writer (io : WriterCalls)
  /-- Transaction `i` commits in RocksDB and uses up `n` sequence numbers. -/
  | rocksCommit (i n : ℕ)
  /-- A commit without log entries. -/
  | rocksOther (n : ℕ)
  | getLatestSequenceNumber (i : ℕ)
  | commitFinished (i : ℕ)
  | commitAborted (i : ℕ)
  | flushScan (rocksSequenceNumber : ℕ)
  | flushWrite (k : ℕ)

namespace Sys

/-- Transaction `i`, if its `writeBatch` call has ended. -/
def ended (y : Sys) (i : ℕ) : Option Txn := if i = 0 ∧ y.world.busy then none else y.txns[i]?

/-- A failed `writeBatch` is not held back from the RocksDB commit here, which only adds runs. -/
def step (cfg : StoreConfig) (y : Sys) : Action → Option Sys
  | .beginWrite batch =>
    -- a call on a closing store throws before it touches anything
    if y.world.busy ∨ y.world.store.isClosing then none
    else some { y with
      world := RocksdbJs.beginWrite y.world batch
      txns := { committedPosition := y.world.store.nextLogPosition } :: y.txns }
  | .writer io =>
    match y.world.writer, y.txns with
    | some wr, x :: rest => (writerStep cfg y.world wr io).bind fun w => w.writer.map fun wr' =>
        { y with
          world := w
          txns := { x with
            committedPosition := wr'.logPosition
            locations := x.locations ++ wr.appends wr' y.world.disk } :: rest }
    | _, _ => none
  | .rocksCommit i n => (y.ended i).bind fun x =>
      if x.decided ∨ x.rocksCommit.isSome ∨ x.latestRead.isSome then none
      else some { y with
        latestSequenceNumber := y.latestSequenceNumber + n
        txns := y.txns.set i { x with rocksCommit := some (y.latestSequenceNumber + n) } }
  | .rocksOther n => some { y with latestSequenceNumber := y.latestSequenceNumber + n }
  | .getLatestSequenceNumber i => (y.ended i).bind fun x =>
      if x.decided then none
      else some { y with txns := y.txns.set i { x with latestRead := some y.latestSequenceNumber } }
  | .commitFinished i => (y.ended i).bind fun x => x.latestRead.bind fun seq =>
      if x.committedPosition.logSequenceNumber = 0 then none
      else some { y with
        world := { y.world with store := y.world.store.commitFinished x.committedPosition seq }
        txns := y.txns.set i { x with decided := true, latestRead := none } }
  | .commitAborted i => (y.ended i).bind fun x =>
      if x.committedPosition.logSequenceNumber = 0 ∨ x.rocksCommit.isSome then none
      else some { y with
        world := { y.world with store := y.world.store.commitAborted x.committedPosition }
        txns := y.txns.set i { x with decided := true } }
  | .flushScan s => some { y with flushes := (s, y.world.store.latestSequencePosition s) :: y.flushes }
  | .flushWrite k => (y.flushes[k]?).bind fun fl =>
      let r := y.world.store.writeFlushedPosition y.world.disk fl.2
      some { y with
        world := { y.world with store := r.1, disk := r.2 }
        flushes := y.flushes.eraseIdx k
        persisted :=
          if fl.2 ≠ y.world.store.lastWrittenFlushedPosition ∧ r.2.txnState = some fl.2 then fl :: y.persisted
          else y.persisted }

/-- Nothing has happened yet on a store just made, for a directory without log files, or
loaded, with every header the load writes whole. -/
def Initial (cfg : StoreConfig) (y : Sys) : Prop :=
  y.txns = [] ∧ y.flushes = [] ∧ y.persisted = [] ∧ y.world.writer = none ∧
    ((y.world.store = {} ∧ y.world.disk.logs = SeqMap.empty) ∨
      ∃ d order io, (∀ seq, (TransactionLogStore.FilesCalls.openCalls io seq).headerWrites = (4, 1, 8)) ∧
        TransactionLogStore.load cfg d order io = (some y.world.store, y.world.disk))

end Sys

end RocksdbJs
