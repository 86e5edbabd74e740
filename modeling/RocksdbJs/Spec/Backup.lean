import RocksdbJs.Spec.Lifecycle

/-! `TransactionLogStore::snapshotForBackup` beside everything else that happens to a store
directory, and the hard links that `copySnapshotEntries` makes of the files it calls
immutable. The calls of a store end with it. -/

namespace RocksdbJs

/-- An entry for a log file. The one for `txn.state` is the call's `stateEntry`. -/
structure TransactionLogBackupEntry where
  seq : ℕ
  byteLimit : ℕ
  immutable : Bool
deriving DecidableEq, Repr

/-- Where the call stands, with the files whose sizes are still to be read. -/
inductive SnapshotPc
  | readState
  | listFiles
  | sizes (rest : List ℕ)
  | returned
deriving DecidableEq, Repr

structure SnapshotCall where
  pc : SnapshotPc := .readState
  stateEntry : Option LogPosition := none
  current : ℕ := 0
  entries : List TransactionLogBackupEntry := []
  /-- The registered files that were on disk when the call was made, as they were then, and
  have not been removed since. No field of the source holds them. -/
  found : List (ℕ × Bytes) := []

/-- The results of the system calls of one step. -/
structure SnapshotCalls where
  stateReadable : Bool := true
  /-- `last_write_time` of a log file that is there. -/
  statted : Bool := true

/-- The body of the loop over the files. One that was purged since is gone from the
directory as well. -/
def TransactionLogStore.backupEntry (s : TransactionLogStore) (d : Disk) (current seq : ℕ) (statted : Bool) :
    Option TransactionLogBackupEntry :=
  match s.sequenceFiles.get? seq with
  | none => none
  | some f =>
    if f.size = 0 then none
    else if statted = false ∨ (d.logs.get? seq).isNone then none
    else some ⟨seq, f.size, decide (seq ≠ current)⟩

/-- One critical section of `snapshotForBackup`, or one turn of its loop. -/
def SnapshotCall.step (s : TransactionLogStore) (d : Disk) (io : SnapshotCalls) (c : SnapshotCall) :
    Option SnapshotCall :=
  match c.pc with
  | .readState => some { c with stateEntry := if io.stateReadable then d.txnState else none, pc := .listFiles }
  | .listFiles => some { c with current := s.currentSequenceNumber, pc := .sizes s.sequenceFiles.keys }
  | .sizes [] => some { c with pc := .returned }
  | .sizes (seq :: rest) =>
    some { c with entries := c.entries ++ (s.backupEntry d c.current seq io.statted).toList, pc := .sizes rest }
  | .returned => none

/-- A store directory, the options its stores are opened with, the snapshots being taken of
the open store, and the log files that backups have linked, each with the bytes it had when
it was called immutable. -/
structure Backups where
  cfg : StoreConfig
  life : Life := {}
  calls : List SnapshotCall := []
  links : List (ℕ × Bytes) := []

inductive BackupEvent
  | life (e : Event)
  /-- The database is opened with other options next time. -/
  | options (cfg : StoreConfig)
  | beginSnapshot
  | snapshot (i : ℕ) (io : SnapshotCalls)

namespace Backups

def store (y : Backups) : TransactionLogStore := y.life.world.store

def disk (y : Backups) : Disk := y.life.world.disk

/-- The files that still have their name in the directory. Once that is gone nothing writes
to the file any more. -/
def stillNamed (d : Disk) (files : List (ℕ × Bytes)) : List (ℕ × Bytes) :=
  if d.directory then files.filter fun l => (d.logs.get? l.1).isSome else []

/-- The log files that are registered and on disk. -/
def registeredFiles (s : TransactionLogStore) (d : Disk) : List (ℕ × Bytes) :=
  d.logs.entries.filter fun l => (s.sequenceFiles.get? l.1).isSome

/-- The files that the step from `c` to `c'` calls immutable. -/
def newLinks (d : Disk) (c c' : SnapshotCall) : List (ℕ × Bytes) :=
  ((c'.entries.drop c.entries.length).filter TransactionLogBackupEntry.immutable).map fun e => (e.seq, d.bytes e.seq)

def step (y : Backups) : BackupEvent → Option Backups
  | .life e => (y.life.step y.cfg e).map fun l =>
      { y with
        life := l
        calls := if y.life.isOpen ∧ l.isOpen then y.calls.map fun c =>
          { c with found := stillNamed l.world.disk c.found } else []
        links := stillNamed l.world.disk y.links }
  | .options cfg => if y.life.isOpen then none else some { y with cfg := cfg }
  | .beginSnapshot =>
    if y.life.isOpen then
      some { y with calls := y.calls ++ [{ found := registeredFiles y.store y.disk }] }
    else none
  | .snapshot i io =>
    if y.life.isOpen then
      y.calls[i]?.bind fun c => (c.step y.store y.disk io).map fun c' =>
        { y with calls := y.calls.set i c', links := y.links ++ newLinks y.disk c c' }
    else none

end Backups

end RocksdbJs
