import RocksdbJs.Spec.System

/-! Transactions from their creation on: binding to the log store, staging entries, `Commit` and
`CommitSync`, `abort` and `close`, against `TransactionLogStore::tryClose`
(`transaction_handle.cpp`, `transaction.cpp`, `transaction_log_store.cpp`). One step is one
critical section. A handle's own calls do not overlap; the calls of different handles do. -/

namespace RocksdbJs

inductive TransactionState
  | pending | committing | committed | aborted
deriving DecidableEq, Repr

/-- Where a commit of the handle stands. -/
inductive CommitPc
  | idle
  /-- In `writeBatch`, which `Commit` catches the exceptions of and `CommitSync` does not. -/
  | writing (sync : Bool)
  /-- `Commit` has caught an exception and is before `commitFinished`. -/
  | failed
  /-- Before `txn->Commit()`. -/
  | written
deriving DecidableEq, Repr

/-- `bound` is that `boundLogStore` is the store. Two fields say what no field of the source does:
that a `writeBatch` call on the handle's batch has returned, and that its position has been
given back since it was taken. -/
structure TransactionHandle where
  startTimestamp : Binary64
  state : TransactionState := .pending
  closed : Bool := false
  bound : Bool := false
  logEntryBatch : Option TransactionLogEntryBatch := none
  committedPosition : LogPosition := ⟨0, 0⟩
  pc : CommitPc := .idle
  wrote : Bool := false
  decided : Bool := false
deriving DecidableEq

/-- The check of `SetTimestamp`. -/
def acceptsTimestamp (timestampMs : Binary64) : Bool := !Binary64.ge Binary64.zero timestampMs

inductive CommitStatus
  | ok | isBusy | error
deriving DecidableEq, Repr

/-- What a `tryClose` call comes to next. -/
inductive ClosePc
  | phase1 | phase2 | phase3 | phase4
deriving DecidableEq, Repr

/-- A `tryClose` call, with the transactions whose `writeBatch` returned after its phase 2. -/
structure CloseCall where
  pc : ClosePc := .phase1
  writtenSince : List ℕ := []
deriving DecidableEq

/-- The store with its transactions; `writerOf` is the one that holds `writeMutex`. -/
structure Session where
  world : World := {}
  handles : List TransactionHandle := []
  writerOf : ℕ := 0
  closeCalls : List CloseCall := []

inductive SessionAction
  | newTransaction (startTimestamp : Binary64)
  | useLog (i : ℕ)
  | addLogEntry (i : ℕ) (entry : TransactionLogEntry)
  | commit (i : ℕ) (sync : Bool)
  | writer (io : WriterCalls)
  /-- The rest of a `Commit` that caught an exception. -/
  | commitFailed (i latestSequenceNumber : ℕ)
  /-- `txn->Commit()` has given `status`, and the rest of the commit. -/
  | commitResult (i : ℕ) (status : CommitStatus) (latestSequenceNumber : ℕ)
  | abort (i : ℕ)
  | close (i : ℕ)
  | tryClose
  /-- The next phase of `tryClose` call `k`. -/
  | closePhase (k : ℕ) (io : TransactionLogStore.FilesCalls)

/-- A step of a transaction, and not of `tryClose`. -/
def SessionAction.ofTransaction : SessionAction → Bool
  | .tryClose => false
  | .closePhase _ _ => false
  | _ => true

namespace TransactionHandle

def hasPosition (h : TransactionHandle) : Bool := decide (0 < h.committedPosition.logSequenceNumber)

/-- The batch with one more entry, made on the first one. -/
def stage (h : TransactionHandle) (entry : TransactionLogEntry) : TransactionHandle :=
  let batch := h.logEntryBatch.getD ⟨h.startTimestamp, [], 0⟩
  { h with logEntryBatch := some { batch with entries := batch.entries ++ [entry] } }

/-- The handle after the gate of `close`. -/
def shut (h : TransactionHandle) : TransactionHandle :=
  { h with
    closed := true
    state := match h.state with
      | .committed => .committed
      | _ => .aborted }

/-- What the handle is after a step of its `writeBatch` call that leaves the writer at `wr`. -/
def afterWriterStep (h : TransactionHandle) (sync : Bool) (wr : Writer) : TransactionHandle :=
  let h := { h with committedPosition := wr.logPosition, logEntryBatch := some wr.batch }
  match wr.pc with
  | .returned => { h with logEntryBatch := none, pc := .written, wrote := true }
  -- the state of a `CommitSync` that throws stays `Committing`
  | .threw _ => { h with pc := if sync then .idle else .failed }
  | _ => h

end TransactionHandle

namespace Session

def setHandle (y : Session) (i : ℕ) (h : TransactionHandle) : Session := { y with handles := y.handles.set i h }

def withStore (y : Session) (s : TransactionLogStore) : Session := { y with world := { y.world with store := s } }

/-- Handle `i`, if it is not closed. -/
def live (y : Session) (i : ℕ) : Option TransactionHandle := (y.handles[i]?).filter fun h => !h.closed

/-- The bind under `transactionBindMutex`; none where it throws. -/
def bind (y : Session) (i : ℕ) (h : TransactionHandle) : Option (Session × TransactionHandle) :=
  if h.bound then some (y, h)
  else if y.world.store.isClosing then none
  else
    let s := y.world.store
    let h := { h with bound := true }
    some ((y.withStore { s with pendingTransactionCount := s.pendingTransactionCount + 1 }).setHandle i h, h)

/-- The position of the handle is given back, if it took one. -/
def giveBack (y : Session) (i : ℕ) (h : TransactionHandle)
    (decide : TransactionLogStore → LogPosition → TransactionLogStore) : Session :=
  if h.hasPosition then
    (y.withStore (decide y.world.store h.committedPosition)).setHandle i { h with decided := true }
  else y.setHandle i h

/-- `TransactionHandle::close` of a handle that is not closed. -/
def closeHandle (y : Session) (i : ℕ) (h : TransactionHandle) : Session :=
  let h := h.shut
  if h.hasPosition then
    if h.state = .committed then y.setHandle i h
    else y.giveBack i h TransactionLogStore.commitAborted
  else
    let s := y.world.store
    if h.bound ∧ !s.isClosing then
      (y.withStore { s with pendingTransactionCount := s.pendingTransactionCount - 1 }).setHandle i h
    else y.setHandle i h

/-- The head of `Commit` and `CommitSync`, up to the first step of `writeBatch`. -/
def beginCommit (y : Session) (i : ℕ) (h : TransactionHandle) (sync : Bool) : Option Session :=
  let h := { h with state := .committing }
  match h.logEntryBatch with
  | none => some (y.setHandle i { h with pc := .written })
  | some batch =>
    if y.world.busy then none
    else if y.world.store.isClosing then
      -- `writeBatch` throws before it takes a position
      some (y.setHandle i { h with pc := if sync then .idle else .failed })
    else
      some { y with
        world := RocksdbJs.beginWrite y.world batch
        writerOf := i
        handles := y.handles.set i { h with
          pc := .writing sync
          committedPosition := y.world.store.nextLogPosition
          decided := false } }

/-- A `writeBatch` call has returned: the calls of `tryClose` past phase 2 have not seen it. -/
def noteWritten (y : Session) (i : ℕ) : Session :=
  { y with closeCalls := y.closeCalls.map fun c =>
      if c.pc = .phase3 then { c with writtenSince := i :: c.writtenSince } else c }

def stepWrite (cfg : StoreConfig) (y : Session) (io : WriterCalls) : Option Session :=
  (y.handles[y.writerOf]?).bind fun h =>
    match h.pc with
    | .writing sync => (stepWriter cfg y.world io).bind fun w => w.writer.map fun wr =>
        let y := ({ y with world := w } : Session).setHandle y.writerOf (h.afterWriterStep sync wr)
        if wr.pc = .returned then y.noteWritten y.writerOf else y
    | _ => none

/-- The end of a commit after `txn->Commit()`. -/
def endCommit (y : Session) (i : ℕ) (h : TransactionHandle) (status : CommitStatus)
    (latestSequenceNumber : ℕ) : Session :=
  match status with
  | .ok => y.giveBack i { h with pc := .idle, state := .committed } (·.commitFinished · latestSequenceNumber)
  -- `resetTransaction` drops the batch and keeps the position
  | .isBusy => y.setHandle i { h with pc := .idle, state := .pending, logEntryBatch := none }
  | .error => y.giveBack i { h with pc := .idle, state := .pending } (·.commitFinished · latestSequenceNumber)

/-- Some position other than the place of the next entry is registered. -/
def hasUncommitted (s : TransactionLogStore) : Bool :=
  s.uncommittedTransactionPositions.elems.any fun p => !decide (p = s.nextLogPosition)

/-- The next phase of a `tryClose` call: the store and the directory, and the call if it goes on. -/
def closePhase (cfg : StoreConfig) (w : World) (c : CloseCall) (io : TransactionLogStore.FilesCalls) :
    Option (World × Option CloseCall) :=
  let s := w.store
  match c.pc with
  | .phase1 =>
    if s.isClosing ∨ 0 < s.pendingTransactionCount then some (w, none) else some (w, some { c with pc := .phase2 })
  | .phase2 =>
    if w.busy then none
    else if s.isClosing ∨ hasUncommitted s then some (w, none)
    else some (w, some { pc := .phase3 })
  | .phase3 =>
    if s.isClosing ∨ 0 < s.pendingTransactionCount then some (w, none)
    else some ({ w with store := { s with isClosing := true } }, some { c with pc := .phase4 })
  | .phase4 =>
    if w.busy then none
    else
      let r := s.doClose cfg w.disk io
      some ({ w with store := r.1, disk := r.2 }, none)

/-- The calls of `tryClose` after call `k` has come to `c`, or to its end. -/
def setCall (calls : List CloseCall) (k : ℕ) : Option CloseCall → List CloseCall
  | some c => calls.set k c
  | none => calls.eraseIdx k

def step (cfg : StoreConfig) (y : Session) : SessionAction → Option Session
  | .newTransaction startTimestamp => some { y with handles := y.handles ++ [{ startTimestamp := startTimestamp }] }
  | .useLog i => (y.live i).map fun h => ((y.bind i h).map Prod.fst).getD y
  | .addLogEntry i entry => (y.live i).bind fun h =>
      match h.pc with
      | .writing _ => none
      | .failed => none
      | _ =>
        if h.hasPosition then some y
        else match y.bind i h with
          | none => some y
          | some (y, h) => some (y.setHandle i (h.stage entry))
  | .commit i sync => (y.live i).bind fun h =>
      if h.pc = .idle then if h.state = .pending then y.beginCommit i h sync else some y else none
  | .writer io => y.stepWrite cfg io
  | .commitFailed i latest => (y.live i).bind fun h =>
      if h.pc = .failed then
        some (y.giveBack i { h with pc := .idle, state := .pending } (·.commitFinished · latest))
      else none
  | .commitResult i status latest => (y.live i).bind fun h =>
      if h.pc = .written then some (y.endCommit i h status latest) else none
  | .abort i => (y.live i).bind fun h =>
      if h.pc = .idle then if h.state = .pending then some (y.closeHandle i h) else some y else none
  | .close i => (y.live i).bind fun h => if h.pc = .idle then some (y.closeHandle i h) else none
  | .tryClose => if y.world.store.isClosing then some y else some { y with closeCalls := y.closeCalls ++ [{}] }
  | .closePhase k io => (y.closeCalls[k]?).bind fun c => (closePhase cfg y.world c io).map fun r =>
      { y with world := r.1, closeCalls := setCall y.closeCalls k r.2 }

/-- A store just made or loaded that no transaction has used yet. -/
def Initial (cfg : StoreConfig) (y : Session) : Prop :=
  y.handles = [] ∧ y.closeCalls = [] ∧ y.world.writer = none ∧
    (y.world.store = {} ∨ ∃ d order io, TransactionLogStore.load cfg d order io = (some y.world.store, y.world.disk))

end Session

end RocksdbJs
