import RocksdbJs.Spec.LogStore

/-! `TransactionLogStore::writeBatch` as a machine: one step for each critical
section, since commits, flushes and readers run between them. `writeMutex` is held
from the first step to the last, so a store has at most one writer. -/

namespace RocksdbJs

/-- Where the writer stands; `seq` is the number of the `logFile` it holds. -/
inductive WriterPc
  /-- At the head of the inner loop, before `getLogFile`. -/
  | getFile
  /-- Before the size check and `open`. -/
  | tryOpen (seq : ℕ)
  /-- Before the rotation of the inner loop. -/
  | rotateInner
  /-- Before the fix-up of a zero `logPosition`. -/
  | fixPosition (seq : ℕ)
  /-- Before the age check and the rotation it may cause. -/
  | checkAge (seq : ℕ)
  /-- Before `writeEntries`. -/
  | write (seq : ℕ)
  /-- Before the rotation that a write may cause. -/
  | advance (seq sizeBefore : ℕ)
  /-- Before the update of `nextLogPosition`. -/
  | setNext (seq : ℕ)
  /-- After the outer loop. -/
  | finish
  | returned
  | threw (e : DBException)
deriving DecidableEq, Repr

structure Writer where
  pc : WriterPc
  batch : TransactionLogEntryBatch
  logPosition : LogPosition

/-- One store on one directory. -/
structure World where
  store : TransactionLogStore := {}
  disk : Disk := {}
  writer : Option Writer := none

/-- The results of the system calls of one writer step. -/
structure WriterCalls where
  openCalls : OpenCalls := {}
  now : ℤ := 0
  results : List WritevResult := []

/-- The test of the outer loop. -/
def outerLoop (batch : TransactionLogEntryBatch) : WriterPc :=
  if batch.isComplete then .finish else .getFile

/-- The head of `writeBatch`: the position is registered and the timestamp raised. -/
def beginWrite (w : World) (batch : TransactionLogEntryBatch) : World :=
  if w.store.isClosing then { w with writer := some ⟨.threw .storeClosed, batch, ⟨0, 0⟩⟩ }
  else
    let logPosition := w.store.nextLogPosition
    let store := w.store.positionInsert logPosition
    { w with
      store := { store with
        latestTimestamp :=
          if Binary64.lt store.latestTimestamp batch.timestamp then batch.timestamp else store.latestTimestamp }
      writer := some ⟨outerLoop batch, batch, logPosition⟩ }

/-- The file is older than the retention threshold. -/
def tooOld (cfg : StoreConfig) (f : TransactionLogFile) (now : ℤ) : Bool :=
  match cfg.thresholdDuration with
  | none => false
  | some d => decide (d ≤ now - f.fileLastWriteTime)

/-- One step of the writer; none when it has returned, has thrown, or is blocked in `writev`. -/
def writerStep (cfg : StoreConfig) (w : World) (wr : Writer) (io : WriterCalls) : Option World :=
  let s := w.store
  match wr.pc with
  | .getFile =>
    let seq := s.currentSequenceNumber
    let r := s.getLogFile w.disk seq io.now
    some { w with store := r.1, disk := r.2, writer := some { wr with pc := .tryOpen seq } }
  | .tryOpen seq =>
    (s.sequenceFiles.get? seq).bind fun f =>
      if cfg.maxFileSize = 0 ∨ f.size < cfg.maxFileSize then
        let r := s.ensureOpen w.disk seq f io.openCalls
        some { w with
          store := r.2.1
          disk := r.2.2
          writer := some { wr with pc := if r.1.isSome then .rotateInner else .fixPosition seq } }
      else some { w with writer := some { wr with pc := .rotateInner } }
  | .rotateInner => some { w with store := s.advanceSequence, writer := some { wr with pc := .getFile } }
  | .fixPosition seq =>
    if wr.logPosition.isZero then
      some { w with
        store := (s.positionErase wr.logPosition).positionInsert s.nextLogPosition
        writer := some { wr with pc := .checkAge seq, logPosition := s.nextLogPosition } }
    else some { w with writer := some { wr with pc := .checkAge seq } }
  | .checkAge seq =>
    (s.sequenceFiles.get? seq).bind fun f =>
      if tooOld cfg f io.now then
        some { w with store := s.advanceSequence, writer := some { wr with pc := outerLoop wr.batch } }
      else some { w with writer := some { wr with pc := .write seq } }
  | .write seq =>
    (s.sequenceFiles.get? seq).bind fun f =>
      let r := f.writeEntries (w.disk.bytes seq) wr.batch cfg.maxFileSize io.results
      if r.outcome = .blocked then none
      else
        let file := if r.error.isSome then r.file else { r.file with fileLastWriteTime := io.now }
        some { w with
          store := s.setFile seq file
          disk := { w.disk with logs := w.disk.logs.set seq r.bytes }
          writer := some { wr with
            batch := r.batch
            pc := match r.error with
              | some e => .threw e
              | none => .advance seq f.size } }
  | .advance seq sizeBefore =>
    (s.sequenceFiles.get? seq).bind fun f =>
      if f.size = sizeBefore ∨ (0 < cfg.maxFileSize ∧ cfg.maxFileSize ≤ f.size) ∨ !wr.batch.isComplete then
        some { w with store := s.advanceSequence, writer := some { wr with pc := .setNext seq } }
      else some { w with writer := some { wr with pc := .setNext seq } }
  | .setNext seq =>
    (s.sequenceFiles.get? seq).bind fun f =>
      some { w with
        store := { s with nextLogPosition := ⟨f.size, s.currentSequenceNumber⟩ }
        writer := some { wr with pc := outerLoop wr.batch } }
  | .finish =>
    let s := s.positionInsert s.nextLogPosition
    some { w with
      store := { s with pendingTransactionCount := s.pendingTransactionCount - 1 }
      writer := some { wr with pc := .returned } }
  | .returned => none
  | .threw _ => none

/-- The writer's machine on its own: `writeBatch` with nothing in between. -/
def stepWriter (cfg : StoreConfig) (w : World) (io : WriterCalls) : Option World :=
  w.writer.bind fun wr => writerStep cfg w wr io

end RocksdbJs
