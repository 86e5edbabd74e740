import Mathlib.Logic.Relation
import RocksdbJs.Proofs.BatchLimits

/-! When `writeBatch` comes to an end. Its loops only ever go on with the next file number, and
nothing but the files themselves can end them: each is skipped when it is full, does not open or is
too old, and takes what fits otherwise. So the call ends exactly when the files it comes to take
the batch, and no limit, no age and no failing `open` ends it before. -/

namespace RocksdbJs

open TransactionLogStore

/-- The results of the system calls of one `writeBatch`, by the number of the file they are for.
The loops come to each file once. -/
structure FileAnswers where
  openCalls : ℕ → OpenCalls
  /-- The clock at the file's age check. -/
  now : ℕ → ℤ
  results : ℕ → List WritevResult

/-- The file that a step is about. -/
def WriterPc.file (current : ℕ) : WriterPc → ℕ
  | .tryOpen seq => seq
  | .fixPosition seq => seq
  | .checkAge seq => seq
  | .write seq => seq
  | .advance seq _ => seq
  | .setNext seq => seq
  | _ => current

def FileAnswers.calls (io : FileAnswers) (w : World) (wr : Writer) : WriterCalls :=
  let seq := wr.pc.file w.store.currentSequenceNumber
  ⟨io.openCalls seq, io.now seq, io.results seq⟩

/-- The writer's next step. -/
def Moves (cfg : StoreConfig) (io : FileAnswers) (w w' : World) : Prop :=
  ∃ wr, w.writer = some wr ∧ writerStep cfg w wr (io.calls w wr) = some w'

/-- The call has returned or thrown. -/
def Ended (w : World) : Prop := ∃ wr, w.writer = some wr ∧ (wr.pc = .returned ∨ ∃ e, wr.pc = .threw e)

def Ends (cfg : StoreConfig) (io : FileAnswers) (w : World) : Prop :=
  ∃ w', Relation.ReflTransGen (Moves cfg io) w w' ∧ Ended w'

/-- No `writev` of the batch's entries waits for ever. -/
def Answering (results : ℕ → List WritevResult) (batch : TransactionLogEntryBatch) : Prop :=
  ∀ seq (b : TransactionLogEntryBatch) n, b.entries = batch.entries →
    (writeBatchToFile (results seq) ((b.nextRecords n).map LogRecord.frame) 0).2 ≠ .blocked

/-- `writeBatch` ends, whatever the writes come to. -/
def WriteBatchEnds (cfg : StoreConfig) (w : World) (batch : TransactionLogEntryBatch)
    (openCalls : ℕ → OpenCalls) (now : ℕ → ℤ) :
    Prop :=
  ∀ results, Answering results batch → Ends cfg ⟨openCalls, now, results⟩ (beginWrite w batch)

section
variable (cfg : StoreConfig) (w : World) (openCalls : ℕ → OpenCalls) (now : ℕ → ℤ)

/-- The numbers of the files in the order in which the loops come to them. -/
def TransactionLogStore.fileNumber (s : TransactionLogStore) : ℕ → ℕ
  | 0 => s.currentSequenceNumber
  | n + 1 => s.nextSequenceNumber + n

/-- The file below the limit, if it is open or opens. -/
def openedFile (seq : ℕ) : Option TransactionLogFile :=
  let f := (w.store.sequenceFiles.get? seq).getD { sequenceNumber := seq, fileLastWriteTime := now seq }
  if cfg.maxFileSize = 0 ∨ f.size < cfg.maxFileSize then
    if f.isOpen then some f
    else
      let r := f.open (w.disk.logs.get? seq) w.store.latestTimestamp (openCalls seq)
      if r.1.isSome then none else some r.2.1
  else none

/-- The same, if it is not too old as well. -/
def usableFile (seq : ℕ) : Option TransactionLogFile :=
  (openedFile cfg w openCalls now seq).filter fun f => !tooOld cfg f (now seq)

/-- How many of the entries a file takes. -/
def TransactionLogFile.takes (f : TransactionLogFile) (maxFileSize : ℕ) (es : List TransactionLogEntry) : ℕ :=
  if 0 < maxFileSize then
    if maxFileSize ≤ f.size then 0 else countFitting f.size (maxFileSize - f.size) 0 true es
  else es.length

/-- What the first `n` files leave of the entries. -/
def leftOver (es : List TransactionLogEntry) : ℕ → List TransactionLogEntry
  | 0 => es
  | n + 1 =>
    match usableFile cfg w openCalls now (w.store.fileNumber n) with
    | some f => (leftOver es n).drop (f.takes cfg.maxFileSize (leftOver es n))
    | none => leftOver es n

/-- The files have room for all the entries, or there is one that cannot be written. -/
def RoomForAll (es : List TransactionLogEntry) : Prop :=
  ∃ n, leftOver cfg w openCalls now es n = [] ∨
    ∃ f, usableFile cfg w openCalls now (w.store.fileNumber n) = some f ∧ f.version ≠ 1

end

theorem fileNumber_lt {s : TransactionLogStore} (h : s.currentSequenceNumber < s.nextSequenceNumber)
    {m n : ℕ} (hmn : m < n) :
    s.fileNumber m < s.fileNumber n := by
  cases m with
  | zero =>
    cases n with
    | zero => omega
    | succ n =>
      simp only [fileNumber]
      omega
  | succ m =>
    cases n with
    | zero => omega
    | succ n =>
      simp only [fileNumber]
      omega

theorem numEntriesToWrite_takes (f : TransactionLogFile) (batch : TransactionLogEntryBatch) (maxFileSize : ℕ) :
    f.numEntriesToWrite batch maxFileSize = f.takes maxFileSize batch.pending := by
  rw [TransactionLogFile.numEntriesToWrite, TransactionLogFile.takes, TransactionLogEntryBatch.pending,
    List.length_drop]

theorem isComplete_iff_pending (b : TransactionLogEntryBatch) : b.isComplete = true ↔ b.pending = [] := by
  rw [TransactionLogEntryBatch.isComplete, decide_eq_true_iff, TransactionLogEntryBatch.pending, List.drop_eq_nil_iff]

theorem outerLoop_cases (b : TransactionLogEntryBatch) :
    (b.pending = [] ∧ outerLoop b = .finish) ∨ (b.pending ≠ [] ∧ outerLoop b = .getFile) := by
  by_cases h : b.pending = []
  · exact Or.inl ⟨h, if_pos ((isComplete_iff_pending b).mpr h)⟩
  · exact Or.inr ⟨h, if_neg fun hc => h ((isComplete_iff_pending b).mp hc)⟩

/-- The writer is at the `n`-th file, and those that it has not come to are as they were. -/
structure Visiting (w0 : World) (n : ℕ) (w : World) : Prop where
  current : w.store.currentSequenceNumber = w0.store.fileNumber n
  next : w.store.nextSequenceNumber = w0.store.nextSequenceNumber + n
  latest : w.store.latestTimestamp = w0.store.latestTimestamp
  files : ∀ m, n < m → w.store.sequenceFiles.get? (w0.store.fileNumber m) =
    w0.store.sequenceFiles.get? (w0.store.fileNumber m)
  logs : ∀ m, n < m → w.disk.logs.get? (w0.store.fileNumber m) = w0.disk.logs.get? (w0.store.fileNumber m)

/-- So is the `n`-th one. -/
structure Intact (w0 : World) (n : ℕ) (w : World) : Prop extends Visiting w0 n w where
  file : w.store.sequenceFiles.get? (w0.store.fileNumber n) = w0.store.sequenceFiles.get? (w0.store.fileNumber n)
  log : w.disk.logs.get? (w0.store.fileNumber n) = w0.disk.logs.get? (w0.store.fileNumber n)

/-- The rotation moves on to the next file. -/
theorem Visiting.advance {w0 w w' : World} {n : ℕ} (h : Visiting w0 n w) (hs : w'.store = w.store.advanceSequence)
    (hd : w'.disk = w.disk) : Intact w0 (n + 1) w' := by
  have hnumber : w.store.nextSequenceNumber = w0.store.fileNumber (n + 1) := h.next
  refine ⟨⟨?_, ?_, ?_, fun m hm => ?_, fun m hm => ?_⟩, ?_, ?_⟩
  · rw [hs]
    exact hnumber
  · rw [hs]
    change w.store.nextSequenceNumber + 1 = _
    rw [h.next, Nat.add_assoc]
  · rw [hs]
    exact h.latest
  · rw [hs]
    exact h.files m (by omega)
  · rw [hd]
    exact h.logs m (by omega)
  · rw [hs]
    exact h.files (n + 1) (by omega)
  · rw [hd]
    exact h.logs (n + 1) (by omega)

/-- A step that changes no file but the `n`-th one stays there. -/
theorem Visiting.congr {w0 w w' : World} {n : ℕ} (h : Visiting w0 n w)
    (hlt : w0.store.currentSequenceNumber < w0.store.nextSequenceNumber)
    (hc : w'.store.currentSequenceNumber = w.store.currentSequenceNumber)
    (hn : w'.store.nextSequenceNumber = w.store.nextSequenceNumber)
    (hl : w'.store.latestTimestamp = w.store.latestTimestamp)
    (hf : ∀ q, q ≠ w0.store.fileNumber n → w'.store.sequenceFiles.get? q = w.store.sequenceFiles.get? q)
    (hd : ∀ q, q ≠ w0.store.fileNumber n → w'.disk.logs.get? q = w.disk.logs.get? q) : Visiting w0 n w' := by
  refine ⟨hc.trans h.current, hn.trans h.next, hl.trans h.latest, fun m hm => ?_, fun m hm => ?_⟩
  · rw [hf _ (fileNumber_lt hlt hm).ne', h.files m hm]
  · rw [hd _ (fileNumber_lt hlt hm).ne', h.logs m hm]

section
variable (cfg : StoreConfig) (w0 : World) (io : FileAnswers) (batch : TransactionLogEntryBatch)

/-- What the first `k` files leave is what the batch still has, and all that were used could be written. -/
structure Remaining (k : ℕ) (wr : Writer) : Prop where
  entries : wr.batch.entries = batch.entries
  pending : wr.batch.pending = leftOver cfg w0 io.openCalls io.now batch.pending k
  passed : ∀ m < k, ∀ f, usableFile cfg w0 io.openCalls io.now (w0.store.fileNumber m) = some f → f.version = 1

/-- Where the writer stands at the `n`-th file. -/
def Standing (n : ℕ) (w : World) (wr : Writer) : Prop :=
  match wr.pc with
  | .getFile => Intact w0 n w ∧ Remaining cfg w0 io batch n wr ∧ wr.batch.pending ≠ []
  | .tryOpen seq =>
    seq = w0.store.fileNumber n ∧ Visiting w0 n w ∧ Remaining cfg w0 io batch n wr ∧ wr.batch.pending ≠ [] ∧
      w.store.sequenceFiles.get? seq =
        some ((w0.store.sequenceFiles.get? seq).getD { sequenceNumber := seq, fileLastWriteTime := io.now seq }) ∧
      w.disk.logs.get? seq = w0.disk.logs.get? seq
  | .rotateInner => Visiting w0 n w ∧ Remaining cfg w0 io batch n wr ∧ wr.batch.pending ≠ [] ∧
      openedFile cfg w0 io.openCalls io.now (w0.store.fileNumber n) = none
  | .fixPosition seq =>
    seq = w0.store.fileNumber n ∧ Visiting w0 n w ∧ Remaining cfg w0 io batch n wr ∧ wr.batch.pending ≠ [] ∧
      ∃ f, openedFile cfg w0 io.openCalls io.now seq = some f ∧ w.store.sequenceFiles.get? seq = some f
  | .checkAge seq =>
    seq = w0.store.fileNumber n ∧ Visiting w0 n w ∧ Remaining cfg w0 io batch n wr ∧ wr.batch.pending ≠ [] ∧
      ∃ f, openedFile cfg w0 io.openCalls io.now seq = some f ∧ w.store.sequenceFiles.get? seq = some f
  | .write seq =>
    seq = w0.store.fileNumber n ∧ Visiting w0 n w ∧ Remaining cfg w0 io batch n wr ∧ wr.batch.pending ≠ [] ∧
      ∃ f, usableFile cfg w0 io.openCalls io.now seq = some f ∧ w.store.sequenceFiles.get? seq = some f
  | .advance seq _ =>
    Visiting w0 n w ∧ Remaining cfg w0 io batch (n + 1) wr ∧ ∃ f, w.store.sequenceFiles.get? seq = some f
  | .setNext seq => Remaining cfg w0 io batch (n + 1) wr ∧ (∃ f, w.store.sequenceFiles.get? seq = some f) ∧
      (wr.batch.pending ≠ [] → Intact w0 (n + 1) w)
  | .finish => ∃ k, leftOver cfg w0 io.openCalls io.now batch.pending k = []
  | .returned => ∃ k, leftOver cfg w0 io.openCalls io.now batch.pending k = []
  | .threw _ =>
    (∃ k f, usableFile cfg w0 io.openCalls io.now (w0.store.fileNumber k) = some f ∧ f.version ≠ 1) ∨
      ∃ seq, ∃ b : TransactionLogEntryBatch, ∃ k, b.entries = batch.entries ∧
        failsEarly (io.results seq) ((b.nextRecords k).map LogRecord.frame) = true

end

/-- The places of one visit in their order, counted down. -/
def WriterPc.toGo : WriterPc → ℕ
  | .getFile => 9
  | .tryOpen _ => 8
  | .rotateInner => 7
  | .fixPosition _ => 7
  | .checkAge _ => 6
  | .write _ => 5
  | .advance _ _ => 4
  | .setNext _ => 3
  | .finish => 2
  | .returned => 1
  | .threw _ => 1

section
variable {cfg : StoreConfig} {w0 w : World} {io : FileAnswers} {batch : TransactionLogEntryBatch} {n : ℕ} {wr : Writer}

/-- The writer goes on, with the same file or with the next one. -/
def GoesOnFrom (cfg : StoreConfig) (w0 : World) (io : FileAnswers) (batch : TransactionLogEntryBatch)
    (n : ℕ) (w : World) (wr : Writer) : Prop :=
  ∃ w' wr', writerStep cfg w wr (io.calls w wr) = some w' ∧ w'.writer = some wr' ∧
    ((Standing cfg w0 io batch n w' wr' ∧ wr'.pc.toGo < wr.pc.toGo) ∨
      (Standing cfg w0 io batch (n + 1) w' wr' ∧ leftOver cfg w0 io.openCalls io.now batch.pending n ≠ [] ∧
        ∀ m < n, ∀ f, usableFile cfg w0 io.openCalls io.now (w0.store.fileNumber m) = some f → f.version = 1))

theorem leftOver_skip (es : List TransactionLogEntry)
    (h : usableFile cfg w0 io.openCalls io.now (w0.store.fileNumber n) = none) :
    leftOver cfg w0 io.openCalls io.now es (n + 1) = leftOver cfg w0 io.openCalls io.now es n := by
  rw [leftOver, h]

theorem leftOver_take (es : List TransactionLogEntry) {f : TransactionLogFile}
    (h : usableFile cfg w0 io.openCalls io.now (w0.store.fileNumber n) = some f) :
    leftOver cfg w0 io.openCalls io.now es (n + 1) =
      (leftOver cfg w0 io.openCalls io.now es n).drop
        (f.takes cfg.maxFileSize (leftOver cfg w0 io.openCalls io.now es n)) := by
  rw [leftOver, h]

theorem leftOver_nil {es : List TransactionLogEntry} (h : leftOver cfg w0 io.openCalls io.now es n = []) :
    leftOver cfg w0 io.openCalls io.now es (n + 1) = [] := by
  rw [leftOver, h]
  split
  · exact List.drop_nil
  · rfl

theorem leftOver_nil_of_le {es : List TransactionLogEntry} {m : ℕ}
    (h : leftOver cfg w0 io.openCalls io.now es n = []) (hnm : n ≤ m) :
    leftOver cfg w0 io.openCalls io.now es m = [] := by
  induction m, hnm using Nat.le_induction with
  | base => exact h
  | succ m _ ih => exact leftOver_nil ih

/-- A file that is not used leaves everything. -/
theorem Remaining.skip (h : Remaining cfg w0 io batch n wr)
    (hnone : usableFile cfg w0 io.openCalls io.now (w0.store.fileNumber n) = none) {pc : WriterPc} :
    Remaining cfg w0 io batch (n + 1) { wr with pc := pc } := by
  refine ⟨h.entries, h.pending.trans (leftOver_skip _ hnone).symm, fun m hm f hf => ?_⟩
  rcases Nat.lt_succ_iff_lt_or_eq.mp hm with hlt | rfl
  · exact h.passed m hlt f hf
  · rw [hnone] at hf
    cases hf

theorem Remaining.congr {wr' : Writer} (h : Remaining cfg w0 io batch n wr) (hb : wr'.batch = wr.batch) :
    Remaining cfg w0 io batch n wr' :=
  ⟨by rw [hb]; exact h.entries, by rw [hb]; exact h.pending, h.passed⟩

section
variable (hlt : w0.store.currentSequenceNumber < w0.store.nextSequenceNumber)
include hlt

theorem visit_getFile (hpc : wr.pc = .getFile) (h : Standing cfg w0 io batch n w wr) :
    GoesOnFrom cfg w0 io batch n w wr := by
  simp only [Standing, hpc] at h
  obtain ⟨hu, hr, hne⟩ := h
  have hseq := hu.current
  have hnow : (io.calls w wr).now = io.now (w0.store.fileNumber n) := by
    rw [FileAnswers.calls, hpc]
    exact congrArg io.now hseq
  refine ⟨_, _, by simp only [writerStep, hpc]; rfl, rfl, Or.inl ⟨?_, by simp [WriterPc.toGo, hpc]⟩⟩
  simp only [Standing, hseq, hnow]
  refine ⟨trivial, ?_, hr.congr rfl, hne, ?_, ?_⟩
  · unfold getLogFile
    cases hg : w.store.sequenceFiles.get? (w0.store.fileNumber n) with
    | some f => exact hu.toVisiting.congr hlt rfl rfl rfl (fun _ _ => rfl) fun _ _ => rfl
    | none => exact hu.toVisiting.congr hlt rfl rfl rfl (fun q hq => SeqMap.get?_set_ne _ hq _) fun _ _ => rfl
  · rw [← hu.file]
    unfold getLogFile
    cases hg : w.store.sequenceFiles.get? (w0.store.fileNumber n) with
    | some f => exact hg
    | none => exact SeqMap.get?_set_self _ _ _
  · rw [← hu.log]
    unfold getLogFile
    cases hg : w.store.sequenceFiles.get? (w0.store.fileNumber n) with
    | some f => rfl
    | none => rfl

theorem visit_tryOpen {seq : ℕ} (hpc : wr.pc = .tryOpen seq) (h : Standing cfg w0 io batch n w wr) :
    GoesOnFrom cfg w0 io batch n w wr := by
  simp only [Standing, hpc] at h
  obtain ⟨rfl, hv, hr, hne, hfile, hlog⟩ := h
  set f := (w0.store.sequenceFiles.get? (w0.store.fileNumber n)).getD
    { sequenceNumber := w0.store.fileNumber n, fileLastWriteTime := io.now (w0.store.fileNumber n) } with hf
  have hcalls : (io.calls w wr).openCalls = io.openCalls (w0.store.fileNumber n) := by
    rw [FileAnswers.calls, hpc]
    rfl
  by_cases hroom : cfg.maxFileSize = 0 ∨ f.size < cfg.maxFileSize
  swap
  · refine ⟨_, _, by simp only [writerStep, hpc, hfile, Option.bind_some, if_neg hroom]; rfl, rfl,
      Or.inl ⟨?_, by simp [WriterPc.toGo, hpc]⟩⟩
    refine ⟨hv.congr hlt rfl rfl rfl (fun _ _ => rfl) fun _ _ => rfl, hr.congr rfl, hne, ?_⟩
    rw [openedFile]
    exact if_neg hroom
  by_cases hopen : f.isOpen = true
  · have hensure : w.store.ensureOpen w.disk (w0.store.fileNumber n) f (io.calls w wr).openCalls =
        (none, w.store, w.disk) := if_pos hopen
    refine ⟨_, _, by simp only [writerStep, hpc, hfile, Option.bind_some, if_pos hroom, hensure]; rfl, rfl,
      Or.inl ⟨?_, by simp [WriterPc.toGo, hpc]⟩⟩
    refine ⟨rfl, hv.congr hlt rfl rfl rfl (fun _ _ => rfl) fun _ _ => rfl, hr.congr rfl, hne, f, ?_, hfile⟩
    rw [openedFile]
    exact (if_pos hroom).trans (if_pos hopen)
  · set r := f.open (w0.disk.logs.get? (w0.store.fileNumber n)) w0.store.latestTimestamp
      (io.openCalls (w0.store.fileNumber n)) with hrr
    have hopened : openedFile cfg w0 io.openCalls io.now (w0.store.fileNumber n) = if r.1.isSome then none
        else some r.2.1 := by
      rw [openedFile]
      exact (if_pos hroom).trans (if_neg hopen)
    set d := (w.store.openLogFile w.disk (w0.store.fileNumber n) f (io.openCalls (w0.store.fileNumber n))).2.2 with hd
    have hopens : f.open (w.disk.logs.get? (w0.store.fileNumber n)) w.store.latestTimestamp
        (io.openCalls (w0.store.fileNumber n)) = r := by
      rw [hlog, hv.latest]
    have hensure : w.store.ensureOpen w.disk (w0.store.fileNumber n) f (io.calls w wr).openCalls =
        (r.1, w.store.setFile (w0.store.fileNumber n) r.2.1, d) := by
      rw [ensureOpen, if_neg hopen, hcalls, hd]
      simp only [openLogFile, hopens]
    have hv' : ∀ wr', Visiting w0 n { w with store := w.store.setFile (w0.store.fileNumber n) r.2.1,
                                             disk := d, writer := wr' } := by
      intro wr'
      refine hv.congr hlt rfl rfl rfl (fun q hq => SeqMap.get?_set_ne _ hq _) fun q hq => ?_
      simp only [hd, openLogFile, hopens]
      cases r.2.2 with
      | none => rfl
      | some bytes => exact SeqMap.get?_set_ne _ hq _
    cases hthrew : r.1 with
    | some e =>
      rw [hthrew] at hopened hensure
      refine ⟨_, _, by simp only [writerStep, hpc, hfile, Option.bind_some, if_pos hroom, hensure]; rfl, rfl,
        Or.inl ⟨?_, by simp [WriterPc.toGo, hpc]⟩⟩
      exact ⟨hv' _, hr.congr rfl, hne, hopened⟩
    | none =>
      rw [hthrew] at hopened hensure
      refine ⟨_, _, by simp only [writerStep, hpc, hfile, Option.bind_some, if_pos hroom, hensure]; rfl, rfl,
        Or.inl ⟨?_, by simp [WriterPc.toGo, hpc]⟩⟩
      exact ⟨rfl, hv' _, hr.congr rfl, hne, r.2.1, hopened, SeqMap.get?_set_self _ _ _⟩

theorem visit_fixPosition {seq : ℕ} (hpc : wr.pc = .fixPosition seq) (h : Standing cfg w0 io batch n w wr) :
    GoesOnFrom cfg w0 io batch n w wr := by
  simp only [Standing, hpc] at h
  obtain ⟨rfl, hv, hr, hne, f, hopened, hfile⟩ := h
  by_cases hzero : wr.logPosition.isZero = true
  · refine ⟨_, _, by simp only [writerStep, hpc, if_pos hzero]; rfl, rfl, Or.inl ⟨?_, by simp [WriterPc.toGo, hpc]⟩⟩
    exact ⟨rfl, hv.congr hlt rfl rfl rfl (fun _ _ => rfl) fun _ _ => rfl, hr.congr rfl, hne, f, hopened, hfile⟩
  · refine ⟨_, _, by simp only [writerStep, hpc, if_neg hzero]; rfl, rfl, Or.inl ⟨?_, by simp [WriterPc.toGo, hpc]⟩⟩
    exact ⟨rfl, hv.congr hlt rfl rfl rfl (fun _ _ => rfl) fun _ _ => rfl, hr.congr rfl, hne, f, hopened, hfile⟩

end

theorem visit_rotateInner (hpc : wr.pc = .rotateInner) (h : Standing cfg w0 io batch n w wr) :
    GoesOnFrom cfg w0 io batch n w wr := by
  simp only [Standing, hpc] at h
  obtain ⟨hv, hr, hne, hopened⟩ := h
  have hnone : usableFile cfg w0 io.openCalls io.now (w0.store.fileNumber n) = none := by rw [usableFile, hopened]; rfl
  refine ⟨_, _, by simp only [writerStep, hpc]; rfl, rfl, Or.inr ⟨?_, hr.pending ▸ hne, hr.passed⟩⟩
  exact ⟨hv.advance rfl rfl, hr.skip hnone, hne⟩

theorem visit_checkAge {seq : ℕ} (hlt : w0.store.currentSequenceNumber < w0.store.nextSequenceNumber)
    (hpc : wr.pc = .checkAge seq) (h : Standing cfg w0 io batch n w wr) :
    GoesOnFrom cfg w0 io batch n w wr := by
  simp only [Standing, hpc] at h
  obtain ⟨rfl, hv, hr, hne, f, hopened, hfile⟩ := h
  have hnow : (io.calls w wr).now = io.now (w0.store.fileNumber n) := by
    rw [FileAnswers.calls, hpc]
    rfl
  by_cases hold : tooOld cfg f (io.now (w0.store.fileNumber n)) = true
  · have hnone : usableFile cfg w0 io.openCalls io.now (w0.store.fileNumber n) = none := by
      rw [usableFile, hopened]
      exact Option.filter_some_neg (by rw [hold]; decide)
    have hpc' : outerLoop wr.batch = .getFile := ((outerLoop_cases wr.batch).resolve_left fun h => hne h.1).2
    refine ⟨_, _, by simp only [writerStep, hpc, hfile, Option.bind_some, hnow, if_pos hold, hpc']; rfl, rfl,
      Or.inr ⟨?_, hr.pending ▸ hne, hr.passed⟩⟩
    exact ⟨hv.advance rfl rfl, hr.skip hnone, hne⟩
  · have husable : usableFile cfg w0 io.openCalls io.now (w0.store.fileNumber n) = some f := by
      rw [usableFile, hopened]
      exact Option.filter_some_pos (by rw [Bool.eq_false_iff.mpr hold]; rfl)
    refine ⟨_, _, by simp only [writerStep, hpc, hfile, Option.bind_some, hnow, if_neg hold]; rfl, rfl,
      Or.inl ⟨?_, by simp [WriterPc.toGo, hpc]⟩⟩
    exact ⟨rfl, hv.congr hlt rfl rfl rfl (fun _ _ => rfl) fun _ _ => rfl, hr.congr rfl, hne, f, husable, hfile⟩

theorem visit_advance {seq sizeBefore : ℕ} (hpc : wr.pc = .advance seq sizeBefore)
    (h : Standing cfg w0 io batch n w wr) :
    GoesOnFrom cfg w0 io batch n w wr := by
  simp only [Standing, hpc] at h
  obtain ⟨hv, hr, f, hfile⟩ := h
  by_cases hrotate : f.size = sizeBefore ∨ (0 < cfg.maxFileSize ∧ cfg.maxFileSize ≤ f.size) ∨ !wr.batch.isComplete
  · refine ⟨_, _, by simp only [writerStep, hpc, hfile, Option.bind_some, if_pos hrotate]; rfl, rfl,
      Or.inl ⟨?_, by simp [WriterPc.toGo, hpc]⟩⟩
    exact ⟨hr.congr rfl, ⟨f, hfile⟩, fun _ => hv.advance rfl rfl⟩
  · -- without a rotation the batch is complete
    refine ⟨_, _, by simp only [writerStep, hpc, hfile, Option.bind_some, if_neg hrotate]; rfl, rfl,
      Or.inl ⟨?_, by simp [WriterPc.toGo, hpc]⟩⟩
    refine ⟨hr.congr rfl, ⟨f, hfile⟩, fun hne => absurd ?_ hne⟩
    rw [not_or, not_or, Bool.not_eq_true, Bool.not_eq_false'] at hrotate
    exact (isComplete_iff_pending _).mp hrotate.2.2

theorem visit_setNext {seq : ℕ} (hpc : wr.pc = .setNext seq) (h : Standing cfg w0 io batch n w wr) :
    GoesOnFrom cfg w0 io batch n w wr := by
  simp only [Standing, hpc] at h
  obtain ⟨hr, ⟨f, hfile⟩, hu⟩ := h
  rcases outerLoop_cases wr.batch with ⟨hnil, hpc'⟩ | ⟨hne, hpc'⟩
  · refine ⟨_, _, by simp only [writerStep, hpc, hfile, Option.bind_some, hpc']; rfl, rfl,
      Or.inl ⟨?_, by simp [WriterPc.toGo, hpc]⟩⟩
    exact ⟨n + 1, hr.pending ▸ hnil⟩
  · refine ⟨_, _, by simp only [writerStep, hpc, hfile, Option.bind_some, hpc']; rfl, rfl, Or.inr ⟨?_, ?_, ?_⟩⟩
    · have hun := hu hne
      exact ⟨⟨⟨hun.current, hun.next, hun.latest, hun.files, hun.logs⟩, hun.file, hun.log⟩, hr.congr rfl, hne⟩
    · intro hnil
      rw [hr.pending, leftOver_nil hnil] at hne
      exact hne rfl
    · exact fun m hm => hr.passed m (by omega)

theorem visit_write {seq : ℕ} (hlt : w0.store.currentSequenceNumber < w0.store.nextSequenceNumber)
    (hanswers : Answering io.results batch) (hpc : wr.pc = .write seq) (h : Standing cfg w0 io batch n w wr) :
    GoesOnFrom cfg w0 io batch n w wr := by
  simp only [Standing, hpc] at h
  obtain ⟨rfl, hv, hr, hne, f, husable, hfile⟩ := h
  have hresults : (io.calls w wr).results = io.results (w0.store.fileNumber n) := by
    rw [FileAnswers.calls, hpc]
    rfl
  have hreturns : (f.writeEntries (w.disk.bytes (w0.store.fileNumber n)) wr.batch cfg.maxFileSize
    (io.results (w0.store.fileNumber n))).outcome ≠
      .blocked := writeEntries_returns (hanswers _ _ _ hr.entries)
  have hstep : ∃ w' wr', writerStep cfg w wr (io.calls w wr) = some w' ∧ w'.writer = some wr' ∧ Visiting w0 n w' ∧
      (∃ g, w'.store.sequenceFiles.get? (w0.store.fileNumber n) = some g) ∧
      wr'.batch = (f.writeEntries (w.disk.bytes (w0.store.fileNumber n)) wr.batch cfg.maxFileSize
        (io.results (w0.store.fileNumber n))).batch ∧
      (∀ e, (f.writeEntries (w.disk.bytes (w0.store.fileNumber n)) wr.batch cfg.maxFileSize
        (io.results (w0.store.fileNumber n))).error = some e → wr'.pc = .threw e) ∧
      ((f.writeEntries (w.disk.bytes (w0.store.fileNumber n)) wr.batch cfg.maxFileSize
        (io.results (w0.store.fileNumber n))).error = none → wr'.pc = .advance (w0.store.fileNumber n) f.size) := by
    refine ⟨_, _, by simp only [writerStep, hpc, hfile, Option.bind_some, hresults, if_neg hreturns]; rfl, rfl, ?_,
      ⟨_, SeqMap.get?_set_self _ _ _⟩, rfl, fun e he => ?_, fun he => ?_⟩
    · exact hv.congr hlt rfl rfl rfl (fun q hq => SeqMap.get?_set_ne _ hq _) fun q hq => SeqMap.get?_set_ne _ hq _
    · simp only [he]
    · simp only [he]
  obtain ⟨w', wr', hstep, hwr', hv', hfile', hbatch, hthrew, hadvance⟩ := hstep
  refine ⟨w', wr', hstep, hwr', Or.inl ?_⟩
  -- the entries that the file takes are gone from the batch
  have htaken : ∀ b : TransactionLogEntryBatch, f.version = 1 →
      b = wr.batch.advanced (f.numEntriesToWrite wr.batch cfg.maxFileSize) → wr'.batch = b →
        Remaining cfg w0 io batch (n + 1) wr' := by
    rintro b hversion rfl hb
    refine ⟨by rw [hb]; exact hr.entries, ?_, fun m hm g hg => ?_⟩
    · rw [hb, pending_advanced, numEntriesToWrite_takes, hr.pending, leftOver_take _ husable]
    · rcases Nat.lt_succ_iff_lt_or_eq.mp hm with hm | rfl
      · exact hr.passed m hm g hg
      · rw [husable] at hg
        exact Option.some.inj hg ▸ hversion
  rcases writeEntries_cases f (w.disk.bytes (w0.store.fileNumber n)) wr.batch cfg.maxFileSize
    (io.results (w0.store.fileNumber n)) hreturns with
    ⟨hversion, hres⟩ | ⟨hversion, hzero, hres⟩ | ⟨hversion, -, hfails, part, -, hres⟩ | ⟨hversion, -, -, hres⟩
  · rw [hres] at hthrew
    simp only [Standing, hthrew _ rfl, hpc, WriterPc.toGo]
    exact ⟨Or.inl ⟨n, f, husable, hversion⟩, by decide⟩
  · rw [hres] at hadvance hbatch
    simp only [Standing, hadvance rfl, hpc, WriterPc.toGo]
    refine ⟨⟨hv', htaken wr.batch hversion ?_ hbatch, hfile'⟩, by decide⟩
    rw [hzero]
    rfl
  · rw [hres] at hthrew
    simp only [Standing, hthrew _ rfl, hpc, WriterPc.toGo]
    exact ⟨Or.inr ⟨_, wr.batch, _, hr.entries, hfails⟩, by decide⟩
  · rw [hres] at hadvance hbatch
    simp only [Standing, hadvance rfl, hpc, WriterPc.toGo]
    exact ⟨⟨hv', htaken _ hversion rfl hbatch, hfile'⟩, by decide⟩

theorem visit_finish (hpc : wr.pc = .finish) (h : Standing cfg w0 io batch n w wr) :
    GoesOnFrom cfg w0 io batch n w wr := by
  simp only [Standing, hpc] at h
  refine ⟨_, _, by simp only [writerStep, hpc]; rfl, rfl, Or.inl ⟨?_, by simp [WriterPc.toGo, hpc]⟩⟩
  exact h

/-- Until the call ends there is a next step. -/
theorem Standing.goesOn (h : Standing cfg w0 io batch n w wr)
    (hlt : w0.store.currentSequenceNumber < w0.store.nextSequenceNumber)
    (hanswers : Answering io.results batch) (hbusy : ¬ (wr.pc = .returned ∨ ∃ e, wr.pc = .threw e)) :
    GoesOnFrom cfg w0 io batch n w wr := by
  cases hpc : wr.pc with
  | getFile => exact visit_getFile hlt hpc h
  | tryOpen seq => exact visit_tryOpen hlt hpc h
  | rotateInner => exact visit_rotateInner hpc h
  | fixPosition seq => exact visit_fixPosition hlt hpc h
  | checkAge seq => exact visit_checkAge hlt hpc h
  | write seq => exact visit_write hlt hanswers hpc h
  | advance seq sizeBefore => exact visit_advance hpc h
  | setNext seq => exact visit_setNext hpc h
  | finish => exact visit_finish hpc h
  | returned => exact absurd (Or.inl hpc) hbusy
  | threw e => exact absurd (Or.inr ⟨e, hpc⟩) hbusy

/-- With room for all the entries the call ends, at the latest at the file that takes the last one. -/
theorem Standing.ends (hlt : w0.store.currentSequenceNumber < w0.store.nextSequenceNumber)
    (hanswers : Answering io.results batch) {last : ℕ}
    (hlast : leftOver cfg w0 io.openCalls io.now batch.pending last = [] ∨
      ∃ f, usableFile cfg w0 io.openCalls io.now (w0.store.fileNumber last) = some f ∧ f.version ≠ 1)
    {k : ℕ} (h : Standing cfg w0 io batch n w wr) (hwr : w.writer = some wr)
    (hk : 10 * (last + 1 - n) + wr.pc.toGo ≤ k) :
    Ends cfg io w := by
  induction k generalizing n w wr with
  | zero => cases hpc : wr.pc <;> simp [hpc, WriterPc.toGo] at hk
  | succ k ih =>
    by_cases hend : wr.pc = .returned ∨ ∃ e, wr.pc = .threw e
    · exact ⟨w, .refl, wr, hwr, hend⟩
    obtain ⟨w', wr', hstep, hwr', hcase⟩ := h.goesOn hlt hanswers hend
    have hmove : Moves cfg io w w' := ⟨wr, hwr, hstep⟩
    have hrest : Ends cfg io w' := by
      rcases hcase with ⟨h', hgo⟩ | ⟨h', hleft, hpassed⟩
      · exact ih h' hwr' (by omega)
      · -- the file that ends it is still ahead
        have hle : n ≤ last := by
          by_contra hgt
          rcases hlast with hnil | ⟨f, hf, hversion⟩
          · exact hleft (leftOver_nil_of_le hnil (by omega))
          · exact hversion (hpassed last (by omega) f hf)
        have hgo : wr'.pc.toGo ≤ 9 := by cases wr'.pc <;> simp [WriterPc.toGo]
        have hpos : 1 ≤ wr.pc.toGo := by cases wr.pc <;> simp [WriterPc.toGo]
        exact ih h' hwr' (by omega)
    obtain ⟨w'', hreach, hended⟩ := hrest
    exact ⟨w'', hreach.head hmove, hended⟩

/-- The writer stands somewhere in every state of the run. -/
theorem Standing.reached (h : Standing cfg w0 io batch n w wr) (hwr : w.writer = some wr)
    (hlt : w0.store.currentSequenceNumber < w0.store.nextSequenceNumber)
    (hanswers : Answering io.results batch) {w' : World}
    (hreach : Relation.ReflTransGen (Moves cfg io) w w') :
    ∃ n' wr', w'.writer = some wr' ∧ Standing cfg w0 io batch n' w' wr' := by
  induction hreach with
  | refl => exact ⟨n, wr, hwr, h⟩
  | tail _ hmove ih =>
    obtain ⟨m, wr1, hwr1, h1⟩ := ih
    obtain ⟨wr2, hwr2, hstep⟩ := hmove
    obtain rfl := Option.some.inj (hwr1.symm.trans hwr2)
    have hbusy : ¬ (wr1.pc = .returned ∨ ∃ e, wr1.pc = .threw e) := by
      rintro (hpc | ⟨e, hpc⟩)
      · simp [writerStep, hpc] at hstep
      · simp [writerStep, hpc] at hstep
    obtain ⟨w'', wr'', hstep', hwr'', hcase⟩ := h1.goesOn hlt hanswers hbusy
    obtain rfl := Option.some.inj (hstep.symm.trans hstep')
    rcases hcase with ⟨h', -⟩ | ⟨h', -⟩
    · exact ⟨_, wr'', hwr'', h'⟩
    · exact ⟨_, wr'', hwr'', h'⟩

end

/-- Results of `writev` with which every write of the batch goes through. -/
def ampleResults (batch : TransactionLogEntryBatch) (_ : ℕ) : List WritevResult :=
  List.replicate batch.entries.length (.count (totalSize batch.entries))

theorem ampleResults_write {batch b : TransactionLogEntryBatch} (h : b.entries = batch.entries) (seq n : ℕ) :
    failsEarly (ampleResults batch seq) ((b.nextRecords n).map LogRecord.frame) = false ∧
      (writeBatchToFile (ampleResults batch seq) ((b.nextRecords n).map LogRecord.frame) 0).2 ≠ .blocked := by
  apply writeBatchToFile_ample
  · rw [List.length_map, TransactionLogEntryBatch.nextRecords, List.length_take, List.length_drop, records_length, ← h]
    omega
  · intro bytes hbytes
    obtain ⟨r, -, rfl⟩ := List.mem_map.mp hbytes
    intro hnil
    have := r.frame_length
    rw [hnil, List.length_nil, TRANSACTION_LOG_ENTRY_HEADER_SIZE] at this
    omega
  · have hflat : ((b.nextRecords n).map LogRecord.frame).flatten = b.nextBytes n := by
      rw [TransactionLogEntryBatch.nextBytes, frames, List.flatMap_def]
    rw [hflat, nextBytes_length, ← h]
    exact totalSize_take_drop _ _ _

section
variable {cfg : StoreConfig} {w : World} {batch : TransactionLogEntryBatch} {openCalls : ℕ → OpenCalls} {now : ℕ → ℤ}

theorem standing_beginWrite (cfg : StoreConfig) (openCalls : ℕ → OpenCalls) (now : ℕ → ℤ)
    (results : ℕ → List WritevResult) (hopen : w.store.isClosing = false) :
    ∃ wr, (beginWrite w batch).writer = some wr ∧
      Standing cfg (beginWrite w batch) ⟨openCalls, now, results⟩ batch 0 (beginWrite w batch) wr := by
  have hwr : (beginWrite w batch).writer = some ⟨outerLoop batch, batch, w.store.nextLogPosition⟩ := by
    rw [beginWrite, hopen, if_neg Bool.false_ne_true]
  refine ⟨_, hwr, ?_⟩
  rcases outerLoop_cases batch with ⟨hnil, hpc⟩ | ⟨hne, hpc⟩
  · simp only [Standing, hpc]
    exact ⟨0, hnil⟩
  · simp only [Standing, hpc]
    exact ⟨⟨⟨rfl, rfl, rfl, fun _ _ => rfl, fun _ _ => rfl⟩, rfl, rfl⟩,
      ⟨rfl, rfl, fun m hm => absurd hm (Nat.not_lt_zero m)⟩, hne⟩

theorem beginWrite_numbers (w : World) (batch : TransactionLogEntryBatch) :
    (beginWrite w batch).store.currentSequenceNumber = w.store.currentSequenceNumber ∧
      (beginWrite w batch).store.nextSequenceNumber = w.store.nextSequenceNumber := by
  unfold beginWrite
  split_ifs
  · exact ⟨rfl, rfl⟩
  · exact ⟨rfl, rfl⟩

theorem ends_of_closing (hclosing : w.store.isClosing = true) : WriteBatchEnds cfg w batch openCalls now := by
  intro results _
  refine ⟨_, .refl, ⟨.threw .storeClosed, batch, ⟨0, 0⟩⟩, ?_, Or.inr ⟨_, rfl⟩⟩
  rw [beginWrite, if_pos hclosing]

/-- An end of the call with all writes going through was made by the files. -/
theorem roomForAll_of_ends (hlt : w.store.currentSequenceNumber < w.store.nextSequenceNumber)
    (hopen : w.store.isClosing = false) (h : WriteBatchEnds cfg w batch openCalls now) :
    RoomForAll cfg (beginWrite w batch) openCalls now batch.pending := by
  have hnumbers := beginWrite_numbers w batch
  have hanswers : Answering (ampleResults batch) batch := fun seq b n hb => (ampleResults_write hb seq n).2
  obtain ⟨wr, hwr, hstand⟩ := standing_beginWrite cfg openCalls now (ampleResults batch) hopen
  obtain ⟨w', hreach, wr', hwr', hended⟩ := h _ hanswers
  obtain ⟨n, wr'', hwr'', hstand'⟩ := hstand.reached hwr (by omega) hanswers hreach
  obtain rfl := Option.some.inj (hwr'.symm.trans hwr'')
  rcases hended with hpc | ⟨e, hpc⟩
  · simp only [Standing, hpc] at hstand'
    obtain ⟨k, hnil⟩ := hstand'
    exact ⟨k, Or.inl hnil⟩
  · simp only [Standing, hpc] at hstand'
    rcases hstand' with ⟨k, f, hf, hversion⟩ | ⟨seq, b, k, hb, hfails⟩
    · exact ⟨k, Or.inr ⟨f, hf, hversion⟩⟩
    · rw [(ampleResults_write hb seq k).1] at hfails
      cases hfails

/-- `writeBatch` ends if and only if the store is closing or the files that the loops come to have
room for the batch. -/
theorem writeBatch_ends_iff (hlt : w.store.currentSequenceNumber < w.store.nextSequenceNumber) :
    WriteBatchEnds cfg w batch openCalls now ↔
      w.store.isClosing = true ∨ RoomForAll cfg (beginWrite w batch) openCalls now batch.pending := by
  by_cases hclosing : w.store.isClosing = true
  · exact ⟨fun _ => Or.inl hclosing, fun _ => ends_of_closing hclosing⟩
  have hopen := Bool.eq_false_iff.mpr hclosing
  refine ⟨fun h => Or.inr (roomForAll_of_ends hlt hopen h), fun h => ?_⟩
  obtain ⟨last, hlast⟩ := h.resolve_left hclosing
  intro results hanswers
  have hnumbers := beginWrite_numbers w batch
  obtain ⟨wr, hwr, hstand⟩ := standing_beginWrite cfg openCalls now results hopen
  exact hstand.ends (by omega) hanswers hlast hwr le_rfl

theorem writeBatch_ends_iff_newLog : WriteBatchEnds { maxFileSize := 200 } {} firstBatch (fun _ => {}) (fun _ => 0) :=
  (writeBatch_ends_iff (by decide)).mpr (Or.inr ⟨1, Or.inl (by decide +kernel)⟩)

/-- Where no file opens, nothing is ever written. -/
theorem leftOver_unopened (es : List TransactionLogEntry)
    (h : ∀ seq, openedFile cfg w openCalls now seq = none) (n : ℕ) :
    leftOver cfg w openCalls now es n = es := by
  induction n with
  | zero => rfl
  | succ n ih =>
    have hnone : usableFile cfg w openCalls now (w.store.fileNumber n) = none := by rw [usableFile, h]; rfl
    rw [leftOver, hnone]
    exact ih

/-- An `open` that fails for ever keeps the call from ending, though the rotation after it is said to prevent that. -/
theorem writeBatch_spins :
    ¬ ∀ (cfg : StoreConfig) (w : World) (batch : TransactionLogEntryBatch) (openCalls : ℕ → OpenCalls) (now : ℕ → ℤ),
    acceptsTransactionLogMaxSize cfg.maxFileSize = true → w.store.currentSequenceNumber < w.store.nextSequenceNumber →
    batch.pending ≠ [] → (∀ q, (openCalls q).now ≤ now q ∧ ∀ q', q < q' → now q ≤ (openCalls q').now) →
    WriteBatchEnds cfg w batch openCalls now := by
  intro h
  have hends := h { maxFileSize := 0 } {} firstBatch (fun _ => { opened := false }) (fun _ => 0) (by decide)
    (by decide) (by decide)
    fun _ => ⟨le_rfl, fun _ _ => le_rfl⟩
  have hnone : ∀ seq, openedFile { maxFileSize := 0 } (beginWrite {} firstBatch) (fun _ => { opened := false })
      (fun _ => 0) seq = none :=
    fun _ => rfl
  obtain ⟨n, hnil | ⟨f, hf, -⟩⟩ := roomForAll_of_ends (by decide) (by decide) hends
  · rw [leftOver_unopened _ hnone n] at hnil
    cases hnil
  · rw [usableFile, hnone] at hf
    cases hf

/-- A new file takes at least one entry, if the limit is above the header. -/
theorem takes_pos {f : TransactionLogFile} {maxFileSize : ℕ} {es : List TransactionLogEntry}
    (hsize : f.size = TRANSACTION_LOG_FILE_HEADER_SIZE)
    (hmax : maxFileSize = 0 ∨ TRANSACTION_LOG_FILE_HEADER_SIZE < maxFileSize) (hne : es ≠ []) :
    0 < f.takes maxFileSize es := by
  obtain ⟨e, rest, rfl⟩ := List.exists_cons_of_ne_nil hne
  rw [TransactionLogFile.takes]
  rcases hmax with hmax | hmax
  · rw [if_neg (by omega)]
    exact Nat.succ_pos _
  · rw [if_pos (by omega), if_neg (by omega), countFitting, if_neg (by simp [hsize])]
    exact Nat.succ_pos _

/-- A new file that opens is used where there is no age limit. -/
theorem usableFile_new {seq : ℕ} (hfile : w.store.sequenceFiles.get? seq = none) (hlog : w.disk.logs.get? seq = none)
    (hage : cfg.thresholdDuration = none) (hopens : (openCalls seq).Succeeds) :
    ∃ f, usableFile cfg w openCalls now seq = some f ∧ f.size = TRANSACTION_LOG_FILE_HEADER_SIZE := by
  have hopened : ∃ f, openedFile cfg w openCalls now seq = some f ∧ f.size = TRANSACTION_LOG_FILE_HEADER_SIZE := by
    rw [openedFile, hfile, hlog, Option.getD_none]
    dsimp only
    rw [if_pos (Nat.eq_zero_or_pos _), if_neg Bool.false_ne_true, open_empty hopens rfl rfl rfl]
    exact ⟨_, rfl, rfl⟩
  obtain ⟨f, hf, hsize⟩ := hopened
  refine ⟨f, ?_, hsize⟩
  rw [usableFile, hf]
  exact Option.filter_some_pos (by rw [tooOld, hage]; rfl)

theorem leftOver_length_le (cfg : StoreConfig) (w : World) (openCalls : ℕ → OpenCalls) (now : ℕ → ℤ)
    (es : List TransactionLogEntry) {m n : ℕ} (hmn : m ≤ n) :
    (leftOver cfg w openCalls now es n).length ≤ (leftOver cfg w openCalls now es m).length := by
  induction n, hmn using Nat.le_induction with
  | base => exact le_rfl
  | succ n _ ih =>
    refine le_trans ?_ ih
    rw [leftOver]
    split
    · rw [List.length_drop]
      exact Nat.sub_le _ _
    · exact le_rfl

/-- New files without an age limit and with room for an entry have room for any batch, as long as
one after the other opens. -/
theorem roomForAll_of_openings {es : List TransactionLogEntry}
    (hnew : ∀ n, w.store.sequenceFiles.get? (w.store.nextSequenceNumber + n) = none ∧
      w.disk.logs.get? (w.store.nextSequenceNumber + n) = none)
    (hmax : cfg.maxFileSize = 0 ∨ TRANSACTION_LOG_FILE_HEADER_SIZE < cfg.maxFileSize)
    (hage : cfg.thresholdDuration = none)
    (hopens : ∀ m, ∃ n ≥ m, (openCalls (w.store.nextSequenceNumber + n)).Succeeds) :
    RoomForAll cfg w openCalls now es := by
  have hall : ∀ k m, (leftOver cfg w openCalls now es m).length ≤ k → ∃ n, leftOver cfg w openCalls now es n = [] := by
    intro k
    induction k with
    | zero => exact fun m hm => ⟨m, List.length_eq_zero_iff.mp (Nat.le_zero.mp hm)⟩
    | succ k ih =>
      intro m hm
      obtain ⟨n, hn, hopen⟩ := hopens m
      obtain ⟨f, hf, hsize⟩ := usableFile_new (hnew n).1 (hnew n).2 hage hopen
      have hle := leftOver_length_le cfg w openCalls now es (show m ≤ n + 1 by omega)
      by_cases hnil : leftOver cfg w openCalls now es (n + 1) = []
      · exact ⟨n + 1, hnil⟩
      · have hpos := takes_pos hsize hmax hnil
        refine ih (n + 2) ?_
        rw [leftOver, show usableFile cfg w openCalls now (w.store.fileNumber (n + 1)) = some f from hf]
        dsimp only
        rw [List.length_drop]
        omega
  obtain ⟨n, hnil⟩ := hall _ 0 le_rfl
  exact ⟨n, Or.inl hnil⟩

end

end RocksdbJs
