import RocksdbJs.Sanity.BatchRun
import RocksdbJs.Sanity.WriterMoves
import RocksdbJs.Proofs.BatchLimits
import RocksdbJs.Spec.System

/-! A commit that is retried on the batch it kept. `Transaction::Commit` catches what
`writeBatch` throws and leaves the batch, so the next commit goes on from the batch's
cursor. A file that cannot be opened costs nothing, since it is given up for the next
number. An append that fails has moved the cursor already, and what it held is not
written by any later call. -/

namespace RocksdbJs

open TransactionLogStore
open TransactionLogFile (WriteEntriesResult)

/-- What happens to the store while one transaction is committed again and again. -/
inductive Attempt
  /-- `Commit` calls `writeBatch` on the batch of the handle. -/
  | commit
  | writer (io : WriterCalls)
  | commitFinished (position : LogPosition) (rocksSequenceNumber : ℕ)
  | commitAborted (position : LogPosition)

def attempt (cfg : StoreConfig) (w : World) : Attempt → Option World
  | .commit => if w.busy then none else w.writer.map fun wr => beginWrite w wr.batch
  | .writer io => stepWriter cfg w io
  | .commitFinished position seq => some { w with store := w.store.commitFinished position seq }
  | .commitAborted position => some { w with store := w.store.commitAborted position }

/-- The append of the step, if it makes one, does not fail, and the header of the file it
makes, if it makes one, lands whole. -/
def Writer.lands (cfg : StoreConfig) (s : TransactionLogStore) (wr : Writer) (io : WriterCalls) : Bool :=
  match wr.pc with
  | .tryOpen _ => decide (io.openCalls.headerWrites = (4, 1, 8))
  | .write seq => (s.sequenceFiles.get? seq).all fun f => !failsEarly io.results (toWrite f wr.batch cfg.maxFileSize)
  | _ => true

def Attempt.lands (cfg : StoreConfig) (w : World) : Attempt → Bool
  | .writer io => w.writer.all fun wr => wr.lands cfg w.store io
  | _ => true

/-- Every log file is empty or made of whole frames, and none has a number above the current one. -/
structure LogWhole (s : TransactionLogStore) (d : Disk) : Prop where
  whole : ∀ {seq bytes}, d.logs.get? seq = some bytes → bytes = [] ∨ ∃ timestamp rs, WholeFile bytes timestamp rs
  file_le : ∀ {seq f}, s.sequenceFiles.get? seq = some f → seq ≤ s.currentSequenceNumber
  log_le : ∀ {seq bytes}, d.logs.get? seq = some bytes → seq ≤ s.currentSequenceNumber
  current_lt : s.currentSequenceNumber < s.nextSequenceNumber

/-- The current file can be appended to once it is open: an open one has its header, and any
other is short enough for its size to be told. -/
structure CurrentWhole (s : TransactionLogStore) (d : Disk) : Prop where
  version : ∀ {f}, s.sequenceFiles.get? s.currentSequenceNumber = some f → f.version = 1
  headed : ∀ {f}, s.sequenceFiles.get? s.currentSequenceNumber = some f → f.isOpen = true →
    d.bytes s.currentSequenceNumber ≠ []
  short : (∀ {f}, s.sequenceFiles.get? s.currentSequenceNumber = some f → f.isOpen = false) → Bounded s d

/-- What holds at each place of a call. A file that failed to open is only given up at the rotation. -/
def Writer.Resumes (w : World) (wr : Writer) : Prop :=
  match wr.pc with
  | .rotateInner => True
  | .tryOpen seq => CurrentWhole w.store w.disk ∧ seq = w.store.currentSequenceNumber
  | .fixPosition seq => CurrentWhole w.store w.disk ∧ CurrentIs w.store seq
  | .checkAge seq => CurrentWhole w.store w.disk ∧ CurrentIs w.store seq
  | .write seq => CurrentWhole w.store w.disk ∧ CurrentIs w.store seq
  | .finish => CurrentWhole w.store w.disk ∧ wr.batch.isComplete = true
  | .returned => CurrentWhole w.store w.disk ∧ wr.batch.isComplete = true
  | _ => CurrentWhole w.store w.disk

/-- The log holds what was there before the first call, then the records up to the cursor. -/
structure Resuming (d0 : Disk) (b0 : TransactionLogEntryBatch) (w : World) (wr : Writer) : Prop where
  log : LogWhole w.store w.disk
  entries : wr.batch.entries = b0.entries
  timestamp : wr.batch.timestamp = b0.timestamp
  content : w.disk.content = d0.content ++ b0.records.take wr.batch.currentEntryIndex
  place : wr.Resumes w

section
variable {s s' : TransactionLogStore} {d d' : Disk}

theorem LogWhole.congr (h : LogWhole s d) (hl : d'.logs = d.logs) (hf : s'.sequenceFiles = s.sequenceFiles)
    (hc : s'.currentSequenceNumber = s.currentSequenceNumber) (hn : s'.nextSequenceNumber = s.nextSequenceNumber) :
    LogWhole s' d' := by
  refine ⟨?_, ?_, ?_, ?_⟩
  all_goals simp only [hl, hf, hc, hn]
  · exact h.whole
  · exact h.file_le
  · exact h.log_le
  · exact h.current_lt

theorem CurrentWhole.congr (h : CurrentWhole s d) (hl : d'.logs = d.logs) (hf : s'.sequenceFiles = s.sequenceFiles)
    (hc : s'.currentSequenceNumber = s.currentSequenceNumber) : CurrentWhole s' d' := by
  have hb : d'.bytes s.currentSequenceNumber = d.bytes s.currentSequenceNumber := bytes_congr hl _
  refine ⟨?_, ?_, ?_⟩
  all_goals simp only [hf, hc, hb, Bounded]
  · exact h.version
  · exact h.headed
  · exact h.short

theorem LogWhole.max (h : LogWhole s d) : ∀ q, (d.logs.get? q).isSome → q ≤ s.currentSequenceNumber := by
  intro q hq
  obtain ⟨b, hb⟩ := Option.isSome_iff_exists.mp hq
  exact h.log_le hb

/-- The number the store moves on to is new, so nothing is known of its file but that it is empty. -/
theorem LogWhole.advance (h : LogWhole s d) :
    LogWhole s.advanceSequence d ∧ CurrentWhole s.advanceSequence d := by
  have hnext : s.advanceSequence.currentSequenceNumber = s.nextSequenceNumber := rfl
  have hlt := h.current_lt
  have hfile : s.sequenceFiles.get? s.nextSequenceNumber = none := by
    cases hg : s.sequenceFiles.get? s.nextSequenceNumber with
    | none => rfl
    | some f => have := h.file_le hg; omega
  have hlog : d.logs.get? s.nextSequenceNumber = none := by
    cases hg : d.logs.get? s.nextSequenceNumber with
    | none => rfl
    | some b => have := h.log_le hg; omega
  have hno : ∀ f, ¬ s.advanceSequence.sequenceFiles.get? s.advanceSequence.currentSequenceNumber = some f := by
    intro f hf
    rw [hnext] at hf
    exact absurd (hfile.symm.trans hf) (by simp)
  refine ⟨⟨h.whole, ?_, ?_, Nat.lt_succ_self _⟩, ⟨fun hf => absurd hf (hno _),
    fun hf => absurd hf (hno _), fun _ => ?_⟩⟩
  · exact fun hf => (h.file_le hf).trans hlt.le
  · exact fun hf => (h.log_le hf).trans hlt.le
  · rw [Bounded, hnext, Disk.bytes_none hlog]
    decide

theorem getLogFile_whole (h : LogWhole s d) (hc : CurrentWhole s d) (now : ℤ) :
    LogWhole (s.getLogFile d s.currentSequenceNumber now).1 (s.getLogFile d s.currentSequenceNumber now).2 ∧
      CurrentWhole (s.getLogFile d s.currentSequenceNumber now).1 (s.getLogFile d s.currentSequenceNumber now).2 := by
  unfold TransactionLogStore.getLogFile
  cases hg : s.sequenceFiles.get? s.currentSequenceNumber with
  | some f => exact ⟨h, hc⟩
  | none =>
    refine ⟨⟨h.whole, ?_, h.log_le, h.current_lt⟩, ⟨?_, ?_, fun _ => ?_⟩⟩
    · intro q f hf
      simp only [SeqMap.get?_set] at hf
      split_ifs at hf with hq
      · exact hq.le
      · exact h.file_le hf
    · intro f hf
      obtain rfl := Option.some.inj ((SeqMap.get?_set_self _ _ _).symm.trans hf)
      rfl
    · intro f hf ho
      obtain rfl := Option.some.inj ((SeqMap.get?_set_self _ _ _).symm.trans hf)
      cases ho
    · refine hc.short fun hf => ?_
      rw [hg] at hf
      cases hf

end

/-- What the records of a file and its header are after an `open` that may have failed. -/
structure OpenedWhole (error : Option DBException) (f' : TransactionLogFile) (before after : Bytes) : Prop where
  whole : after = [] ∨ ∃ timestamp rs, WholeFile after timestamp rs
  records : fileRecords after = fileRecords before
  succeeds : error = none → f'.isOpen = true ∧ f'.version = 1 ∧ after ≠ []

section
variable {f : TransactionLogFile} {bytes : Bytes} {io : OpenCalls}

theorem readHeader_whole (latest : Binary64) (hopen : f.isOpen = true) (hv : f.version = 1)
    (hsize : f.size = bytes.length) (hheader : io.headerWrites = (4, 1, 8))
    (hwhole : bytes = [] ∨ ∃ timestamp rs, WholeFile bytes timestamp rs) :
    OpenedWhole (f.readHeader bytes latest io).1 (f.readHeader bytes latest io).2.1 bytes
      (f.readHeader bytes latest io).2.2 := by
  unfold TransactionLogFile.readHeader
  by_cases hempty : bytes = []
  · have h0 : f.size = 0 := by rw [hsize, hempty, List.length_nil]
    simp only [h0, if_true, hheader, hv, headerBytes_eq, hempty, List.nil_append]
    have hw := wholeFile_header latest
    refine ⟨Or.inr ⟨latest, [], hw⟩, hw.records, fun _ => ⟨hopen, rfl, fun hnil => ?_⟩⟩
    have hlen := fileHeader_length latest
    rw [hnil] at hlen
    cases hlen
  · have h0 : f.size ≠ 0 := by rw [hsize]; exact fun h => hempty (List.length_eq_zero_iff.mp h)
    simp only [h0, if_false]
    split_ifs with h1 h2 h3 h4
    · exact ⟨hwhole, rfl, fun h => by cases h⟩
    · exact ⟨hwhole, rfl, fun h => by cases h⟩
    · exact ⟨hwhole, rfl, fun h => by cases h⟩
    · exact ⟨hwhole, rfl, fun h => by cases h⟩
    · exact ⟨hwhole, rfl, fun _ => ⟨hopen, not_not.mp h4, hempty⟩⟩

/-- An `open` leaves the records of a whole or empty file, whatever it comes to, if the
header it may write lands. -/
theorem open_whole {disk : Option Bytes} (latest : Binary64) (hclosed : f.isOpen = false) (hv : f.version = 1)
    (hheader : io.headerWrites = (4, 1, 8)) (hlen : (disk.getD []).length < UINT32_RANGE)
    (hwhole : disk.getD [] = [] ∨ ∃ timestamp rs, WholeFile (disk.getD []) timestamp rs) :
    OpenedWhole (f.open disk latest io).1 (f.open disk latest io).2.1 (disk.getD [])
    ((f.open disk latest io).2.2.getD []) := by
  by_cases ho : io.opened = true
  swap
  · simp only [TransactionLogFile.open, TransactionLogFile.openFile, hclosed, ho, Bool.not_false, if_true,
      Bool.false_eq_true, if_false]
    exact ⟨hwhole, rfl, fun h => by cases h⟩
  by_cases hs : io.statted = true
  swap
  · simp only [TransactionLogFile.open, TransactionLogFile.openFile, hclosed, ho, hs, Bool.not_false, Bool.not_true,
      if_true, Bool.false_eq_true, if_false]
    exact ⟨hwhole, rfl, fun h => by cases h⟩
  simp only [TransactionLogFile.open, TransactionLogFile.openFile, hclosed, ho, hs, Bool.not_true, Bool.false_eq_true,
    if_false, Nat.mod_eq_of_lt hlen, Option.getD_some]
  exact readHeader_whole latest rfl hv rfl hheader hwhole

end

section
variable {s : TransactionLogStore} {d : Disk} {f : TransactionLogFile} {io : OpenCalls}

/-- The current file gets a new object, and bytes with the records of the old. -/
theorem LogWhole.set (h : LogWhole s d) (f' : TransactionLogFile) (dir : Bool) {bytes : Bytes}
    (hwhole : bytes = [] ∨ ∃ timestamp rs, WholeFile bytes timestamp rs) :
    LogWhole (s.setFile s.currentSequenceNumber f')
      { d with logs := d.logs.set s.currentSequenceNumber bytes, directory := dir } := by
  refine ⟨?_, ?_, ?_, h.current_lt⟩
  · intro q b hb
    simp only [SeqMap.get?_set] at hb
    split_ifs at hb with hq
    · obtain rfl := Option.some.inj hb
      exact hwhole
    · exact h.whole hb
  · intro q g hg
    simp only [setFile, SeqMap.get?_set] at hg
    split_ifs at hg with hq
    · exact hq.le
    · exact h.file_le hg
  · intro q b hb
    simp only [SeqMap.get?_set] at hb
    split_ifs at hb with hq
    · exact hq.le
    · exact h.log_le hb

/-- An object that is open on a file with its header. -/
theorem CurrentWhole.set {f' : TransactionLogFile} {bytes : Bytes} (dir : Bool) (hv : f'.version = 1)
    (hopen : f'.isOpen = true) (hne : bytes ≠ []) :
    CurrentWhole (s.setFile s.currentSequenceNumber f')
        { d with logs := d.logs.set s.currentSequenceNumber bytes, directory := dir } ∧
      CurrentIs (s.setFile s.currentSequenceNumber f') s.currentSequenceNumber := by
  have hget : (s.setFile s.currentSequenceNumber f').sequenceFiles.get? s.currentSequenceNumber = some f' :=
    SeqMap.get?_set_self _ _ _
  refine ⟨⟨?_, ?_, ?_⟩, rfl, f', hget, hopen⟩
  · intro g hg
    obtain rfl := Option.some.inj (hget.symm.trans hg)
    exact hv
  · intro g _ _
    change Disk.bytes _ s.currentSequenceNumber ≠ []
    rw [Disk.bytes_set, if_pos rfl]
    exact hne
  · intro hclosed
    have := hclosed hget
    rw [hopen] at this
    cases this

theorem ensureOpen_whole (h : LogWhole s d) (hc : CurrentWhole s d)
    (hf : s.sequenceFiles.get? s.currentSequenceNumber = some f) (hheader : io.headerWrites = (4, 1, 8)) :
    let r := s.ensureOpen d s.currentSequenceNumber f io
    LogWhole r.2.1 r.2.2 ∧ r.2.2.content = d.content ∧
      (r.1 = none → CurrentWhole r.2.1 r.2.2 ∧ CurrentIs r.2.1 s.currentSequenceNumber) := by
  intro r
  by_cases ho : f.isOpen = true
  · have hr : r = (none, s, d) := if_pos ho
    rw [hr]
    exact ⟨h, rfl, fun _ => ⟨hc, rfl, f, hf, ho⟩⟩
  have hr : r = s.openLogFile d s.currentSequenceNumber f io := if_neg ho
  rw [Bool.not_eq_true] at ho
  have hshort : Bounded s d := by
    refine hc.short fun hg => ?_
    obtain rfl := Option.some.inj (hf.symm.trans hg)
    exact ho
  have hwhole : d.bytes s.currentSequenceNumber = [] ∨ ∃ timestamp rs,
      WholeFile (d.bytes s.currentSequenceNumber) timestamp rs := by
    cases hg : d.logs.get? s.currentSequenceNumber with
    | none => exact Or.inl (Disk.bytes_none hg)
    | some bytes => rw [Disk.bytes_eq hg]; exact h.whole hg
  have hop := open_whole s.latestTimestamp ho (hc.version hf) hheader hshort hwhole
  set o := f.open (d.logs.get? s.currentSequenceNumber) s.latestTimestamp io with hodef
  rw [hr, openLogFile, ← hodef]
  cases hb : o.2.2 with
  | none =>
    rw [hb] at hop
    refine ⟨?_, rfl, fun hnone => absurd rfl (hop.succeeds hnone).2.2⟩
    refine ⟨h.whole, ?_, h.log_le, h.current_lt⟩
    intro q g hg
    simp only [setFile, SeqMap.get?_set] at hg
    split_ifs at hg with hq
    · exact hq.le
    · exact h.file_le hg
  | some bytes =>
    rw [hb, Option.getD_some] at hop
    refine ⟨h.set o.2.1 true hop.whole, ?_, fun hnone => ?_⟩
    · have hcontent := content_set bytes [] true h.max (hop.records.trans (List.append_nil _).symm)
      rwa [List.append_nil] at hcontent
    · obtain ⟨hopen, hv, hne⟩ := hop.succeeds hnone
      exact CurrentWhole.set true hv hopen hne

end

section
variable {cfg : StoreConfig} {d0 : Disk} {b0 : TransactionLogEntryBatch} {w w' : World}
    {wr wr' : Writer} {io : WriterCalls}

/-- A step that leaves the records and the batch alone. -/
theorem Resuming.quiet (h : Resuming d0 b0 w wr) (hb : wr'.batch = wr.batch) (hc : w'.disk.content = w.disk.content)
    (hlog : LogWhole w'.store w'.disk) (hplace : wr'.Resumes w') : Resuming d0 b0 w' wr' :=
  ⟨hlog, hb ▸ h.entries, hb ▸ h.timestamp, by rw [hc, hb]; exact h.content, hplace⟩

/-- Where the loop goes on, with the current file as it should be. -/
theorem resumes_outerLoop {b : TransactionLogEntryBatch} {p : LogPosition} (h : CurrentWhole w.store w.disk) :
    (⟨outerLoop b, b, p⟩ : Writer).Resumes w := by
  cases hc : b.isComplete with
  | true =>
    rw [outerLoop_finish hc]
    exact ⟨h, hc⟩
  | false =>
    rw [outerLoop_getFile hc]
    exact h

theorem beginWrite_resuming {b : TransactionLogEntryBatch} (hlog : LogWhole w.store w.disk)
    (hcur : CurrentWhole w.store w.disk) (hentries : b.entries = b0.entries)
    (htime : b.timestamp = b0.timestamp)
    (hcontent : w.disk.content = d0.content ++ b0.records.take b.currentEntryIndex) :
    ∃ wr, (beginWrite w b).writer = some wr ∧ Resuming d0 b0 (beginWrite w b) wr := by
  unfold beginWrite
  split_ifs
  · exact ⟨_, rfl, hlog, hentries, htime, hcontent, hcur⟩
  · exact ⟨_, rfl, hlog.congr rfl rfl rfl rfl, hentries, htime, hcontent, resumes_outerLoop (hcur.congr rfl rfl rfl)⟩

/-- An append that does not fail takes the records from the cursor on. -/
theorem writeEntries_takes {f : TransactionLogFile} {bytes : Bytes} {batch : TransactionLogEntryBatch} {maxFileSize : ℕ}
    {results : List WritevResult} (hv : f.version = 1) (hok : failsEarly results (toWrite f batch maxFileSize) = false)
    (hret : (f.writeEntries bytes batch maxFileSize results).outcome ≠ .blocked) :
    let r := f.writeEntries bytes batch maxFileSize results
    r.error = none ∧ r.file.isOpen = f.isOpen ∧ r.file.version = 1 ∧
      ∃ n, r.batch = batch.advanced n ∧ r.bytes = bytes ++ batch.nextBytes n := by
  intro r
  rcases writeEntries_cases f bytes batch maxFileSize results hret with
    ⟨hbad, -⟩ | ⟨-, -, hr⟩ | ⟨-, -, hfail, -⟩ | ⟨-, -, -, hr⟩
  · exact absurd hv hbad
  · -- nothing fits, so nothing is taken
    rw [show r = _ from hr]
    refine ⟨rfl, rfl, hv, 0, rfl, ?_⟩
    rw [nextBytes_zero, List.append_nil]
  · rw [hok] at hfail
    cases hfail
  · rw [show r = _ from hr]
    exact ⟨rfl, rfl, hv, _, rfl, rfl⟩

theorem write_resuming {seq : ℕ} {f : TransactionLogFile} (h : Resuming d0 b0 w wr) (hpc : wr.pc = .write seq)
    (hf : w.store.sequenceFiles.get? seq = some f)
    (hok : failsEarly io.results (toWrite f wr.batch cfg.maxFileSize) = false)
    (hreturns : (f.writeEntries (w.disk.bytes seq) wr.batch cfg.maxFileSize io.results).outcome ≠ .blocked)
    (hw' : w' = { w with
      store := w.store.setFile seq
        ((f.writeEntries (w.disk.bytes seq) wr.batch cfg.maxFileSize io.results).stamped io.now)
      disk := { w.disk with
        logs := w.disk.logs.set seq (f.writeEntries (w.disk.bytes seq) wr.batch cfg.maxFileSize io.results).bytes }
      writer := some { wr with
        batch := (f.writeEntries (w.disk.bytes seq) wr.batch cfg.maxFileSize io.results).batch
        pc := (f.writeEntries (w.disk.bytes seq) wr.batch cfg.maxFileSize io.results).pc seq f.size } }) :
    ∃ wr', w'.writer = some wr' ∧ Resuming d0 b0 w' wr' := by
  obtain ⟨pc, batch, pos⟩ := wr
  obtain rfl : pc = .write seq := hpc
  obtain ⟨hcur, rfl, g, hg, ho⟩ := h.place
  obtain rfl : f = g := Option.some.inj (hf.symm.trans hg)
  have hne := hcur.headed hf ho
  obtain ⟨ts, rs, hw⟩ := (h.log.whole (Disk.get?_of_bytes hne)).resolve_left hne
  set r := f.writeEntries (w.disk.bytes w.store.currentSequenceNumber) batch cfg.maxFileSize io.results with hr
  obtain ⟨herror, hopen, hv, n, hbatch, hbytes⟩ := writeEntries_takes (hcur.version hf) hok hreturns
  rw [← hr] at herror hopen hv hbatch hbytes
  rw [WriteEntriesResult.stamped, WriteEntriesResult.pc, herror, Option.isSome_none, if_neg Bool.false_ne_true,
    hbatch, hbytes] at hw'
  subst hw'
  have hfits : ∀ r ∈ batch.nextRecords n, r.Fits := fun r hr' =>
    records_fit batch r (List.mem_of_mem_drop (List.mem_of_mem_take hr'))
  have hw' := hw.append hfits
  have hne' : w.disk.bytes w.store.currentSequenceNumber ++ batch.nextBytes n ≠ [] := by
    intro hnil
    exact hne (List.append_eq_nil_iff.mp hnil).1
  refine ⟨_, rfl, h.log.set _ _ (Or.inr ⟨ts, _, hw'⟩), h.entries, h.timestamp, ?_, ?_⟩
  · have hrec : fileRecords (w.disk.bytes w.store.currentSequenceNumber ++ batch.nextBytes n) =
        fileRecords (w.disk.bytes w.store.currentSequenceNumber) ++ batch.nextRecords n := by
      rw [hw.records]
      exact hw'.records
    rw [content_set _ _ _ h.log.max hrec, h.content, List.append_assoc, ← records_congr h.entries h.timestamp]
    exact congrArg _ (nextRecords_take batch n)
  · refine (CurrentWhole.set _ ?_ ?_ hne').1
    · exact hv
    · exact hopen.trans ho

theorem WriterTurns.resumes {pc : WriterPc} (hturns : WriterTurns cfg w wr io pc) (h : wr.Resumes w)
    (o : Option Writer) :
    ({ wr with pc } : Writer).Resumes { w with writer := o } := by
  cases hturns with
  | full => exact trivial
  | placed seq hpc | young seq f hpc | stays seq sizeBefore f hpc =>
    rw [Writer.Resumes, hpc] at h
    exact h

theorem WriterRotates.resumes {pc : WriterPc} (hrotates : WriterRotates cfg w wr io pc) {w' : World}
    (h : CurrentWhole w'.store w'.disk) : ({ wr with pc } : Writer).Resumes w' := by
  cases hrotates with
  | inner => exact h
  | old => exact resumes_outerLoop h
  | outer => exact h

/-- One step of a call keeps the log and the cursor in line. -/
theorem writerStep_resuming (h : Resuming d0 b0 w wr) (hok : wr.lands cfg w.store io = true)
    (hstep : writerStep cfg w wr io = some w') : ∃ wr', w'.writer = some wr' ∧ Resuming d0 b0 w' wr' := by
  have hplace := h.place
  cases writerStep_move hstep with
  | turn pc hturns => exact ⟨_, rfl, h.quiet rfl rfl h.log (hturns.resumes hplace _)⟩
  | rotate pc hrotates =>
    obtain ⟨hlog, hcur⟩ := h.log.advance
    exact ⟨_, rfl, h.quiet rfl rfl hlog (hrotates.resumes hcur)⟩
  | get hpc =>
    rw [Writer.Resumes, hpc] at hplace
    obtain ⟨hlog, hcur⟩ := getLogFile_whole h.log hplace io.now
    obtain ⟨files, next, hs⟩ := getLogFile_store w.store w.disk w.store.currentSequenceNumber io.now
    have hlogs : (w.store.getLogFile w.disk w.store.currentSequenceNumber io.now).2.logs = w.disk.logs := by
      unfold TransactionLogStore.getLogFile
      split <;> rfl
    exact ⟨_, rfl, h.quiet rfl (Disk.content_congr hlogs) hlog ⟨hcur, by rw [hs]⟩⟩
  | opens seq f hpc hf hroom =>
    rw [Writer.Resumes, hpc] at hplace
    rw [Writer.lands, hpc] at hok
    obtain ⟨hcur, rfl⟩ := hplace
    obtain ⟨hlog, hcontent, hsucc⟩ := ensureOpen_whole h.log hcur hf (of_decide_eq_true hok)
    refine ⟨_, rfl, h.quiet rfl hcontent hlog ?_⟩
    cases herror : (w.store.ensureOpen w.disk w.store.currentSequenceNumber f io.openCalls).1 with
    | none => exact hsucc herror
    | some e => trivial
  | place seq hpc hzero =>
    rw [Writer.Resumes, hpc] at hplace
    exact ⟨_, rfl, h.quiet rfl rfl (h.log.congr rfl rfl rfl rfl) ⟨hplace.1.congr rfl rfl rfl, hplace.2⟩⟩
  | append seq f hpc hf hreturns =>
    rw [Writer.lands, hpc] at hok
    simp only [hf, Option.all_some, Bool.not_eq_true'] at hok
    exact write_resuming h hpc hf hok hreturns rfl
  | setNext seq f hpc hf =>
    rw [Writer.Resumes, hpc] at hplace
    have hcur : CurrentWhole w.store w.disk := hplace
    exact ⟨_, rfl, h.quiet rfl rfl (h.log.congr rfl rfl rfl rfl) (resumes_outerLoop (hcur.congr rfl rfl rfl))⟩
  | finish hpc =>
    rw [Writer.Resumes, hpc] at hplace
    exact ⟨_, rfl, h.quiet rfl rfl (h.log.congr rfl rfl rfl rfl) ⟨hplace.1.congr rfl rfl rfl, hplace.2⟩⟩

/-- The invariant of the attempts. -/
def Attempting (d0 : Disk) (b0 : TransactionLogEntryBatch) (w : World) : Prop :=
  ∃ wr, w.writer = some wr ∧ Resuming d0 b0 w wr

/-- Positions are registered and taken off without touching the log. -/
theorem Attempting.withStore {s : TransactionLogStore} (h : Attempting d0 b0 w)
    (hf : s.sequenceFiles = w.store.sequenceFiles)
    (hc : s.currentSequenceNumber = w.store.currentSequenceNumber)
    (hn : s.nextSequenceNumber = w.store.nextSequenceNumber) :
    Attempting d0 b0 { w with store := s } := by
  obtain ⟨wr, hwr, h⟩ := h
  refine ⟨wr, hwr, h.quiet rfl rfl (h.log.congr rfl hf hc hn) ?_⟩
  have hplace := h.place
  have hcur : CurrentWhole w.store w.disk → CurrentWhole s w.disk := fun hcur => hcur.congr rfl hf hc
  have his : ∀ seq, CurrentIs w.store seq → CurrentIs s seq := by
    rintro seq ⟨hseq, f, hfile, ho⟩
    exact ⟨hseq.trans hc.symm, f, by rw [hf]; exact hfile, ho⟩
  obtain ⟨pc, batch, pos⟩ := wr
  cases pc with
  | rotateInner => trivial
  | tryOpen seq => exact ⟨hcur hplace.1, hplace.2.trans hc.symm⟩
  | fixPosition seq => exact ⟨hcur hplace.1, his seq hplace.2⟩
  | checkAge seq => exact ⟨hcur hplace.1, his seq hplace.2⟩
  | write seq => exact ⟨hcur hplace.1, his seq hplace.2⟩
  | finish => exact ⟨hcur hplace.1, hplace.2⟩
  | returned => exact ⟨hcur hplace.1, hplace.2⟩
  | getFile => exact hcur hplace
  | advance seq sizeBefore => exact hcur hplace
  | setNext seq => exact hcur hplace
  | threw e => exact hcur hplace

theorem attempt_invariant {a : Attempt} (h : Attempting d0 b0 w) (hok : a.lands cfg w = true)
    (hstep : attempt cfg w a = some w') :
    Attempting d0 b0 w' := by
  cases a with
  | commit =>
    obtain ⟨wr, hwr, h⟩ := h
    simp only [attempt, hwr, Option.map_some] at hstep
    split_ifs at hstep with hbusy
    obtain rfl := Option.some.inj hstep
    have hcur : CurrentWhole w.store w.disk := by
      have hplace := h.place
      rw [World.busy, hwr] at hbusy
      obtain ⟨pc, batch, pos⟩ := wr
      cases pc with
      | returned => exact hplace.1
      | threw e => exact hplace
      | _ => exact absurd rfl hbusy
    exact beginWrite_resuming h.log hcur h.entries h.timestamp h.content
  | writer io =>
    obtain ⟨wr, hwr, h⟩ := h
    rw [attempt, stepWriter, hwr, Option.bind_some] at hstep
    rw [Attempt.lands, hwr, Option.all_some] at hok
    exact writerStep_resuming h hok hstep
  | commitFinished position seq =>
    obtain rfl := Option.some.inj hstep
    exact h.withStore rfl rfl rfl
  | commitAborted position =>
    obtain rfl := Option.some.inj hstep
    exact h.withStore rfl rfl rfl

end

/-- However often a commit is retried, a call that returns leaves the whole batch at the end
of the log, unless an append or a header failed on the way. -/
theorem retried_batch_whole {cfg : StoreConfig} {w0 w : World} {b0 : TransactionLogEntryBatch}
    {as : List Attempt} {wr : Writer} (hready : Ready w0) (hcursor : b0.currentEntryIndex = 0)
    (hok : Runs.Along (attempt cfg) (fun w a => a.lands cfg w = true) (beginWrite w0 b0) as)
    (hrun : Runs.exec (attempt cfg) (beginWrite w0 b0) as = some w) (hwr : w.writer = some wr)
    (hreturned : wr.pc = .returned) :
    w.disk.content = w0.disk.content ++ b0.records := by
  have hlog : LogWhole w0.store w0.disk := ⟨hready.log.whole, hready.log.file_le, hready.log.log_le,
    hready.log.current_lt⟩
  have hcur : CurrentWhole w0.store w0.disk :=
    ⟨hready.log.version, fun hf ho => (hready.log.size_open hf ho).2, fun _ => hready.bounded⟩
  have hstart : Attempting w0.disk b0 (beginWrite w0 b0) := by
    refine beginWrite_resuming hlog hcur rfl rfl ?_
    rw [hcursor, List.take_zero, List.append_nil]
  obtain ⟨wr', hwr', h⟩ := Runs.exec_invariant (fun _ _ _ hi ho hs => attempt_invariant hi ho hs) hstart hok hrun
  obtain rfl := Option.some.inj (hwr.symm.trans hwr')
  have hplace := h.place
  rw [Writer.Resumes, hreturned] at hplace
  have hdone : b0.entries.length ≤ wr.batch.currentEntryIndex := by
    rw [← h.entries]
    exact of_decide_eq_true hplace.2
  rw [h.content, List.take_of_length_le]
  rw [TransactionLogEntryBatch.records, List.length_mapIdx]
  exact hdone

/-- The steps of a call that finds the current file open or new and writes once. -/
def oneAppend (results : List WritevResult) : List Attempt :=
  [.writer {}, .writer {}, .writer {}, .writer {}, .writer { results := results }]

def afterAppend : List Attempt := [.writer {}, .writer {}, .writer {}]

/-- The first file cannot be opened, the second takes the batch in two writes, and the
commit is tried once more after that. -/
def reopenedCommit : List Attempt :=
  [.writer {}, .writer { openCalls := { opened := false } }, .writer {}] ++ oneAppend [.count 15, .eintr, .count 14] ++
    afterAppend ++ [.commitFinished ⟨0, 1⟩ 9, .commit, .writer {}]

theorem retried_batch_whole_reopened :
    (Runs.final (attempt { maxFileSize := 200 }) (beginWrite {} firstBatch) reopenedCommit).disk.content =
      firstBatch.records :=
  (retried_batch_whole ready_empty rfl (by decide +kernel) (Runs.exec_final _ _ _ (by decide +kernel))
    (Option.eq_some_of_isSome (by decide +kernel)) (by decide +kernel)).trans (List.nil_append _)

/-- The append of the first call fails, the commit is tried again on the batch it kept, and
that call returns with nothing in the log. -/
theorem retried_batch_lost :
    ¬ ∀ (cfg : StoreConfig) (w0 w : World) (b0 : TransactionLogEntryBatch) (as : List Attempt) (wr : Writer), Ready w0 →
      b0.currentEntryIndex = 0 → Runs.exec (attempt cfg) (beginWrite w0 b0) as = some w → w.writer = some wr →
      wr.pc = .returned → w.disk.content = w0.disk.content ++ b0.records := by
  intro h
  have hrun := Runs.exec_final (attempt { maxFileSize := 200 }) (beginWrite {} firstBatch)
    (oneAppend [.error] ++ [.commit, .writer {}]) (by decide +kernel)
  have hcontent := h { maxFileSize := 200 } {} _ firstBatch _ _ ready_empty rfl hrun
    (Option.eq_some_of_isSome (by decide +kernel)) (by decide +kernel)
  revert hcontent
  decide +kernel

end RocksdbJs
