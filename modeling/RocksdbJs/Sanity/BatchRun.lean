import RocksdbJs.Sanity.Batch
import RocksdbJs.Spec.LogWriter

/-! The steps of `writeBatch` when every system call succeeds: what each leaves of the log,
how far the batch is, and a measure that falls. -/

namespace RocksdbJs

open TransactionLogStore

/-- Every system call of the step succeeds. -/
def WriterCalls.Succeeds (cfg : StoreConfig) (w : World) (wr : Writer) (io : WriterCalls) : Prop :=
  match wr.pc with
  | .tryOpen _ => io.openCalls.Succeeds
  | .write seq => ∀ f ∈ w.store.sequenceFiles.get? seq,
      failsEarly io.results (toWrite f wr.batch cfg.maxFileSize) = false ∧
        (writeBatchToFile io.results (toWrite f wr.batch cfg.maxFileSize) 0).2 ≠ .blocked
  | _ => True

instance WriterCalls.decidableSucceeds (cfg : StoreConfig) (w : World) (wr : Writer) (io : WriterCalls) :
    Decidable (io.Succeeds cfg w wr) :=
  match wr with
  | ⟨.tryOpen _, _, _⟩ => inferInstanceAs (Decidable io.openCalls.Succeeds)
  | ⟨.write seq, batch, _⟩ => inferInstanceAs (Decidable (∀ f ∈ w.store.sequenceFiles.get? seq,
      failsEarly io.results (toWrite f batch cfg.maxFileSize) = false ∧
        (writeBatchToFile io.results (toWrite f batch cfg.maxFileSize) 0).2 ≠ .blocked))
  | ⟨.getFile, _, _⟩ => isTrue trivial
  | ⟨.rotateInner, _, _⟩ => isTrue trivial
  | ⟨.fixPosition _, _, _⟩ => isTrue trivial
  | ⟨.checkAge _, _, _⟩ => isTrue trivial
  | ⟨.advance _ _, _, _⟩ => isTrue trivial
  | ⟨.setNext _, _, _⟩ => isTrue trivial
  | ⟨.finish, _, _⟩ => isTrue trivial
  | ⟨.returned, _, _⟩ => isTrue trivial
  | ⟨.threw _, _, _⟩ => isTrue trivial

/-- The current file, which is `seq`, has an open object. -/
def CurrentIs (s : TransactionLogStore) (seq : ℕ) : Prop :=
  seq = s.currentSequenceNumber ∧ ∃ f, s.sequenceFiles.get? seq = some f ∧ f.isOpen = true

/-- What holds at each place of the writer. -/
def Writer.Place (cfg : StoreConfig) (w : World) (wr : Writer) : Prop :=
  match wr.pc with
  | .getFile => wr.batch.isComplete = false ∧ Bounded w.store w.disk
  | .tryOpen seq => wr.batch.isComplete = false ∧ Bounded w.store w.disk ∧ seq = w.store.currentSequenceNumber ∧
      (w.store.sequenceFiles.get? seq).isSome
  | .rotateInner => wr.batch.isComplete = false ∧ 0 < cfg.maxFileSize ∧ Bounded w.store w.disk ∧
      ∃ f, w.store.sequenceFiles.get? w.store.currentSequenceNumber = some f ∧ cfg.maxFileSize ≤ f.size
  | .fixPosition seq => wr.batch.isComplete = false ∧ Bounded w.store w.disk ∧ CurrentIs w.store seq
  | .checkAge seq => wr.batch.isComplete = false ∧ Bounded w.store w.disk ∧ CurrentIs w.store seq
  | .write seq => wr.batch.isComplete = false ∧ Bounded w.store w.disk ∧ CurrentIs w.store seq
  | .advance seq _ => seq = w.store.currentSequenceNumber ∧ (w.store.sequenceFiles.get? seq).isSome ∧
      (cfg.maxFileSize = 0 ∨ TRANSACTION_LOG_FILE_HEADER_SIZE < cfg.maxFileSize →
        TRANSACTION_LOG_FILE_HEADER_SIZE < (w.disk.bytes seq).length)
  | .setNext seq => (w.store.sequenceFiles.get? seq).isSome ∧ (wr.batch.isComplete = false →
      Bounded w.store w.disk ∧ w.store.sequenceFiles.get? w.store.currentSequenceNumber = none ∧
        w.disk.logs.get? w.store.currentSequenceNumber = none)
  | .finish => wr.batch.isComplete = true
  | .returned => wr.batch.isComplete = true
  | .threw _ => False

/-- The call so far: the batch is the one given, and the log holds what was there followed
by the records taken. -/
structure Writing (cfg : StoreConfig) (d0 : Disk) (b0 : TransactionLogEntryBatch) (w : World) (wr : Writer) : Prop where
  log : LogOk w.store w.disk
  entries : wr.batch.entries = b0.entries
  timestamp : wr.batch.timestamp = b0.timestamp
  content : w.disk.content = d0.content ++ b0.records.take wr.batch.currentEntryIndex
  place : wr.Place cfg w

/-- A step that leaves the disk and the batch alone. -/
structure Quiet (w w' : World) (wr wr' : Writer) : Prop where
  writer : w'.writer = some wr'
  batch : wr'.batch = wr.batch
  logs : w'.disk.logs = w.disk.logs
  latest : w'.store.latestTimestamp = w.store.latestTimestamp

section
variable {cfg : StoreConfig} {d0 : Disk} {b0 : TransactionLogEntryBatch} {w w' : World} {wr : Writer} {io : WriterCalls}

theorem Disk.content_congr {d d' : Disk} (h : d'.logs = d.logs) : d'.content = d.content := by
  rw [Disk.content, Disk.content, h]

theorem Writing.quiet {wr' : Writer} (h : Writing cfg d0 b0 w wr) (hq : Quiet w w' wr wr')
    (hlog : LogOk w'.store w'.disk) (hplace : wr'.Place cfg w') : Writing cfg d0 b0 w' wr' :=
  ⟨hlog, hq.batch ▸ h.entries, hq.batch ▸ h.timestamp, by rw [Disk.content_congr hq.logs, hq.batch]; exact h.content,
    hplace⟩

theorem getFile_spec (io : WriterCalls) (h : Writing cfg d0 b0 w wr) (hpc : wr.pc = .getFile) :
    ∃ w' wr', writerStep cfg w wr io = some w' ∧ Quiet w w' wr wr' ∧ Writing cfg d0 b0 w' wr' ∧
      wr'.pc = .tryOpen w.store.currentSequenceNumber ∧ w'.store.currentSequenceNumber = w.store.currentSequenceNumber ∧
      ∃ f, w'.store.sequenceFiles.get? w.store.currentSequenceNumber = some f ∧
        (w.store.sequenceFiles.get? w.store.currentSequenceNumber = some f ∨
          (w.store.sequenceFiles.get? w.store.currentSequenceNumber = none ∧ f.isOpen = false)) := by
  obtain ⟨pc, batch, pos⟩ := wr
  obtain rfl : pc = .getFile := hpc
  obtain ⟨hinc, hb⟩ := h.place
  refine ⟨_, ⟨.tryOpen w.store.currentSequenceNumber, batch, pos⟩, rfl, ?_⟩
  have hlog := h.log.getLogFile io.now
  unfold getLogFile at hlog ⊢
  cases hg : w.store.sequenceFiles.get? w.store.currentSequenceNumber with
  | some f =>
    rw [hg] at hlog
    have hq : Quiet w { w with writer := some ⟨.tryOpen w.store.currentSequenceNumber, batch, pos⟩ }
        ⟨.getFile, batch, pos⟩ ⟨.tryOpen w.store.currentSequenceNumber, batch, pos⟩ := ⟨rfl, rfl, rfl, rfl⟩
    refine ⟨hq, h.quiet hq hlog ⟨hinc, hb, rfl, ?_⟩, rfl, rfl, f, hg, Or.inl rfl⟩
    rw [hg]
    rfl
  | none =>
    rw [hg] at hlog
    refine ⟨⟨rfl, rfl, rfl, rfl⟩, h.quiet ⟨rfl, rfl, rfl, rfl⟩ hlog ⟨hinc, hb, rfl, ?_⟩, rfl, rfl, _,
      SeqMap.get?_set_self _ _ _, Or.inr ⟨rfl, rfl⟩⟩
    rw [SeqMap.get?_set_self]
    rfl

theorem tryOpen_spec {seq : ℕ} (h : Writing cfg d0 b0 w wr) (hpc : wr.pc = .tryOpen seq) (hio : io.Succeeds cfg w wr) :
    ∃ w' wr', writerStep cfg w wr io = some w' ∧ w'.writer = some wr' ∧ wr'.batch = wr.batch ∧
      Writing cfg d0 b0 w' wr' ∧ ∃ f, w.store.sequenceFiles.get? w.store.currentSequenceNumber = some f ∧
        ((wr'.pc = .rotateInner ∧ 0 < cfg.maxFileSize ∧ cfg.maxFileSize ≤ f.size ∧
          w'.store = w.store ∧ w'.disk = w.disk) ∨
          (wr'.pc = .fixPosition w.store.currentSequenceNumber ∧ (cfg.maxFileSize = 0 ∨ f.size < cfg.maxFileSize) ∧
            ∃ f', CurrentOpened w.store w.disk f io.openCalls w'.store w'.disk f')) := by
  obtain ⟨pc, batch, pos⟩ := wr
  obtain rfl : pc = .tryOpen seq := hpc
  obtain ⟨hinc, hb, rfl, hsome⟩ := h.place
  obtain ⟨f, hf⟩ := Option.isSome_iff_exists.mp hsome
  simp only [writerStep, hf, Option.bind_some]
  by_cases hroom : cfg.maxFileSize = 0 ∨ f.size < cfg.maxFileSize
  · rw [if_pos hroom]
    obtain ⟨hnone, f', hop⟩ := ensureOpen_current h.log hb hf hio
    have hcur : (w.store.ensureOpen w.disk w.store.currentSequenceNumber f io.openCalls).2.1.currentSequenceNumber =
        w.store.currentSequenceNumber := by
      obtain ⟨files, hs⟩ := hop.store
      rw [hs]
    refine ⟨_, ⟨.fixPosition w.store.currentSequenceNumber, batch, pos⟩, rfl, ?_, rfl, ?_, f, rfl,
      Or.inr ⟨rfl, hroom, f', hop⟩⟩
    · simp only [hnone, Option.isSome_none, Bool.false_eq_true, if_false]
    · refine ⟨hop.log, h.entries, h.timestamp, hop.content.trans h.content, hinc, hop.bounded, hcur.symm,
        f', hop.file, hop.isOpen⟩
  · rw [if_neg hroom]
    obtain ⟨hpos, hge⟩ := not_or.mp hroom
    have hmax : 0 < cfg.maxFileSize := Nat.pos_of_ne_zero hpos
    refine ⟨_, ⟨.rotateInner, batch, pos⟩, rfl, rfl, rfl, ?_, f, rfl, Or.inl ⟨rfl, hmax, not_lt.mp hge, rfl, rfl⟩⟩
    exact h.quiet ⟨rfl, rfl, rfl, rfl⟩ h.log ⟨hinc, hmax, hb, f, hf, not_lt.mp hge⟩

theorem rotateInner_spec (io : WriterCalls) (h : Writing cfg d0 b0 w wr) (hpc : wr.pc = .rotateInner) :
    ∃ w' wr', writerStep cfg w wr io = some w' ∧ Quiet w w' wr wr' ∧ Writing cfg d0 b0 w' wr' ∧
      wr'.pc = .getFile ∧ w'.store = w.store.advanceSequence := by
  obtain ⟨pc, batch, pos⟩ := wr
  obtain rfl : pc = .rotateInner := hpc
  obtain ⟨hlog, hb⟩ := h.log.advance
  refine ⟨_, ⟨.getFile, batch, pos⟩, rfl, ⟨rfl, rfl, rfl, rfl⟩, ?_, rfl, rfl⟩
  exact h.quiet ⟨rfl, rfl, rfl, rfl⟩ hlog ⟨h.place.1, hb⟩

/-- The positions of other transactions do not matter to the log. -/
theorem LogOk.congr {s s' : TransactionLogStore} {d : Disk} (h : LogOk s d) (hf : s'.sequenceFiles = s.sequenceFiles)
    (hc : s'.currentSequenceNumber = s.currentSequenceNumber) (hn : s'.nextSequenceNumber = s.nextSequenceNumber) :
    LogOk s' d := by
  refine ⟨h.whole, ?_, ?_, ?_, ?_, ?_, ?_⟩
  all_goals simp only [hf, hc, hn]
  · exact h.version
  · exact h.size_open
  · exact h.size_closed
  · exact h.file_le
  · exact h.log_le
  · exact h.current_lt

theorem fixPosition_spec {seq : ℕ} (io : WriterCalls) (h : Writing cfg d0 b0 w wr) (hpc : wr.pc = .fixPosition seq) :
    ∃ w' wr', writerStep cfg w wr io = some w' ∧ Quiet w w' wr wr' ∧ Writing cfg d0 b0 w' wr' ∧
      wr'.pc = .checkAge seq ∧ w'.store.sequenceFiles = w.store.sequenceFiles ∧
      w'.store.currentSequenceNumber = w.store.currentSequenceNumber ∧
      w'.store.nextSequenceNumber = w.store.nextSequenceNumber := by
  obtain ⟨pc, batch, pos⟩ := wr
  obtain rfl : pc = .fixPosition seq := hpc
  simp only [writerStep]
  split_ifs
  · refine ⟨_, ⟨.checkAge seq, batch, w.store.nextLogPosition⟩, rfl, ⟨rfl, rfl, rfl, rfl⟩, ?_, rfl, rfl, rfl, rfl⟩
    exact h.quiet ⟨rfl, rfl, rfl, rfl⟩ (h.log.congr rfl rfl rfl) h.place
  · refine ⟨_, ⟨.checkAge seq, batch, pos⟩, rfl, ⟨rfl, rfl, rfl, rfl⟩, ?_, rfl, rfl, rfl, rfl⟩
    exact h.quiet ⟨rfl, rfl, rfl, rfl⟩ h.log h.place

theorem outerLoop_getFile {b : TransactionLogEntryBatch} (h : b.isComplete = false) : outerLoop b = .getFile := by
  simp [outerLoop, h]

theorem outerLoop_finish {b : TransactionLogEntryBatch} (h : b.isComplete = true) : outerLoop b = .finish := by
  simp [outerLoop, h]

theorem checkAge_spec {seq : ℕ} (io : WriterCalls) (h : Writing cfg d0 b0 w wr) (hpc : wr.pc = .checkAge seq) :
    ∃ w' wr', writerStep cfg w wr io = some w' ∧ Quiet w w' wr wr' ∧ Writing cfg d0 b0 w' wr' ∧
      ∃ f, w.store.sequenceFiles.get? w.store.currentSequenceNumber = some f ∧
        ((tooOld cfg f io.now = true ∧ wr'.pc = .getFile ∧ w'.store = w.store.advanceSequence) ∨
          (tooOld cfg f io.now = false ∧ wr'.pc = .write seq ∧ w'.store = w.store)) := by
  obtain ⟨pc, batch, pos⟩ := wr
  obtain rfl : pc = .checkAge seq := hpc
  obtain ⟨hinc, hb, rfl, f, hf, ho⟩ := h.place
  simp only [writerStep, hf, Option.bind_some]
  cases hold : tooOld cfg f io.now with
  | true =>
    obtain ⟨hlog, hb'⟩ := h.log.advance
    refine ⟨_, ⟨.getFile, batch, pos⟩, rfl, ⟨?_, rfl, rfl, rfl⟩, ?_, f, rfl, Or.inl ⟨hold, rfl, rfl⟩⟩
    · exact congrArg (fun pc => some (Writer.mk pc batch pos)) (outerLoop_getFile hinc)
    · exact h.quiet ⟨congrArg (fun pc => some (Writer.mk pc batch pos)) (outerLoop_getFile hinc), rfl, rfl, rfl⟩ hlog
        ⟨hinc, hb'⟩
  | false =>
    refine ⟨_, ⟨.write w.store.currentSequenceNumber, batch, pos⟩, rfl, ⟨rfl, rfl, rfl, rfl⟩, ?_, f, rfl,
      Or.inr ⟨hold, rfl, rfl⟩⟩
    exact h.quiet ⟨rfl, rfl, rfl, rfl⟩ h.log ⟨hinc, hb, rfl, f, hf, ho⟩

theorem numEntriesToWrite_le (f : TransactionLogFile) (b : TransactionLogEntryBatch) (maxFileSize : ℕ) :
    f.numEntriesToWrite b maxFileSize ≤ b.pending.length := by
  unfold TransactionLogFile.numEntriesToWrite
  split_ifs
  · exact Nat.zero_le _
  · exact countFitting_le _ _ _
  · rw [TransactionLogEntryBatch.pending, List.length_drop]

/-- What a successful `writeEntries` leaves. -/
theorem writeEntries_success {f : TransactionLogFile} (bytes : Bytes) {batch : TransactionLogEntryBatch}
    {maxFileSize : ℕ} {results : List WritevResult} (hv : f.version = 1) (hsize : f.size < UINT32_RANGE)
    (hok : failsEarly results (toWrite f batch maxFileSize) = false)
    (hret : (f.writeEntries bytes batch maxFileSize results).outcome ≠ .blocked) :
    let n := f.numEntriesToWrite batch maxFileSize
    ∃ total, f.writeEntries bytes batch maxFileSize results = ⟨.written total, none,
      { f.touched with size := add32 f.size (batch.nextBytes n).length }, bytes ++ batch.nextBytes n,
      batch.advanced n⟩ := by
  intro n
  rcases writeEntries_cases f bytes batch maxFileSize results hret with
    ⟨hne, -⟩ | ⟨-, hn, hr⟩ | ⟨-, -, hf, -⟩ | ⟨-, -, -, hr⟩
  · exact absurd hv hne
  · refine ⟨0, hr.trans ?_⟩
    have hn' : n = 0 := hn
    have hsz : ({ f.touched with size := add32 f.size 0 } : TransactionLogFile) = f.touched := by
      rw [add32, Nat.add_zero, Nat.mod_eq_of_lt hsize]
      rfl
    rw [hn', nextBytes_zero, List.append_nil, List.length_nil, hsz]
    rfl
  · rw [hok] at hf
    cases hf
  · exact ⟨_, hr⟩

theorem nextRecords_take (b : TransactionLogEntryBatch) (n : ℕ) :
    b.records.take b.currentEntryIndex ++ b.nextRecords n = b.records.take (b.currentEntryIndex + n) := by
  rw [TransactionLogEntryBatch.nextRecords, List.take_add]

/-- A file that takes nothing of an incomplete batch holds an entry already. -/
theorem numEntriesToWrite_ne_zero {f : TransactionLogFile} {b : TransactionLogEntryBatch} {maxFileSize : ℕ}
    (hmax : maxFileSize = 0 ∨ TRANSACTION_LOG_FILE_HEADER_SIZE < maxFileSize) (hinc : b.isComplete = false)
    (hsize : f.size ≤ TRANSACTION_LOG_FILE_HEADER_SIZE) : f.numEntriesToWrite b maxFileSize ≠ 0 := by
  have hlt : b.currentEntryIndex < b.entries.length := by
    rw [TransactionLogEntryBatch.isComplete, decide_eq_false_iff_not] at hinc
    exact not_le.mp hinc
  unfold TransactionLogFile.numEntriesToWrite
  split_ifs with h1 h2
  · omega
  · refine countFitting_ne_zero hsize ?_
    intro hnil
    have := congrArg List.length hnil
    rw [TransactionLogEntryBatch.pending, List.length_drop, List.length_nil] at this
    omega
  · omega

theorem nextBytes_length_pos {b : TransactionLogEntryBatch} {n : ℕ} (hn : n ≠ 0) (hinc : b.isComplete = false) :
    0 < (b.nextBytes n).length := by
  have hlt : b.currentEntryIndex < b.entries.length := by
    rw [TransactionLogEntryBatch.isComplete, decide_eq_false_iff_not] at hinc
    exact not_le.mp hinc
  obtain ⟨m, rfl⟩ := Nat.exists_eq_succ_of_ne_zero hn
  rw [nextBytes_length, TransactionLogEntryBatch.pending, List.drop_eq_getElem_cons hlt, List.take_succ_cons, totalSize,
    List.map_cons, List.sum_cons, TransactionLogEntry.size]
  simp only [TRANSACTION_LOG_ENTRY_HEADER_SIZE]
  omega

/-- A successful append: the entries taken are at the end of the current file. -/
structure Appended (cfg : StoreConfig) (w w' : World) (wr wr' : Writer) (f : TransactionLogFile) : Prop where
  file : w.store.sequenceFiles.get? w.store.currentSequenceNumber = some f
  size : f.size = (w.disk.bytes w.store.currentSequenceNumber).length
  writer : w'.writer = some wr'
  batch : wr'.batch = wr.batch.advanced (f.numEntriesToWrite wr.batch cfg.maxFileSize)
  current : w'.store.currentSequenceNumber = w.store.currentSequenceNumber
  get?_ne : ∀ q, q ≠ w.store.currentSequenceNumber → w'.disk.logs.get? q = w.disk.logs.get? q
  bytes : w'.disk.bytes w.store.currentSequenceNumber = w.disk.bytes w.store.currentSequenceNumber ++
    wr.batch.nextBytes (f.numEntriesToWrite wr.batch cfg.maxFileSize)
  latest : w'.store.latestTimestamp = w.store.latestTimestamp

theorem write_spec {seq : ℕ} (h : Writing cfg d0 b0 w wr) (hpc : wr.pc = .write seq) (hio : io.Succeeds cfg w wr) :
    ∃ w' wr' f, writerStep cfg w wr io = some w' ∧ Appended cfg w w' wr wr' f ∧ Writing cfg d0 b0 w' wr' ∧
      wr'.pc = .advance seq f.size := by
  obtain ⟨pc, batch, pos⟩ := wr
  obtain rfl : pc = .write seq := hpc
  obtain ⟨hinc, hb, rfl, f, hf, ho⟩ := h.place
  obtain ⟨hsize, hne⟩ := h.log.size_open hf ho
  rw [Nat.mod_eq_of_lt hb] at hsize
  have hget := Disk.get?_of_bytes hne
  obtain ⟨ts, rs, hw⟩ := (h.log.whole hget).resolve_left hne
  obtain ⟨hok, hret⟩ := hio f hf
  have hv := h.log.version hf
  obtain ⟨total, hr⟩ := writeEntries_success (w.disk.bytes w.store.currentSequenceNumber) hv (hsize ▸ hb) hok
    (writeEntries_returns hret)
  set n := f.numEntriesToWrite batch cfg.maxFileSize
  have hfits : ∀ r ∈ batch.nextRecords n, r.Fits := fun r hr' =>
    records_fit batch r (List.mem_of_mem_drop (List.mem_of_mem_take hr'))
  have hw' := hw.append hfits
  let f' : TransactionLogFile := { f.touched with
    size := add32 f.size (batch.nextBytes n).length, fileLastWriteTime := io.now }
  let bytes' := w.disk.bytes w.store.currentSequenceNumber ++ batch.nextBytes n
  have hstep : writerStep cfg w ⟨.write w.store.currentSequenceNumber, batch, pos⟩ io = some { w with
      store := w.store.setFile w.store.currentSequenceNumber f'
      disk := { w.disk with logs := w.disk.logs.set w.store.currentSequenceNumber bytes' }
      writer := some ⟨.advance w.store.currentSequenceNumber f.size, batch.advanced n, pos⟩ } := by
    simp only [writerStep, hf, Option.bind_some, hr, reduceCtorEq, if_false, Option.isSome_none, Bool.false_eq_true]
    rfl
  refine ⟨_, ⟨.advance w.store.currentSequenceNumber f.size, batch.advanced n, pos⟩, f, hstep,
    ⟨hf, hsize, rfl, rfl, rfl, fun q hq => SeqMap.get?_set_ne _ hq _, ?_, rfl⟩,
    ⟨?_, h.entries, h.timestamp, ?_, rfl, ?_, ?_⟩, rfl⟩
  · rw [Disk.bytes_set, if_pos rfl]
  · refine h.log.replaceCurrent _ hw' hv ho ?_
    change add32 f.size _ = _
    rw [add32, List.length_append, hsize]
  · have hmax : ∀ q, (w.disk.logs.get? q).isSome → q ≤ w.store.currentSequenceNumber := by
      intro q hq
      obtain ⟨b, hb⟩ := Option.isSome_iff_exists.mp hq
      exact h.log.log_le hb
    have hrec : fileRecords (w.disk.bytes w.store.currentSequenceNumber ++ batch.nextBytes n) =
        fileRecords (w.disk.bytes w.store.currentSequenceNumber) ++ batch.nextRecords n := by
      rw [hw.records]
      exact hw'.records
    rw [content_set _ _ _ hmax hrec, h.content, List.append_assoc, ← records_congr h.entries h.timestamp]
    exact congrArg _ (nextRecords_take batch n)
  · exact Option.isSome_iff_exists.mpr ⟨_, SeqMap.get?_set_self _ _ _⟩
  · intro hmax
    rw [Disk.bytes_set, if_pos rfl, List.length_append]
    by_cases hle : f.size ≤ TRANSACTION_LOG_FILE_HEADER_SIZE
    · have := nextBytes_length_pos (numEntriesToWrite_ne_zero hmax hinc hle) hinc
      have hlen := hw.length
      change 0 < (batch.nextBytes n).length at this
      omega
    · omega

theorem advance_spec {seq sizeBefore : ℕ} (io : WriterCalls) (h : Writing cfg d0 b0 w wr)
    (hpc : wr.pc = .advance seq sizeBefore) :
    ∃ w' wr', writerStep cfg w wr io = some w' ∧ Quiet w w' wr wr' ∧ Writing cfg d0 b0 w' wr' ∧ wr'.pc = .setNext seq ∧
      (w'.store = w.store.advanceSequence ∨ (wr.batch.isComplete = true ∧ w'.store = w.store)) := by
  obtain ⟨pc, batch, pos⟩ := wr
  obtain rfl : pc = .advance seq sizeBefore := hpc
  obtain ⟨rfl, hsome, -⟩ := h.place
  obtain ⟨f, hf⟩ := Option.isSome_iff_exists.mp hsome
  simp only [writerStep, hf, Option.bind_some]
  split_ifs with hrot
  · obtain ⟨hlog, hb⟩ := h.log.advance
    refine ⟨_, ⟨.setNext w.store.currentSequenceNumber, batch, pos⟩, rfl, ⟨rfl, rfl, rfl, rfl⟩, ?_, rfl, Or.inl rfl⟩
    exact h.quiet ⟨rfl, rfl, rfl, rfl⟩ hlog ⟨hsome, fun _ => ⟨hb, h.log.next_fresh⟩⟩
  · have hcomplete : batch.isComplete = true := by
      cases hc : batch.isComplete with
      | true => rfl
      | false => exact absurd (Or.inr (Or.inr (by rw [hc]; rfl))) hrot
    refine ⟨_, ⟨.setNext w.store.currentSequenceNumber, batch, pos⟩, rfl, ⟨rfl, rfl, rfl, rfl⟩, ?_, rfl,
      Or.inr ⟨hcomplete, rfl⟩⟩
    refine h.quiet ⟨rfl, rfl, rfl, rfl⟩ h.log ⟨hsome, fun hinc => ?_⟩
    rw [hcomplete] at hinc
    cases hinc

theorem setNext_spec {seq : ℕ} (io : WriterCalls) (h : Writing cfg d0 b0 w wr) (hpc : wr.pc = .setNext seq) :
    ∃ w' wr', writerStep cfg w wr io = some w' ∧ Quiet w w' wr wr' ∧ Writing cfg d0 b0 w' wr' ∧
      wr'.pc = outerLoop wr.batch ∧ w'.store.sequenceFiles = w.store.sequenceFiles ∧
      w'.store.currentSequenceNumber = w.store.currentSequenceNumber := by
  obtain ⟨pc, batch, pos⟩ := wr
  obtain rfl : pc = .setNext seq := hpc
  obtain ⟨hsome, hfresh⟩ := h.place
  obtain ⟨f, hf⟩ := Option.isSome_iff_exists.mp hsome
  simp only [writerStep, hf, Option.bind_some]
  refine ⟨_, ⟨outerLoop batch, batch, pos⟩, rfl, ⟨rfl, rfl, rfl, rfl⟩, ?_, rfl, rfl, rfl⟩
  refine h.quiet ⟨rfl, rfl, rfl, rfl⟩ (h.log.congr rfl rfl rfl) ?_
  cases hc : batch.isComplete with
  | true =>
    rw [outerLoop_finish hc]
    exact hc
  | false =>
    rw [outerLoop_getFile hc]
    exact ⟨hc, (hfresh hc).1⟩

theorem finish_spec (io : WriterCalls) (h : Writing cfg d0 b0 w wr) (hpc : wr.pc = .finish) :
    ∃ w' wr', writerStep cfg w wr io = some w' ∧ Quiet w w' wr wr' ∧ Writing cfg d0 b0 w' wr' ∧ wr'.pc = .returned ∧
      w'.store.sequenceFiles = w.store.sequenceFiles ∧
      w'.store.currentSequenceNumber = w.store.currentSequenceNumber := by
  obtain ⟨pc, batch, pos⟩ := wr
  obtain rfl : pc = .finish := hpc
  refine ⟨_, ⟨.returned, batch, pos⟩, rfl, ⟨rfl, rfl, rfl, rfl⟩, ?_, rfl, rfl, rfl⟩
  exact h.quiet ⟨rfl, rfl, rfl, rfl⟩ (h.log.congr rfl rfl rfl) h.place

end

end RocksdbJs
