import RocksdbJs.Sanity.LogWalk
import RocksdbJs.Sanity.Resumed
import RocksdbJs.Proofs.BatchAppend
import RocksdbJs.Proofs.RecoveryScan
import RocksdbJs.Proofs.WalkersAgree

/-! Recovery and then appends lose nothing. The scan cuts what a crash has left behind the whole
frames, so `load` comes back with those, and every call of `writeBatch` after it goes on behind
them. It does not cut a tail that begins with a zero timestamp, and where one of these stands both
walkers stop too, before all that is appended later. -/

namespace RocksdbJs

open TransactionLogStore

/-- What a crash leaves behind the whole frames `front`: nothing, a part of one more frame with
no run of valid framing in it, or zeros. -/
inductive CrashTail (front : Bytes) : Bytes → Prop
  | none : CrashTail front []
  | torn (r : LogRecord) (n : ℕ) (hfits : r.Fits) (hcut : n < r.frame.length)
      (hframing : ∀ start, front.length ≤ start → ¬ Resumes (front ++ r.frame.take n) start) :
      CrashTail front (r.frame.take n)
  | zeros (n : ℕ) : CrashTail front (List.replicate n 0)

/-- A file with a valid header, whole frames and what the crash left. -/
structure CrashImage (bytes : Bytes) (timestamp : Binary64) (rs : List LogRecord) (tail : Bytes) : Prop where
  eq : bytes = fileHeader timestamp ++ frames rs ++ tail
  fits : ∀ r ∈ rs, r.Fits
  tail : CrashTail (fileHeader timestamp ++ frames rs) tail
  below : bytes.length < UINT32_RANGE

/-- A timestamp that a walk over everything takes. -/
def WalkedTimestamp (timestamp : Binary64) : Prop := timestamp.isZero = false ∧ inFullRange timestamp = true

/-- Every frame is one that the scan goes over and the walkers give, and what is behind them is shorter
than a frame header or begins with a timestamp that is not zero. -/
structure Mendable (rs : List LogRecord) (tail : Bytes) : Prop where
  frames : ∀ r ∈ rs, r.data ≠ [] ∧ WalkedTimestamp r.timestamp
  tail : ¬ (TRANSACTION_LOG_ENTRY_HEADER_SIZE ≤ tail.length ∧ (readDoubleBE tail 0).isZero = true)

section
variable {bytes tail : Bytes} {timestamp : Binary64} {rs : List LogRecord}

theorem readDoubleBE_zeros {n : ℕ} (h : TRANSACTION_LOG_ENTRY_HEADER_SIZE ≤ n) :
    (readDoubleBE (List.replicate n 0) 0).isZero = true := by
  simp only [TRANSACTION_LOG_ENTRY_HEADER_SIZE] at h
  obtain ⟨k, rfl⟩ : ∃ k, n = 8 + k := ⟨n - 8, by omega⟩
  rw [List.replicate_add, readDoubleBE, BigEndian.read_append_left (by simp)]
  decide

/-- The scan cuts the tail of an image that can be mended. -/
theorem CrashImage.torn (h : CrashImage bytes timestamp rs tail) (hm : Mendable rs tail) :
    tail = [] ∨ Torn (fileHeader timestamp ++ frames rs ++ tail) (fileHeader timestamp ++ frames rs).length := by
  have hbelow := h.below
  rw [h.eq] at hbelow
  by_cases hshort : tail.length < TRANSACTION_LOG_ENTRY_HEADER_SIZE
  · exact Or.inr (Or.inl (by rw [List.length_append]; omega))
  have hlong := not_lt.mp hshort
  cases h.tail with
  | none => exact Or.inl rfl
  | zeros n =>
    rw [List.length_replicate] at hlong
    exact absurd ⟨by rwa [List.length_replicate], readDoubleBE_zeros hlong⟩ hm.tail
  | torn r n hfits hcut hframing =>
    have hn : (r.frame.take n).length = n := List.length_take_of_le hcut.le
    have hroom : TRANSACTION_LOG_ENTRY_HEADER_SIZE ≤ n := hn ▸ hlong
    have hframe := r.frame_length
    obtain ⟨hts, hsize⟩ := cut_frame hfits (fileHeader timestamp ++ frames rs) hroom hcut.le
    have hstart := (cut_frame hfits [] hroom hcut.le).1
    rw [List.nil_append, List.length_nil] at hstart
    refine Or.inr (Or.inr ⟨?_, Or.inr ?_, ?_⟩)
    · rw [hts]
      refine Bool.eq_false_iff.mpr fun hzero => hm.tail ⟨hlong, ?_⟩
      rw [hstart]
      exact hzero
    · rw [hsize, List.length_append, hn]
      omega
    · refine Bool.eq_false_iff.mpr fun hres => ?_
      obtain ⟨start, hlt, hr⟩ := (validFramingResumes_iff hbelow _).mp hres
      exact hframing start (by omega) hr

theorem CrashImage.recoversTo (h : CrashImage bytes timestamp rs tail) (hm : Mendable rs tail)
    {io : TransactionLogFile.RecoverCalls} (hio : io.readable = true ∧ io.truncated = true) :
    RecoversTo io bytes timestamp (· = rs) := by
  have hrs : ∀ r ∈ rs, r.Scannable := fun r hr => ⟨h.fits r hr, (hm.frames r hr).1, (hm.frames r hr).2.1⟩
  have hbelow := h.below
  rw [h.eq] at hbelow ⊢
  exact recoversTo_image hrs hbelow (h.torn hm) hio

end

section
variable {cfg : StoreConfig} {first : ℕ} {rs : List LogRecord} {w w0 : World} {bs : List TransactionLogEntryBatch}

/-- Calls of `writeBatch` from `w0` on, one after the other and with every system call succeeding. -/
inductive WritesBatches (cfg : StoreConfig) (w0 : World) : List TransactionLogEntryBatch → World → Prop
  | nil : WritesBatches cfg w0 [] w0
  | batch {bs : List TransactionLogEntryBatch} {b : TransactionLogEntryBatch} {w w' : World}
      {wr : Writer} {ios : List WriterCalls}
      (before : WritesBatches cfg w0 bs w) (unwritten : Unwritten b)
      (succeed : Runs.Along (stepWriter cfg) (fun w io => ∀ wr ∈ w.writer, io.Succeeds cfg w wr ∧ io.Ok cfg w.store wr)
        (beginWrite w b) ios)
      (run : Runs.exec (stepWriter cfg) (beginWrite w b) ios = some w') (writer : w'.writer = some wr)
      (returned : wr.pc = .returned) : WritesBatches cfg w0 (bs ++ [b]) w'

/-- Between two calls: the files are chained from `first` on, and the records in them are `rs`. -/
structure Resumed (first : ℕ) (rs : List LogRecord) (w : World) : Prop where
  ready : Ready w
  chained : Chained first w.store w.disk
  opened : OpenAt w.store w.store.currentSequenceNumber
  file : (w.disk.logs.get? first).isSome
  records : w.disk.recordsFrom ⟨0, first⟩ = rs

/-- Behind the last file there is no record. -/
theorem recordsFrom_none {d : Disk} {k : ℕ} (h : ∀ q, (d.logs.get? q).isSome → q < k) : d.recordsFrom ⟨0, k⟩ = [] := by
  rw [recordsFrom_eq, List.flatMap_eq_nil_iff]
  intro e he
  have hlt := h e.1 (by rw [SeqMap.get?_eq_some_iff.mpr he]; rfl)
  rw [fileShelf_none (show e.1 < (⟨0, k⟩ : LogPosition).logSequenceNumber from hlt), List.map_nil]

theorem Chained.ready (h : Chained first w.store w.disk) (hlog : LogOk w.store w.disk) : Ready w :=
  ⟨hlog, h.below _, h.notClosing⟩

/-- What `load` leaves. -/
theorem Recovered.resumed {newest : ℕ} {timestamp : Binary64} {s : TransactionLogStore} {d : Disk}
    (h : Recovered newest (fileHeader timestamp ++ frames rs) s d) (hfits : ∀ r ∈ rs, r.Fits) :
    Resumed newest rs { store := s, disk := d } := by
  have hwhole : WholeFile (fileHeader timestamp ++ frames rs) timestamp rs := ⟨rfl, hfits⟩
  refine ⟨h.chained.ready h.log, h.chained, ?_, by rw [h.file]; rfl, ?_⟩
  · rw [h.current]
    exact h.opened
  have hbehind : d.recordsFrom ⟨0, newest + 1⟩ = [] := recordsFrom_none fun k hk => by
    have hle := h.log.logs_le k hk
    rw [h.current] at hle
    exact Nat.lt_succ_of_le hle
  have hfile : fileRecords (d.bytes newest) = [] ++ rs := by
    rw [Disk.bytes_eq h.file, hwhole.records]
    rfl
  rw [← recordsFrom_begin, recordsFrom_file hfile, hbehind, List.append_nil]

/-- The first state of a call. -/
theorem Resumed.begin {b : TransactionLogEntryBatch} (cfg : StoreConfig) (h : Resumed first rs w) (hb : Unwritten b) :
    ∃ wr, (beginWrite w b).writer = some wr ∧ Continuing first cfg w.disk b (beginWrite w b) wr ∧
      wr.Ends (beginWrite w b) := by
  obtain ⟨wr, hwr, hpc, -, hd, hfiles, hcur, hwriting⟩ := beginWrite_writing cfg h.ready hb
  have hbegin : (beginWrite w b).store.isClosing = w.store.isClosing ∧
      (beginWrite w b).store.nextSequenceNumber = w.store.nextSequenceNumber := by
    unfold beginWrite
    simp only [h.ready.notClosing, Bool.false_eq_true, if_false]
    exact ⟨h.ready.notClosing, rfl⟩
  obtain ⟨hclosing, hnext⟩ := hbegin
  refine ⟨wr, hwr, ⟨hwriting, ?_, ?_, .of_logs (by rw [hd])⟩, by rw [Writer.Ends, hpc]; trivial⟩
  · refine h.chained.congr hclosing hcur hnext (fun k _ => by rw [hfiles]) (fun k hk hsome => ?_) fun k => ?_
    · rw [hd] at hsome
      rw [hfiles]
      exact h.chained.filed k hk hsome
    · rw [hd]
      exact h.chained.below k
  · rw [Writer.HasOpened, hpc]
    change OpenAt (beginWrite w b).store (beginWrite w b).store.currentSequenceNumber
    rw [OpenAt, hfiles, hcur]
    exact h.opened

theorem beginWrite_fromFile (w : World) (b : TransactionLogEntryBatch) (first : ℕ) :
    beginWrite (w.fromFile first) b = (beginWrite w b).fromFile first := by
  unfold beginWrite
  rw [World.fromFile_store, fromFile_isClosing]
  split_ifs
  · rfl
  · rfl

theorem stepWriter_writer {w' : World} {io : WriterCalls} (h : stepWriter cfg w io = some w') :
    ∃ wr', w'.writer = some wr' := by
  rw [stepWriter, Option.bind_eq_some_iff] at h
  obtain ⟨wr, -, hstep⟩ := h
  cases writerStep_move hstep with
  | turn | rotate | get | opens | place | append | setNext | finish => exact ⟨_, rfl⟩

/-- The system calls of a step do not depend on the files before `first`. -/
theorem Continuing.calls {d0 : Disk} {b : TransactionLogEntryBatch} {wr : Writer} {io : WriterCalls}
    (h : Continuing first cfg d0 b (w.fromFile first) wr) (hio : io.Succeeds cfg w wr ∧ io.Ok cfg w.store wr) :
    io.Succeeds cfg (w.fromFile first) wr ∧ io.Ok cfg (w.fromFile first).store wr := by
  unfold WriterCalls.Succeeds WriterCalls.Ok at hio ⊢
  cases hpc : wr.pc with
  | write seq =>
    have hseq := h.writing.seq (Or.inr (Or.inr (Or.inl hpc)))
    have hle : first ≤ seq := hseq ▸ h.chained.le
    have hget : (w.fromFile first).store.sequenceFiles.get? seq = w.store.sequenceFiles.get? seq := fromFile_get? _ hle
    simp only [hpc, hget] at hio ⊢
    exact hio
  | tryOpen => simpa only [hpc] using hio
  | getFile | rotateInner | fixPosition | checkAge | advance | setNext | finish | returned | threw =>
    exact ⟨trivial, trivial⟩

/-- Inside a call with the batch `b` that began at `w`. -/
def InCall (first : ℕ) (cfg : StoreConfig) (w : World) (b : TransactionLogEntryBatch) (z : World) : Prop :=
  ∃ wr, z.writer = some wr ∧ Continuing first cfg (w.fromFile first).disk b (z.fromFile first) wr ∧
    wr.Ends (z.fromFile first)

theorem InCall.step {b : TransactionLogEntryBatch} {io : WriterCalls} {z z' : World} (h : InCall first cfg w b z)
    (hok : ∀ wr ∈ z.writer, io.Succeeds cfg z wr ∧ io.Ok cfg z.store wr) (hstep : stepWriter cfg z io = some z') :
    InCall first cfg w b z' := by
  obtain ⟨wr, hwr, hres, hends⟩ := h
  obtain ⟨wr', hwr'⟩ := stepWriter_writer hstep
  rw [stepWriter, hwr, Option.bind_some] at hstep
  obtain ⟨hsucc, hfit⟩ := hres.calls (hok wr hwr)
  exact ⟨wr', hwr', hres.step hsucc hfit hends (hres.fromFile hstep) hwr'⟩

/-- The call returns with its batch behind the records before. -/
theorem Resumed.batch {b : TransactionLogEntryBatch} {w' : World} {wr : Writer} {ios : List WriterCalls}
    (h : Resumed first rs (w.fromFile first)) (hb : Unwritten b)
    (hok : Runs.Along (stepWriter cfg) (fun w io => ∀ wr ∈ w.writer, io.Succeeds cfg w wr ∧
      io.Ok cfg w.store wr) (beginWrite w b) ios)
    (hrun : Runs.exec (stepWriter cfg) (beginWrite w b) ios = some w') (hwr : w'.writer = some wr)
    (hret : wr.pc = .returned) :
    Resumed first (rs ++ b.records) (w'.fromFile first) := by
  have hbegin : InCall first cfg w b (beginWrite w b) := by
    have hbegin := h.begin cfg hb
    rwa [beginWrite_fromFile] at hbegin
  have hcall : InCall first cfg w b w' :=
    Runs.exec_invariant (fun _ _ _ hi hok hstep => hi.step hok hstep) hbegin hok hrun
  obtain ⟨vr, hvr, hres, -⟩ := hcall
  obtain rfl := Option.some.inj (hwr.symm.trans hvr)
  have hopened := hres.opened
  have hplace := hres.writing.place
  rw [Writer.HasOpened, hret] at hopened
  rw [Writer.Place, hret, TransactionLogEntryBatch.isComplete, decide_eq_true_iff, hres.writing.entries,
    ← records_length b] at hplace
  have hcontent := hres.writing.content
  rw [List.take_of_length_le hplace] at hcontent
  refine ⟨hres.chained.ready hres.writing.log, hres.chained, hopened, ?_, ?_⟩
  · obtain ⟨more, hl, -⟩ := hres.grows
    exact hl.kept first h.file
  · rw [hres.grows.recordsFrom hcontent, h.records]

theorem WritesBatches.resumed (h : WritesBatches cfg w0 bs w) (h0 : Resumed first rs (w0.fromFile first)) :
    Resumed first (rs ++ bs.flatMap TransactionLogEntryBatch.records) (w.fromFile first) := by
  induction h with
  | nil =>
    rw [List.flatMap_nil, List.append_nil]
    exact h0
  | batch before unwritten succeed run writer returned ih =>
    rw [List.flatMap_append, ← List.append_assoc, List.flatMap_singleton]
    exact ih.batch unwritten succeed run writer returned

/-- A file of the log: it is open, and its length is the one told. -/
theorem Resumed.whole (h : Resumed first rs w) {k : ℕ} {f : TransactionLogFile} (hk : first ≤ k)
    (hf : w.store.sequenceFiles.get? k = some f) : (w.disk.logs.get? k).isSome ∧ ∃ timestamp, f.isOpen = true ∧
      f.size = (w.disk.bytes k).length ∧ WholeFile (w.disk.bytes k) timestamp (fileRecords (w.disk.bytes k)) := by
  have ho : f.isOpen = true := by
    rcases (h.ready.log.file_le hf).eq_or_lt with rfl | hlt
    · exact h.opened f hf
    · obtain ⟨g, hg, hgo⟩ := h.chained.opened k hk hlt
      rwa [Option.some.inj (hf.symm.trans hg)]
  obtain ⟨hsize, hne⟩ := h.ready.log.size_open hf ho
  obtain ⟨timestamp, rs, hw⟩ := (h.ready.log.whole (Disk.get?_of_bytes hne)).resolve_left hne
  rw [Nat.mod_eq_of_lt (h.chained.below k)] at hsize
  exact ⟨by rw [Disk.get?_of_bytes hne]; rfl, timestamp, ho, hsize, by rwa [hw.records]⟩

/-- The records of the files from `first` on. -/
theorem recordsFrom_begin_eq (d : Disk) (first : ℕ) :
    d.recordsFrom ⟨0, first⟩ = (d.logs.entries.filter fun e => first ≤ e.1).flatMap fun e => fileRecords e.2 := by
  rw [recordsFrom_eq]
  induction d.logs.entries with
  | nil => rfl
  | cons e l ih =>
    rw [List.flatMap_cons, ih]
    by_cases hle : first ≤ e.1
    · have hall : ((fileShelf e.1 e.2).filter fun x => (⟨0, first⟩ : LogPosition) ≤ x.1) = fileShelf e.1 e.2 := by
        refine List.filter_eq_self.mpr fun x hx => ?_
        rw [decide_eq_true_iff, LogPosition.le_iff, (mem_fileShelf hx).1]
        exact hle.lt_or_eq.imp_right fun heq => ⟨heq, Nat.zero_le _⟩
      have hrecords : (fileShelf e.1 e.2).map Prod.snd = fileRecords e.2 := by
        rw [fileShelf, List.map_map]
        exact located_map _ _
      rw [List.filter_cons_of_pos (by simpa using hle), List.flatMap_cons, hall, hrecords]
    · rw [List.filter_cons_of_neg (by simpa using hle),
        fileShelf_none (show e.1 < (⟨0, first⟩ : LogPosition).logSequenceNumber from not_le.mp hle)]
      rfl

theorem fromFile_recordsFrom (d : Disk) (first : ℕ) :
    (d.fromFile first).recordsFrom ⟨0, first⟩ = d.recordsFrom ⟨0, first⟩ := by
  rw [recordsFrom_begin_eq, recordsFrom_begin_eq]
  change ((d.logs.entries.filter _).filter _).flatMap _ = _
  rw [List.filter_filter]
  simp only [Bool.and_self]

/-- The parser accepts the files from `first` on, and gives the records `rs`. -/
structure Parses (first : ℕ) (rs : List LogRecord) (d : Disk) : Prop where
  accepted : ∀ e ∈ d.logs.entries, first ≤ e.1 → ∃ log, parseTransactionLog (some e.2) false = .ok log
  parsed : ((d.logs.entries.filter fun e => first ≤ e.1).flatMap fun e => parsedEntries e.2) = rs.map LogRecord.yielded

theorem Resumed.parses (h : Resumed first rs (w.fromFile first)) (hrs : ∀ r ∈ rs, r.timestamp.isZero = false) :
    Parses first rs w.disk := by
  have hrecords := h.records
  rw [World.fromFile_disk, fromFile_recordsFrom, recordsFrom_begin_eq] at hrecords
  -- each file is a header and frames without padding
  have hfile : ∀ e ∈ w.disk.logs.entries.filter (fun e => first ≤ e.1), ∃ timestamp,
      Image e.2 timestamp (fileRecords e.2) [] := by
    intro e he
    have hle : first ≤ e.1 := of_decide_eq_true (List.mem_filter.mp he).2
    have hget : (w.fromFile first).disk.logs.get? e.1 = some e.2 := SeqMap.get?_eq_some_iff.mpr he
    obtain ⟨f, hf⟩ := Option.isSome_iff_exists.mp (h.chained.filed e.1 hle (by rw [hget]; rfl))
    obtain ⟨-, timestamp, -, -, hw⟩ := h.whole hle hf
    rw [Disk.bytes_eq hget] at hw
    refine ⟨timestamp, by rw [List.append_nil]; exact hw.eq, hw.fits, fun r hr => hrs r ?_, Or.inl rfl⟩
    rw [← hrecords]
    exact List.mem_flatMap.mpr ⟨e, he, hr⟩
  obtain ⟨haccepted, hentries⟩ := parsedEntries_images hfile
  rw [hrecords] at hentries
  exact ⟨fun e he hle => haccepted e (List.mem_filter.mpr ⟨he, decide_eq_true hle⟩), hentries⟩

/-- What is left from a file on are its records and those of the files after it. -/
theorem recordsFrom_later {d : Disk} {last : ℕ} (hnone : ∀ q, last < q → d.logs.get? q = none) :
    ∀ {n k : ℕ}, last = k + n →
    d.recordsFrom ⟨0, k⟩ = fileRecords (d.bytes k) ++ later (fun q => fileRecords (d.bytes q)) last k := by
  have hfile : ∀ k, d.recordsFrom ⟨0, k⟩ = fileRecords (d.bytes k) ++ d.recordsFrom ⟨0, k + 1⟩ := fun k => by
    rw [← recordsFrom_begin, recordsFrom_file (List.nil_append _).symm]
  intro n
  induction n with
  | zero =>
    intro k hk
    obtain rfl : last = k := hk
    have hbehind : d.recordsFrom ⟨0, last + 1⟩ = [] := recordsFrom_none fun q hq => by
      refine Nat.lt_succ_of_le (not_lt.mp fun hlt => ?_)
      rw [hnone q hlt] at hq
      cases hq
    rw [hfile, later_self, hbehind]
  | succ n ih =>
    rintro k rfl
    rw [hfile, later_succ _ (show k < k + (n + 1) by omega), ih (show k + (n + 1) = k + 1 + n by omega)]

/-- A reader of the log `w`, whose newest file is `last`, with the file `first` mapped. It has what the
store says of the files, and each of its own buffers covers its file. The files from the watermark's on
can be opened, and for a reader of committed entries all are committed. -/
structure ReadsLog (mode : Bool) (first last : ℕ) (w : World) (y : Reading) : Prop where
  newest : (w.disk.logs.get? last).isSome ∧ ∀ k, last < k → w.disk.logs.get? k = none
  files : ∀ k, first ≤ k → (y.store.sequenceFiles.get? k).map (fun f => (f.isOpen, f.size)) =
    (w.store.sequenceFiles.get? k).map fun f => (f.isOpen, f.size)
  bytes : ∀ k, first ≤ k → y.disk.bytes k = w.disk.bytes k
  current : y.store.currentSequenceNumber = w.store.currentSequenceNumber
  older : ∀ k, y.store.lastCommittedPosition.logSequenceNumber ≤ k → 0 < k → k < first →
    ∃ f, y.store.sequenceFiles.get? k = some f ∧ Openable f (y.disk.bytes k)
  watermark : y.store.lastCommittedPosition.logSequenceNumber ≤ last + 1 ∧ (mode = false →
    y.store.lastCommittedPosition = ⟨(w.disk.bytes last).length, last⟩ ∨
      y.store.lastCommittedPosition.logSequenceNumber = last + 1)
  buffers : ∀ {k b}, y.log.logBuffers.get? k = some b → k ≤ last ∧ b.logId = k ∧
    (first ≤ k → (w.disk.bytes k).length ≤ b.length ∧ ∀ z ∈ b.size, z = (w.disk.bytes k).length)
  mapped : (y.log.logBuffers.get? first).isSome

/-- The current file is not longer than its mapping, and no file in between is without an entry. -/
structure ReadableFiles (cfg : StoreConfig) (first last : ℕ) (w : World) : Prop where
  fits : (w.disk.bytes w.store.currentSequenceNumber).length ≤ cfg.maxFileSize
  entries : ∀ k, first < k → k < last → TRANSACTION_LOG_FILE_HEADER_SIZE < (w.disk.bytes k).length

/-- Every reader that starts behind the header of the file `first` gives the records `rs`, and then it is done. -/
def Walks (cfg : StoreConfig) (first last : ℕ) (rs : List LogRecord) (w : World) : Prop :=
  ∀ mode y io n, ReadsLog mode first last w y → io.Succeed → rs.length < n →
    Reading.drain cfg io n y { fullIterator first TRANSACTION_LOG_FILE_HEADER_SIZE (w.disk.bytes first).length with
      readUncommitted := mode } = (rs.map LogRecord.yielded, some .done)

/-- What the store says of a file that it has registered. -/
theorem Resumed.registered (h : Resumed first rs (w.fromFile first)) {k : ℕ} {f : TransactionLogFile} (hk : first ≤ k)
    (hf : w.store.sequenceFiles.get? k = some f) : (w.disk.logs.get? k).isSome ∧ ∃ timestamp, f.isOpen = true ∧
      f.size = fileLength (fileRecords (w.disk.bytes k)) ∧
        WholeFile (w.disk.bytes k) timestamp (fileRecords (w.disk.bytes k)) := by
  obtain ⟨hsome, timestamp, ho, hsize, hw⟩ := h.whole hk ((fromFile_get? w.store hk).trans hf)
  rw [World.fromFile_disk, fromFile_logs _ hk] at hsome
  rw [World.fromFile_disk, fromFile_bytes _ hk] at hsize hw
  exact ⟨hsome, timestamp, ho, hsize.trans hw.length, hw⟩

section
variable {last : ℕ}

theorem Resumed.first_le (h : Resumed first rs (w.fromFile first)) (hnone : ∀ k, last < k → w.disk.logs.get? k = none) :
    first ≤ last := by
  by_contra hlt
  have hfile := h.file
  rw [World.fromFile_disk, fromFile_logs _ le_rfl, hnone first (not_le.mp hlt)] at hfile
  cases hfile

theorem Resumed.le_current (h : Resumed first rs (w.fromFile first)) (hle : first ≤ last)
    (hlast : (w.disk.logs.get? last).isSome) : last ≤ w.store.currentSequenceNumber := by
  refine h.ready.log.logs_le last ?_
  rw [World.fromFile_disk, fromFile_logs _ hle]
  exact hlast

/-- Each file up to the newest one is registered. -/
theorem Resumed.file_of_le (h : Resumed first rs (w.fromFile first)) (hlast : (w.disk.logs.get? last).isSome) {k : ℕ}
    (hk : first ≤ k) (hkl : k ≤ last) : ∃ f, w.store.sequenceFiles.get? k = some f := by
  have hcur := h.le_current (hk.trans hkl) hlast
  rcases (hkl.trans hcur).eq_or_lt with rfl | hlt
  · obtain rfl := le_antisymm hkl hcur
    have hsome := h.chained.filed w.store.currentSequenceNumber hk (by
      rw [World.fromFile_disk, fromFile_logs _ hk]
      exact hlast)
    rw [World.fromFile_store, fromFile_get? _ hk] at hsome
    exact Option.isSome_iff_exists.mp hsome
  · obtain ⟨f, hf, -⟩ := h.chained.opened k hk hlt
    exact ⟨f, (fromFile_get? w.store hk).symm.trans hf⟩

theorem Resumed.length (h : Resumed first rs (w.fromFile first)) (hlast : (w.disk.logs.get? last).isSome) {k : ℕ}
    (hk : first ≤ k) (hkl : k ≤ last) : (w.disk.bytes k).length = fileLength (fileRecords (w.disk.bytes k)) := by
  obtain ⟨f, hf⟩ := h.file_of_le hlast hk hkl
  obtain ⟨-, timestamp, -, -, hw⟩ := h.registered hk hf
  exact hw.length

theorem Resumed.atRest {mode : Bool} {y : Reading} (h : Resumed first rs (w.fromFile first))
    (hy : ReadsLog mode first last w y) (hr : ReadableFiles cfg first last w) :
    AtRest cfg mode first last (fun k => fileRecords (w.disk.bytes k)) y := by
  have hle := h.first_le hy.newest.2
  have hlast := h.le_current hle hy.newest.1
  refine ⟨hle, fun k hk hkl => ?_, ?_, hy.older, ⟨hy.watermark.1, fun hm => ?_⟩, fun hcur => ?_, fun {k b} hb => ?_, ?_⟩
  · obtain ⟨f, hf⟩ := h.file_of_le hy.newest.1 hk hkl
    obtain ⟨-, timestamp, ho, hsize, hw⟩ := h.registered hk hf
    have hsame := hy.files k hk
    rw [hf, Option.map_some, Option.map_eq_some_iff] at hsame
    obtain ⟨g, hg, heq⟩ := hsame
    obtain ⟨hgo, hgs⟩ := Prod.mk.inj heq
    refine ⟨g, timestamp, hg, hgo.trans ho, hgs.trans hsize, ?_⟩
    rw [hy.bytes k hk]
    exact hw
  · have hsame := hy.files (last + 1) (hle.trans (Nat.le_succ _))
    cases hf : w.store.sequenceFiles.get? (last + 1) with
    | none =>
      rw [hf, Option.map_none, Option.map_eq_none_iff] at hsame
      exact hsame
    | some f =>
      obtain ⟨hsome, -⟩ := h.registered (hle.trans (Nat.le_succ _)) hf
      rw [hy.newest.2 (last + 1) (Nat.lt_succ_self _)] at hsome
      cases hsome
  · rw [← h.length hy.newest.1 hle le_rfl]
    exact hy.watermark.2 hm
  · rw [hy.current] at hcur ⊢
    have hge : first ≤ w.store.currentSequenceNumber := hle.trans hlast
    rw [← h.length hy.newest.1 hge hcur]
    exact hr.fits
  · obtain ⟨-, hid, hcover⟩ := hy.buffers hb
    refine ⟨hid, fun hk hkl => ?_⟩
    rw [← h.length hy.newest.1 hk hkl]
    exact hcover hk
  · cases hb : y.log.logBuffers.get? (last + 1) with
    | none => rfl
    | some b =>
      have hkl := (hy.buffers hb).1
      omega

theorem Resumed.walks (h : Resumed first rs (w.fromFile first)) (hpos : 0 < first)
    (hrs : ∀ r ∈ rs, WalkedTimestamp r.timestamp) (hr : ReadableFiles cfg first last w) :
    Walks cfg first last rs w := by
  intro mode y io n hy hio hn
  have hrest := h.atRest hy hr
  obtain ⟨b, hb⟩ := Option.isSome_iff_exists.mp hy.mapped
  have hrecords := h.records
  obtain ⟨d, hd⟩ := Nat.exists_eq_add_of_le hrest.le
  rw [World.fromFile_disk, fromFile_recordsFrom, recordsFrom_later hy.newest.2 hd] at hrecords
  obtain ⟨f, timestamp, -, -, -, hw⟩ := hrest.file first le_rfl hrest.le
  have hread : ∀ k, first ≤ k → k ≤ last → ∀ r ∈ fileRecords (w.disk.bytes k), WalkedTimestamp r.timestamp := by
    intro k hk hkl r hr
    apply hrs
    rw [← hrecords]
    rcases hk.eq_or_lt with rfl | hlt
    · exact List.mem_append_left _ hr
    · exact List.mem_append_right _ (List.mem_flatMap.mpr ⟨k, List.mem_range'_1.mpr ⟨hlt, by omega⟩, hr⟩)
  have hdrain := AtRest.drain hio hpos hread (fun k hk hkl hnil => ?_) n first [] (fileRecords (w.disk.bytes first)) y
    b hrest le_rfl hrest.le hb rfl
    (by rw [hrecords]; exact hn)
  · rw [hrecords] at hdrain
    rw [hy.bytes first le_rfl] at hw
    rw [hw.length]
    exact hdrain
  · -- a file with an entry is longer than its header
    obtain ⟨g, ts, -, -, -, hwk⟩ := hrest.file k hk.le hkl.le
    have hlen := hr.entries k hk hkl
    rw [← hy.bytes k hk.le, hwk.length, show fileRecords (w.disk.bytes k) = [] from hnil, frames_nil] at hlen
    exact absurd hlen (lt_irrefl _)

end

end

/-- After `load` on an image that can be mended, and any calls of `writeBatch` after it, the parser gives the
records of the image and then those of the batches, and so does a reader of files that can be read. -/
theorem nothing_lost {cfg : StoreConfig} {io : FilesCalls} {d0 : Disk} {order : List ℕ} {newest : ℕ}
    {timestamp : Binary64} {rs : List LogRecord} {tail : Bytes} (hload : Loadable cfg io d0 order newest)
    (himg : CrashImage (d0.bytes newest) timestamp rs tail) (hm : Mendable rs tail)
    (hio : io.recover.readable = true ∧ io.recover.truncated = true) :
    ∃ s d, load cfg d0 order io = (some s, d) ∧
      ∀ bs w, WritesBatches cfg { store := s, disk := d } bs w → (∀ b ∈ bs, WalkedTimestamp b.timestamp) →
        Parses newest (rs ++ bs.flatMap TransactionLogEntryBatch.records) w.disk ∧
          ∀ last, ReadableFiles cfg newest last w →
            Walks cfg newest last (rs ++ bs.flatMap TransactionLogEntryBatch.records) w := by
  have hrec : RecoversTo io.recover (openedBytes (d0.bytes newest)) timestamp (· = rs) := by
    have hne : d0.bytes newest ≠ [] := by
      rw [himg.eq]
      simp [fileHeader]
    rw [openedBytes, if_neg hne]
    exact himg.recoversTo hm hio
  obtain ⟨s, d, rs', hl, hrs : rs' = rs, hfits, hrecovered⟩ := load_recovered hload hrec
  rw [hrs] at hfits hrecovered
  refine ⟨s, d, hl, fun bs w hw hbs => ?_⟩
  have hresumed := hw.resumed (hrecovered.resumed hfits)
  have hwalked : ∀ r ∈ rs ++ bs.flatMap TransactionLogEntryBatch.records, WalkedTimestamp r.timestamp := by
    intro r hr
    rcases List.mem_append.mp hr with hr | hr
    · exact (hm.frames r hr).2
    · obtain ⟨b, hb, hr⟩ := List.mem_flatMap.mp hr
      obtain ⟨i, hi, rfl⟩ := List.mem_mapIdx.mp hr
      exact hbs b hb
  exact ⟨hresumed.parses fun r hr => (hwalked r hr).1, fun last hr => hresumed.walks hload.pos hwalked hr⟩

/-- An image alone in its directory. -/
def aloneOn (image : Bytes) : Disk := { logs := SeqMap.empty.set 1 image }

/-- What `load` makes of it. -/
def loadedFrom (cfg : StoreConfig) (image : Bytes) : World :=
  { store := (load cfg (aloneOn image) [1] {}).1.getD {}, disk := (load cfg (aloneOn image) [1] {}).2 }

def resumingBatch : TransactionLogEntryBatch := { timestamp := ⟨8⟩, entries := [oneByteEntry 9, oneByteEntry 10] }

/-- A call of `writeBatch` after it. -/
def resumedFrom (cfg : StoreConfig) (image : Bytes) (steps : ℕ) : World :=
  Runs.final (stepWriter cfg) (beginWrite (loadedFrom cfg image) resumingBatch)
    (List.replicate steps { results := [.count 100] })

theorem aloneOn_bytes (image : Bytes) (q : ℕ) : (aloneOn image).bytes q = if q = 1 then image else [] := by
  rw [Disk.bytes, aloneOn, SeqMap.get?_set]
  split_ifs
  · rfl
  · rfl

theorem loadable_aloneOn {maxFileSize : ℕ} {image tail : Bytes} {timestamp : Binary64} {rs : List LogRecord}
    (h : CrashImage image timestamp rs tail) : Loadable ⟨maxFileSize, 0, none⟩ {} (aloneOn image) [1] 1 := by
  refine ⟨List.Perm.refl _, List.mem_singleton.mpr rfl, fun q hq => Or.inl (List.mem_singleton.mp hq).le, Nat.one_pos,
    fun _ _ => ⟨rfl, rfl, rfl, rfl⟩, ⟨rfl, fun h => absurd h (lt_irrefl 0)⟩, fun q => ?_, fun q => ?_⟩
  · rw [aloneOn_bytes]
    split_ifs
    · exact Or.inr ⟨timestamp, frames rs ++ tail, by rw [h.eq, List.append_assoc]⟩
    · exact Or.inl rfl
  · rw [aloneOn_bytes]
    split_ifs
    · exact h.below
    · decide

/-- The steps of the one call, if it returns after them. -/
theorem resumedFrom_writes {cfg : StoreConfig} {image : Bytes} (steps : ℕ) {s : TransactionLogStore} {d : Disk}
    (hl : load cfg (aloneOn image) [1] {} = (some s, d))
    (hok : Runs.Along (stepWriter cfg) (fun w io => ∀ wr ∈ w.writer, io.Succeeds cfg w wr ∧ io.Ok cfg w.store wr)
      (beginWrite (loadedFrom cfg image) resumingBatch) (List.replicate steps { results := [.count 100] }))
    (hrun : (Runs.exec (stepWriter cfg) (beginWrite (loadedFrom cfg image) resumingBatch)
      (List.replicate steps { results := [.count 100] })).isSome)
    (hret : (resumedFrom cfg image steps).writer.map Writer.pc = some .returned) :
    WritesBatches cfg { store := s, disk := d } [resumingBatch] (resumedFrom cfg image steps) := by
  have hw0 : loadedFrom cfg image = { store := s, disk := d } := by
    unfold loadedFrom
    rw [hl]
    rfl
  obtain ⟨wr, hwr, hpc⟩ := Option.map_eq_some_iff.mp hret
  have hexec := Runs.exec_final _ _ _ hrun
  rw [hw0] at hok
  rw [show Runs.final _ _ _ = resumedFrom cfg image steps from rfl, hw0] at hexec
  exact .batch .nil ⟨by decide, rfl⟩ hok hexec hwr hpc

/-- One record and a part of the next that is one byte short. -/
def tornFrame : Bytes := fileHeader ⟨5⟩ ++ frames [⟨⟨6⟩, 1, [7]⟩] ++ (LogRecord.frame ⟨⟨8⟩, 1, [9]⟩).take 13

theorem tornFrame_image : CrashImage tornFrame ⟨5⟩ [⟨⟨6⟩, 1, [7]⟩] ((LogRecord.frame ⟨⟨8⟩, 1, [9]⟩).take 13) := by
  refine ⟨rfl, fun r hr => ?_, .torn _ 13 (show 1 < UINT32_RANGE by decide) (by decide)
    fun start hstart hres => ?_, by decide⟩
  · obtain rfl := List.mem_singleton.mp hr
    exact show 1 < UINT32_RANGE by decide
  · have hheader := hres.header
    obtain rfl : start = 27 := by
      rw [show (fileHeader ⟨5⟩ ++ frames [⟨⟨6⟩, 1, [7]⟩]).length = 27 from by decide] at hstart
      rw [show (fileHeader ⟨5⟩ ++ frames [⟨⟨6⟩, 1, [7]⟩] ++ (LogRecord.frame ⟨⟨8⟩, 1, [9]⟩).take 13).length =
        40 from by decide] at hheader
      simp only [TRANSACTION_LOG_ENTRY_HEADER_SIZE] at hheader
      omega
    obtain ⟨n, stop, hn, hchain, -⟩ := hres
    cases hchain with
    | nil => exact absurd hn (lt_irrefl 0)
    | cons frame rest =>
      revert frame
      rw [← frameFits_iff]
      decide

/-- A batch that goes on behind the record and into a second file. -/
def tornResumed : World := resumedFrom ⟨41, 0, none⟩ tornFrame 15

/-- A query of all of it. -/
def tornQuery : Except ReaderError LogIterator × Reading :=
  Reading.query ⟨41, 0, none⟩ ⟨tornResumed.store, tornResumed.disk, {}⟩
    { start := some Binary64.zero, readUncommitted := true } {}

theorem tornQuery_reads : ReadsLog true 1 2 tornResumed tornQuery.2 := by
  have hfiles : tornQuery.2.store.sequenceFiles.entries.map (fun e => (e.1, e.2.isOpen, e.2.size)) =
      tornResumed.store.sequenceFiles.entries.map fun e => (e.1, e.2.isOpen, e.2.size) := by decide +kernel
  have hlogs : tornQuery.2.disk.logs.entries = tornResumed.disk.logs.entries := by decide +kernel
  have hbuffers : tornQuery.2.log.logBuffers.entries = [(1, ⟨1, 41, some 41⟩)] := by decide +kernel
  have hkeys : tornResumed.disk.logs.keys = [1, 2] := by decide +kernel
  have hlength : (tornResumed.disk.bytes 1).length = 41 := by decide +kernel
  refine ⟨⟨by decide +kernel, fun k hk => ?_⟩, fun k _ => ?_, fun k _ => ?_, by decide +kernel,
    fun k _ hpos hlt => absurd hpos (by omega), ⟨by decide +kernel, nofun⟩, fun {k b} hb => ?_, by decide +kernel⟩
  · by_contra hne
    obtain ⟨bytes, hbytes⟩ := Option.ne_none_iff_exists'.mp hne
    have hmem := SeqMap.mem_keys_iff.mpr ⟨bytes, hbytes⟩
    rw [hkeys] at hmem
    simp at hmem
    omega
  · rw [SeqMap.get?, SeqMap.get?, ← SeqMap.lookup_map, ← SeqMap.lookup_map, hfiles]
  · rw [Disk.bytes, SeqMap.ext hlogs]
    rfl
  · have hmem := SeqMap.get?_eq_some_iff.mp hb
    rw [hbuffers, List.mem_singleton] at hmem
    obtain ⟨rfl, rfl⟩ := Prod.mk.inj hmem
    refine ⟨by decide, rfl, fun _ => ⟨hlength.le, fun z hz => ?_⟩⟩
    rw [← Option.some.inj hz, hlength]

/-- The parser and the query give the record and the two entries of the batch. -/
theorem nothing_lost_tornFrame : ∃ it, tornQuery.1 = .ok it ∧
    Parses 1 [⟨⟨6⟩, 1, [7]⟩, ⟨⟨8⟩, 0, [9]⟩, ⟨⟨8⟩, 1, [10]⟩] tornResumed.disk ∧
    Reading.drain ⟨41, 0, none⟩ {} 4 tornQuery.2 it =
      ([⟨⟨6⟩, true, [7]⟩, ⟨⟨8⟩, false, [9]⟩, ⟨⟨8⟩, true, [10]⟩], some .done) := by
  have himg : CrashImage ((aloneOn tornFrame).bytes 1) ⟨5⟩ [⟨⟨6⟩, 1, [7]⟩]
      ((LogRecord.frame ⟨⟨8⟩, 1, [9]⟩).take 13) := by
    rw [aloneOn_bytes, if_pos rfl]
    exact tornFrame_image
  have hm : Mendable [⟨⟨6⟩, 1, [7]⟩] ((LogRecord.frame ⟨⟨8⟩, 1, [9]⟩).take 13) := by
    refine ⟨fun r hr => ?_, by decide⟩
    obtain rfl := List.mem_singleton.mp hr
    exact ⟨by decide, by decide, by decide⟩
  have hload : Loadable ⟨41, 0, none⟩ {} (aloneOn tornFrame) [1] 1 := loadable_aloneOn tornFrame_image
  obtain ⟨s, d, hl, hrest⟩ := nothing_lost hload himg hm ⟨rfl, rfl⟩
  have hwrites := resumedFrom_writes 15 hl (by decide +kernel) (by decide +kernel) (by decide +kernel)
  have hwalked : ∀ b ∈ [resumingBatch], WalkedTimestamp b.timestamp := fun b hb => by
    obtain rfl := List.mem_singleton.mp hb
    exact ⟨by decide, by decide⟩
  obtain ⟨hparses, hwalks⟩ := hrest _ tornResumed hwrites hwalked
  have hit : tornQuery.1.toOption = some { fullIterator 1 13 41 with readUncommitted := true } := by decide +kernel
  have hlength : (tornResumed.disk.bytes 1).length = 41 := by decide +kernel
  have hread : ReadableFiles ⟨41, 0, none⟩ 1 2 tornResumed := ⟨by decide +kernel, fun k h1 h2 => by omega⟩
  have hdrain := hwalks 2 hread true tornQuery.2 {} 4 tornQuery_reads (fun _ => ⟨⟨rfl, rfl, rfl, rfl⟩, rfl⟩) (by decide)
  rw [hlength] at hdrain
  cases hr : tornQuery.1 with
  | error e =>
    rw [hr] at hit
    cases hit
  | ok it =>
    rw [hr] at hit
    obtain rfl := Option.some.inj hit
    exact ⟨_, rfl, hparses, hdrain⟩

/-- A record and a header's length of zeros. -/
def zeroTail : Bytes := fileHeader ⟨5⟩ ++ frames [⟨⟨6⟩, 1, [7]⟩] ++ List.replicate 13 0

/-- The zeros stay, and the batch after them is not found. -/
theorem zero_tail_hides_batch :
    ¬ ∀ (cfg : StoreConfig) (io : FilesCalls) (d0 : Disk) (order : List ℕ) (newest : ℕ)
    (timestamp : Binary64) (rs : List LogRecord)
      (tail : Bytes), Loadable cfg io d0 order newest → CrashImage (d0.bytes newest) timestamp rs tail →
      io.recover.readable = true ∧ io.recover.truncated = true →
      ∃ s d, load cfg d0 order io = (some s, d) ∧ ∀ bs w, WritesBatches cfg { store := s, disk := d } bs w →
        Parses newest (rs ++ bs.flatMap TransactionLogEntryBatch.records) w.disk ∧
          ∀ last, Walks cfg newest last (rs ++ bs.flatMap TransactionLogEntryBatch.records) w := by
  intro h
  have himg : CrashImage zeroTail ⟨5⟩ [⟨⟨6⟩, 1, [7]⟩] (List.replicate 13 0) := by
    refine ⟨rfl, fun r hr => ?_, .zeros 13, by decide⟩
    obtain rfl := List.mem_singleton.mp hr
    exact show 1 < UINT32_RANGE by decide
  have hload : Loadable ⟨200, 0, none⟩ {} (aloneOn zeroTail) [1] 1 := loadable_aloneOn himg
  obtain ⟨s, d, hl, hrest⟩ := h _ _ _ _ _ _ _ _ hload (by rw [aloneOn_bytes, if_pos rfl]; exact himg) ⟨rfl, rfl⟩
  have hwrites := resumedFrom_writes 8 hl (by decide +kernel) (by decide +kernel) (by decide +kernel)
  obtain ⟨-, hparsed⟩ := (hrest _ _ hwrites).1
  have hfound : (((resumedFrom ⟨200, 0, none⟩ zeroTail 8).disk.logs.entries.filter fun e => 1 ≤ e.1).flatMap
      fun e => parsedEntries e.2).length = 1 := by decide +kernel
  rw [hparsed] at hfound
  simp [resumingBatch, TransactionLogEntryBatch.records] at hfound

end RocksdbJs
