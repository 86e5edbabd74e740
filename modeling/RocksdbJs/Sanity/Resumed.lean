import RocksdbJs.Sanity.BatchEnd
import RocksdbJs.Sanity.OpenLog
import RocksdbJs.Sanity.Recovery

/-! Calls of `writeBatch` on a store that `load` has brought back. Each of them appends to the
current file or to the ones after it, so the files from the recovered one on stay a chain without
a gap, and hold the recovered records and then those of the batches. -/

namespace RocksdbJs

open TransactionLogStore

/-- The log has grown by records in files from `first` on. -/
def Disk.GrowsFrom (first : ℕ) (d d' : Disk) : Prop :=
  ∃ more, d.Lengthens d' more ∧ ∀ x ∈ more, first ≤ x.1.logSequenceNumber

theorem Disk.GrowsFrom.of_logs {first : ℕ} {d d' : Disk} (h : d'.logs = d.logs) : d.GrowsFrom first d' :=
  ⟨[], .of_logs h, fun x hx => by cases hx⟩

theorem Disk.GrowsFrom.trans {first : ℕ} {d d' d'' : Disk} (h : d.GrowsFrom first d') (h' : d'.GrowsFrom first d'') :
    d.GrowsFrom first d'' := by
  obtain ⟨more, hl, hx⟩ := h
  obtain ⟨more', hl', hx'⟩ := h'
  exact ⟨more ++ more', hl.trans hl', fun x hm => (List.mem_append.mp hm).elim (hx x) (hx' x)⟩

/-- The records from `first` on have grown by what the whole content has. -/
theorem Disk.GrowsFrom.recordsFrom {first : ℕ} {d d' : Disk} {rs : List LogRecord} (h : d.GrowsFrom first d')
    (hc : d'.content = d.content ++ rs) : d'.recordsFrom ⟨0, first⟩ = d.recordsFrom ⟨0, first⟩ ++ rs := by
  obtain ⟨more, hl, hx⟩ := h
  have hmore : more.map Prod.snd = rs := by
    rw [content_eq_shelf, content_eq_shelf, hl.shelf, List.map_append] at hc
    exact List.append_cancel_left hc
  rw [← hmore]
  apply hl.recordsFrom
  intro x hm
  rw [LogPosition.le_iff]
  exact (hx x hm).lt_or_eq.imp_right fun heq => ⟨heq, Nat.zero_le _⟩

/-- Only while it is being opened is a registered current file not open. -/
def Writer.HasOpened (s : TransactionLogStore) (wr : Writer) : Prop :=
  match wr.pc with
  | .tryOpen _ => True
  | _ => OpenAt s s.currentSequenceNumber

/-- The call so far, on files that are chained from `first` on. -/
structure Continuing (first : ℕ) (cfg : StoreConfig) (d0 : Disk) (b0 : TransactionLogEntryBatch) (w : World)
    (wr : Writer) : Prop where
  writing : Writing cfg d0 b0 w wr
  chained : Chained first w.store w.disk
  opened : wr.HasOpened w.store
  grows : d0.GrowsFrom first w.disk

section
variable {cfg : StoreConfig} {d0 : Disk} {b0 : TransactionLogEntryBatch} {w w' : World} {wr wr' : Writer}
    {io : WriterCalls} {first : ℕ}

/-- The numbers and the files before the current one decide about the chain. -/
theorem Chained.congr {s s' : TransactionLogStore} {d d' : Disk} (h : Chained first s d)
    (hclosing : s'.isClosing = s.isClosing) (hcur : s'.currentSequenceNumber = s.currentSequenceNumber)
    (hnext : s'.nextSequenceNumber = s.nextSequenceNumber)
    (hfiles : ∀ k, k < s.currentSequenceNumber → s'.sequenceFiles.get? k = s.sequenceFiles.get? k)
    (hfiled : ∀ k, first ≤ k → (d'.logs.get? k).isSome → (s'.sequenceFiles.get? k).isSome)
    (hbelow : ∀ k, (d'.bytes k).length < UINT32_RANGE) : Chained first s' d' := by
  refine ⟨hclosing.trans h.notClosing, hcur ▸ h.le, ?_, fun k hk hlt => ?_, hfiled, hbelow⟩
  · rw [hnext, hcur]
    exact h.next
  · rw [hcur] at hlt
    rw [hfiles k hlt]
    exact h.opened k hk hlt

/-- The store goes on to the next number. -/
theorem Chained.advance {s : TransactionLogStore} {d : Disk} (h : Chained first s d)
    {f : TransactionLogFile} (hf : s.sequenceFiles.get? s.currentSequenceNumber = some f)
    (ho : f.isOpen = true) : Chained first s.advanceSequence d := by
  have hcur : s.advanceSequence.currentSequenceNumber = s.currentSequenceNumber + 1 := h.next
  refine ⟨h.notClosing, hcur ▸ h.le.trans (Nat.le_succ _), ?_, fun k hk hlt => ?_, h.filed, h.below⟩
  · rw [hcur, ← h.next]
    rfl
  · rw [hcur] at hlt
    rcases Nat.lt_succ_iff_lt_or_eq.mp hlt with hlt | rfl
    · exact h.opened k hk hlt
    · exact ⟨f, hf, ho⟩

/-- A file that is too large for another entry is open. -/
theorem Writing.full (h : Writing cfg d0 b0 w wr) {seq : ℕ} {f : TransactionLogFile}
    (hf : w.store.sequenceFiles.get? seq = some f)
    (hroom : ¬ (cfg.maxFileSize = 0 ∨ f.size < cfg.maxFileSize)) : f.isOpen = true := by
  by_contra ho
  have hsize := h.log.size_closed hf (Bool.eq_false_of_not_eq_true ho)
  obtain ⟨hmax, hge⟩ := not_or.mp hroom
  omega

/-- The file of a step is the current one. -/
theorem Writing.seq (h : Writing cfg d0 b0 w wr) {seq : ℕ}
    (hpc : wr.pc = .tryOpen seq ∨ wr.pc = .checkAge seq ∨ wr.pc = .write seq ∨ ∃ sizeBefore,
      wr.pc = .advance seq sizeBefore) :
    seq = w.store.currentSequenceNumber := by
  have hplace := h.place
  rcases hpc with hpc | hpc | hpc | ⟨sizeBefore, hpc⟩
  all_goals rw [Writer.Place, hpc] at hplace
  · exact hplace.2.2.1
  · exact hplace.2.2.1
  · exact hplace.2.2.1
  · exact hplace.1

/-- A step that leaves the files and their numbers alone. -/
theorem Continuing.quiet (h : Continuing first cfg d0 b0 w wr) (hw : Writing cfg d0 b0 w' wr')
    (hlogs : w'.disk.logs = w.disk.logs) (hclosing : w'.store.isClosing = w.store.isClosing)
    (hfiles : w'.store.sequenceFiles = w.store.sequenceFiles)
    (hcur : w'.store.currentSequenceNumber = w.store.currentSequenceNumber)
    (hnext : w'.store.nextSequenceNumber = w.store.nextSequenceNumber)
    (hopen : OpenAt w.store w.store.currentSequenceNumber) :
    Continuing first cfg d0 b0 w' wr' := by
  refine ⟨hw, h.chained.congr hclosing hcur hnext (fun k _ => by rw [hfiles]) (fun k hk hsome => ?_) fun k => ?_, ?_,
    h.grows.trans (.of_logs hlogs)⟩
  · rw [hlogs] at hsome
    rw [hfiles]
    exact h.chained.filed k hk hsome
  · rw [Disk.bytes, hlogs]
    exact h.chained.below k
  · unfold Writer.HasOpened
    split
    · trivial
    · rw [OpenAt, hfiles, hcur]
      exact hopen

/-- A step to the next number. -/
theorem Continuing.rotate (h : Continuing first cfg d0 b0 w wr) (hw : Writing cfg d0 b0 w' wr')
    (hlogs : w'.disk.logs = w.disk.logs) (hstore : w'.store = w.store.advanceSequence)
    {f : TransactionLogFile} (hf : w.store.sequenceFiles.get? w.store.currentSequenceNumber = some f)
    (ho : f.isOpen = true) :
    Continuing first cfg d0 b0 w' wr' := by
  have hchained := h.chained.advance hf ho
  have hfresh := h.writing.log.next_fresh.1
  refine ⟨hw, ?_, ?_, h.grows.trans (.of_logs hlogs)⟩
  · rw [hstore]
    refine ⟨hchained.notClosing, hchained.le, hchained.next, hchained.opened, fun k hk hsome => ?_, fun k => ?_⟩
    · rw [hlogs] at hsome
      exact h.chained.filed k hk hsome
    · rw [Disk.bytes, hlogs]
      exact h.chained.below k
  · unfold Writer.HasOpened
    split
    · trivial
    · rw [hstore]
      intro g hg
      rw [show w.store.advanceSequence.sequenceFiles.get? w.store.advanceSequence.currentSequenceNumber =
        w.store.sequenceFiles.get? w.store.nextSequenceNumber from rfl, hfresh] at hg
      cases hg

/-- The current file is set to new bytes with more records at its end. -/
theorem growsFrom_set {d : Disk} {seq : ℕ} {bytes : Bytes} {rs : List LogRecord} (dir : Bool) (hle : first ≤ seq)
    (hmax : ∀ q, (d.logs.get? q).isSome → q ≤ seq) (hrec : fileRecords bytes = fileRecords (d.bytes seq) ++ rs) :
    d.GrowsFrom first { d with logs := d.logs.set seq bytes, directory := dir } := by
  refine ⟨_, .set dir hmax hrec, fun x hx => ?_⟩
  obtain ⟨y, -, rfl⟩ := List.mem_map.mp hx
  exact hle

theorem LogOk.logs_le {s : TransactionLogStore} {d : Disk} (h : LogOk s d) (q : ℕ) (hq : (d.logs.get? q).isSome) :
    q ≤ s.currentSequenceNumber := by
  obtain ⟨bytes, hb⟩ := Option.isSome_iff_exists.mp hq
  exact h.log_le hb

/-- The current file is opened: its header is there, and no more entries than before. -/
theorem ensureOpen_growsFrom {s : TransactionLogStore} {d : Disk} {f : TransactionLogFile}
    {io : OpenCalls} (h : LogOk s d) (hle : first ≤ s.currentSequenceNumber)
    (hbelow : ∀ k, (d.bytes k).length < UINT32_RANGE)
    (hf : s.sequenceFiles.get? s.currentSequenceNumber = some f) (hio : io.Succeeds) :
    let d' := (s.ensureOpen d s.currentSequenceNumber f io).2.2
    d.GrowsFrom first d' ∧ ∀ k, (d'.bytes k).length < UINT32_RANGE := by
  obtain ⟨-, f', hop⟩ := ensureOpen_current h (hbelow _) hf hio
  have hdisk : (s.ensureOpen d s.currentSequenceNumber f io).2.2 = d ∨
    ∃ bytes, (s.ensureOpen d s.currentSequenceNumber f io).2.2 =
      { d with logs := d.logs.set s.currentSequenceNumber bytes, directory := true } := by
    unfold ensureOpen openLogFile
    split_ifs
    · exact Or.inl rfl
    · simp only
      split
      · exact Or.inr ⟨_, rfl⟩
      · exact Or.inl rfl
  obtain ⟨files, hstore⟩ := hop.store
  have hbytes := hop.bytes
  have hbounded := hop.bounded
  rw [Bounded, hstore] at hbounded
  rcases hdisk with hd | ⟨bytes, hd⟩
  · simp only [hd]
    exact ⟨.of_logs rfl, hbelow⟩
  · simp only [hd, Disk.bytes_set, if_true] at hbytes hbounded ⊢
    have hrec : fileRecords bytes = fileRecords (d.bytes s.currentSequenceNumber) ++ [] := by
      rw [List.append_nil]
      rcases hbytes with ⟨hnil, rfl, -⟩ | ⟨rfl, -⟩
      · rw [hnil, (wholeFile_header _).records, fileRecords_nil]
      · rfl
    refine ⟨growsFrom_set true hle h.logs_le hrec, fun k => ?_⟩
    split_ifs
    · exact hbounded
    · exact hbelow k

theorem ensureOpen_get?_ne (s : TransactionLogStore) (d : Disk) (f : TransactionLogFile) (io : OpenCalls)
    {seq k : ℕ} (hk : k ≠ seq) :
    (s.ensureOpen d seq f io).2.1.sequenceFiles.get? k = s.sequenceFiles.get? k := by
  obtain ⟨g, hg | hg⟩ := ensureOpen_store s d seq f io
  · rw [hg]
  · rw [hg]
    exact SeqMap.get?_set_ne _ hk _

theorem writeEntries_isOpen (f : TransactionLogFile) (bytes : Bytes) (batch : TransactionLogEntryBatch)
    (maxFileSize : ℕ) (results : List WritevResult) :
    (f.writeEntries bytes batch maxFileSize results).file.isOpen = f.isOpen := by
  simp only [TransactionLogFile.writeEntries, TransactionLogFile.writeEntriesV1]
  split_ifs
  · rfl
  · split <;> rfl
  · rfl

theorem Continuing.step (h : Continuing first cfg d0 b0 w wr) (hio : io.Succeeds cfg w wr) (hok : io.Ok cfg w.store wr)
    (hend : wr.Ends w) (hstep : writerStep cfg w wr io = some w') (hwr' : w'.writer = some wr') :
    Continuing first cfg d0 b0 w' wr' ∧ wr'.Ends w' := by
  obtain ⟨hw, hends⟩ := writing_step h.writing hend hio hok hstep hwr'
  refine ⟨?_, hends⟩
  have hopened : (∀ seq, wr.pc ≠ .tryOpen seq) → OpenAt w.store w.store.currentSequenceNumber := by
    intro hpc
    have ho := h.opened
    unfold Writer.HasOpened at ho
    split at ho
    · rename_i seq heq
      exact absurd heq (hpc seq)
    · exact ho
  cases writerStep_move hstep with
  | turn pc hturns =>
    cases hturns with
    | full seq f hpc hf hroom =>
      have hseq := h.writing.seq (Or.inl hpc)
      have ho := h.writing.full hf hroom
      refine h.quiet hw rfl rfl rfl rfl rfl fun g hg => ?_
      rw [← hseq, hf] at hg
      rw [← Option.some.inj hg]
      exact ho
    | placed seq hpc | young seq f hpc | stays seq before f hpc =>
      exact h.quiet hw rfl rfl rfl rfl rfl (hopened (by rw [hpc]; exact fun _ hc => by cases hc))
  | rotate pc hrotates =>
    cases hrotates with
    | inner hpc =>
      have hplace := h.writing.place
      rw [Writer.Place, hpc] at hplace
      obtain ⟨-, -, -, f, hf, -⟩ := hplace
      exact h.rotate hw rfl rfl hf (hopened (by rw [hpc]; exact fun _ hc => by cases hc) f hf)
    | old seq f hpc hf =>
      rw [h.writing.seq (Or.inr (Or.inl hpc))] at hf
      exact h.rotate hw rfl rfl hf (hopened (by rw [hpc]; exact fun _ hc => by cases hc) f hf)
    | outer seq before f hpc hf =>
      rw [h.writing.seq (Or.inr (Or.inr (Or.inr ⟨before, hpc⟩)))] at hf
      exact h.rotate hw rfl rfl hf (hopened (by rw [hpc]; exact fun _ hc => by cases hc) f hf)
  | get hpc =>
    obtain rfl := Option.some.inj hwr'
    have hlogs : (w.store.getLogFile w.disk w.store.currentSequenceNumber io.now).2.logs = w.disk.logs := by
      unfold getLogFile
      split <;> rfl
    obtain ⟨files, next, hs⟩ := getLogFile_store w.store w.disk w.store.currentSequenceNumber io.now
    refine ⟨hw, h.chained.congr (by rw [hs]) (by rw [hs]) (by rw [hs]) (fun k hk => ?_) (fun k hk hsome => ?_)
      fun k => ?_, trivial, h.grows.trans (.of_logs hlogs)⟩
    · unfold getLogFile
      split
      · rfl
      · exact SeqMap.get?_set_ne _ hk.ne _
    · rw [hlogs] at hsome
      have hreg := h.chained.filed k hk hsome
      unfold getLogFile
      split
      · exact hreg
      · rw [SeqMap.get?_set]
        split_ifs
        · rfl
        · exact hreg
    · rw [Disk.bytes, hlogs]
      exact h.chained.below k
  | opens seq f hpc hf =>
    obtain rfl := Option.some.inj hwr'
    obtain rfl := h.writing.seq (Or.inl hpc)
    rw [WriterCalls.Succeeds, hpc] at hio
    obtain ⟨hgrows, hbelow⟩ := ensureOpen_growsFrom h.writing.log h.chained.le h.chained.below hf hio
    obtain ⟨hnone, f', hop⟩ := ensureOpen_current h.writing.log (h.chained.below _) hf hio
    obtain ⟨files, hs⟩ := hop.store
    refine ⟨hw, h.chained.congr (by rw [hs]) (by rw [hs]) (by rw [hs]) (fun k hk => ?_) (fun k hk hsome => ?_) hbelow,
      ?_, h.grows.trans hgrows⟩
    · exact ensureOpen_get?_ne _ _ _ _ hk.ne
    · by_cases hq : k = w.store.currentSequenceNumber
      · rw [hq, hop.file]
        rfl
      · rw [ensureOpen_get?_ne _ _ _ _ hq]
        rw [hop.bytes_ne k hq] at hsome
        exact h.chained.filed k hk hsome
    · simp only [hnone, Option.isSome_none, Bool.false_eq_true, if_false, Writer.HasOpened]
      intro g hg
      have hcur : (w.store.ensureOpen w.disk w.store.currentSequenceNumber f io.openCalls).2.1.currentSequenceNumber =
          w.store.currentSequenceNumber := by rw [hs]
      rw [hcur, hop.file] at hg
      rw [← Option.some.inj hg]
      exact hop.isOpen
  | place seq hpc =>
    exact h.quiet hw rfl rfl rfl rfl rfl (hopened (by rw [hpc]; exact fun _ hc => by cases hc))
  | append seq f hpc hf =>
    have hseq := h.writing.seq (Or.inr (Or.inr (Or.inl hpc)))
    subst hseq
    obtain ⟨z, vr, f', hz, happ, -, -⟩ := write_spec h.writing hpc hio
    obtain rfl := Option.some.inj (hz.symm.trans hstep)
    obtain rfl := Option.some.inj (happ.file.symm.trans hf)
    have ho := hopened (by rw [hpc]; exact fun _ hc => by cases hc) f' hf
    obtain ⟨-, hne⟩ := h.writing.log.size_open hf ho
    obtain ⟨timestamp, rs, hwhole⟩ := (h.writing.log.whole (Disk.get?_of_bytes hne)).resolve_left hne
    have hbytes := happ.bytes
    simp only [Disk.bytes_set, if_true] at hbytes
    have hfits : ∀ r ∈ wr.batch.nextRecords (f'.numEntriesToWrite wr.batch cfg.maxFileSize), r.Fits := fun r hr =>
      records_fit wr.batch r (List.mem_of_mem_drop (List.mem_of_mem_take hr))
    have hrec : fileRecords (f'.writeEntries (w.disk.bytes w.store.currentSequenceNumber) wr.batch
      cfg.maxFileSize io.results).bytes =
        fileRecords (w.disk.bytes w.store.currentSequenceNumber) ++
          wr.batch.nextRecords (f'.numEntriesToWrite wr.batch cfg.maxFileSize) := by
      rw [hbytes, TransactionLogEntryBatch.nextBytes, (hwhole.append hfits).records, hwhole.records]
    refine ⟨hw, h.chained.congr rfl rfl rfl (fun k hk => SeqMap.get?_set_ne _ hk.ne _)
      (fun k hk hsome => ?_) fun k => ?_, ?_,
      h.grows.trans (growsFrom_set _ h.chained.le h.writing.log.logs_le hrec)⟩
    · simp only [setFile, SeqMap.get?_set] at hsome ⊢
      split_ifs at hsome ⊢
      · rfl
      · exact h.chained.filed k hk hsome
    · simp only [Disk.bytes_set]
      split_ifs
      · rw [WriterCalls.Ok, hpc] at hok
        rw [hbytes, List.length_append, ← happ.size, ← toWrite_flatten]
        exact hok f' hf
      · exact h.chained.below k
    · unfold Writer.HasOpened
      split
      · trivial
      · intro g hg
        rw [← Option.some.inj ((SeqMap.get?_set_self _ _ _).symm.trans hg),
          TransactionLogFile.WriteEntriesResult.stamped_isOpen,
          writeEntries_isOpen]
        exact ho
  | setNext seq f hpc => exact h.quiet hw rfl rfl rfl rfl rfl (hopened (by rw [hpc]; exact fun _ hc => by cases hc))
  | finish hpc => exact h.quiet hw rfl rfl rfl rfl rfl (hopened (by rw [hpc]; exact fun _ hc => by cases hc))

/-- The log and the files from number `first` on. -/
def World.fromFile (w : World) (first : ℕ) : World :=
  { w with store := w.store.fromFile first, disk := w.disk.fromFile first }

@[simp] theorem World.fromFile_store (w : World) (first : ℕ) : (w.fromFile first).store = w.store.fromFile first := rfl

@[simp] theorem World.fromFile_disk (w : World) (first : ℕ) : (w.fromFile first).disk = w.disk.fromFile first := rfl

@[simp] theorem fromFile_current (s : TransactionLogStore) (first : ℕ) :
    (s.fromFile first).currentSequenceNumber = s.currentSequenceNumber := rfl

@[simp] theorem fromFile_latest (s : TransactionLogStore) (first : ℕ) :
    (s.fromFile first).latestTimestamp = s.latestTimestamp := rfl

@[simp] theorem fromFile_isClosing (s : TransactionLogStore) (first : ℕ) :
    (s.fromFile first).isClosing = s.isClosing := rfl

theorem fromFile_get? (s : TransactionLogStore) {k : ℕ} (h : first ≤ k) :
    (s.fromFile first).sequenceFiles.get? k = s.sequenceFiles.get? k := (SeqMap.get?_fromKey _ _ _).trans (if_pos h)

theorem fromFile_logs (d : Disk) {k : ℕ} (h : first ≤ k) : (d.fromFile first).logs.get? k = d.logs.get? k :=
  (SeqMap.get?_fromKey _ _ _).trans (if_pos h)

theorem fromFile_bytes (d : Disk) {k : ℕ} (h : first ≤ k) : (d.fromFile first).bytes k = d.bytes k := by
  rw [Disk.bytes, fromFile_logs d h]
  rfl

theorem fromFile_setFile (s : TransactionLogStore) {k : ℕ} (h : first ≤ k) (f : TransactionLogFile) :
    (s.setFile k f).fromFile first = (s.fromFile first).setFile k f := by
  unfold setFile TransactionLogStore.fromFile
  simp only [SeqMap.fromKey_set _ h]

theorem fromFile_setLog (d : Disk) {k : ℕ} (h : first ≤ k) (bytes : Bytes) (dir : Bool) :
    Disk.fromFile { d with logs := d.logs.set k bytes, directory := dir } first =
      { d.fromFile first with logs := (d.fromFile first).logs.set k bytes, directory := dir } := by
  unfold Disk.fromFile
  simp only [SeqMap.fromKey_set _ h]

theorem getLogFile_fromFile (s : TransactionLogStore) (d : Disk) {k : ℕ} (h : first ≤ k) (now : ℤ) :
    (s.fromFile first).getLogFile (d.fromFile first) k now =
      ((s.getLogFile d k now).1.fromFile first, (s.getLogFile d k now).2.fromFile first) := by
  unfold getLogFile
  rw [fromFile_get? s h]
  split
  · rfl
  · unfold TransactionLogStore.fromFile
    simp only [SeqMap.fromKey_set _ h]
    rfl

theorem ensureOpen_fromFile (s : TransactionLogStore) (d : Disk) {k : ℕ} (h : first ≤ k)
    (f : TransactionLogFile) (o : OpenCalls) :
    (s.fromFile first).ensureOpen (d.fromFile first) k f o =
      ((s.ensureOpen d k f o).1, (s.ensureOpen d k f o).2.1.fromFile first,
        (s.ensureOpen d k f o).2.2.fromFile first) := by
  unfold ensureOpen openLogFile
  rw [fromFile_logs d h]
  split_ifs
  · rfl
  · simp only [fromFile_setFile s h, fromFile_latest]
    split
    · rw [fromFile_setLog d h]
    · rfl

/-- The call does not look at a file before `first`. -/
theorem Continuing.fromFile (h : Continuing first cfg d0 b0 (w.fromFile first) wr)
    (hstep : writerStep cfg w wr io = some w') :
    writerStep cfg (w.fromFile first) wr io = some (w'.fromFile first) := by
  have hcur : first ≤ w.store.currentSequenceNumber := h.chained.le
  have hseq : ∀ seq, (wr.pc = .tryOpen seq ∨ wr.pc = .checkAge seq ∨ wr.pc = .write seq ∨
      ∃ sizeBefore, wr.pc = .advance seq sizeBefore) → first ≤ seq := fun seq hpc => by
    rw [h.writing.seq hpc]
    exact hcur
  have hplace := h.writing.place
  obtain ⟨pc, batch, pos⟩ := wr
  cases pc with
  | getFile =>
    simp only [writerStep, Option.some.injEq] at hstep ⊢
    rw [← hstep]
    simp only [World.fromFile, fromFile_current, getLogFile_fromFile _ _ hcur]
  | tryOpen seq =>
    have hle := hseq seq (Or.inl rfl)
    simp only [writerStep, World.fromFile, fromFile_get? _ hle, ensureOpen_fromFile _ _ hle,
      Option.bind_eq_some_iff] at hstep ⊢
    obtain ⟨f, hf, hstep⟩ := hstep
    refine ⟨f, hf, ?_⟩
    split_ifs at hstep ⊢
    all_goals
      rw [← Option.some.inj hstep]
  | rotateInner | finish =>
    simp only [writerStep, Option.some.injEq] at hstep ⊢
    rw [← hstep]
    rfl
  | fixPosition seq =>
    simp only [writerStep] at hstep ⊢
    split_ifs at hstep ⊢
    all_goals
      rw [← Option.some.inj hstep]
      rfl
  | checkAge seq =>
    simp only [writerStep, World.fromFile, fromFile_get? _ (hseq seq (Or.inr (Or.inl rfl))),
      Option.bind_eq_some_iff] at hstep ⊢
    obtain ⟨f, hf, hstep⟩ := hstep
    refine ⟨f, hf, ?_⟩
    split_ifs at hstep ⊢
    all_goals exact congrArg (Option.map fun z => z.fromFile first) hstep
  | write seq =>
    have hle := hseq seq (Or.inr (Or.inr (Or.inl rfl)))
    simp only [writerStep, World.fromFile, fromFile_get? _ hle, fromFile_bytes _ hle,
      Option.bind_eq_some_iff] at hstep ⊢
    obtain ⟨f, hf, hstep⟩ := hstep
    refine ⟨f, hf, ?_⟩
    by_cases hblocked : (f.writeEntries (w.disk.bytes seq) batch cfg.maxFileSize io.results).outcome = .blocked
    · rw [if_pos hblocked] at hstep
      cases hstep
    · rw [if_neg hblocked] at hstep ⊢
      rw [← Option.some.inj hstep, fromFile_setFile _ hle, fromFile_setLog _ hle]
      rfl
  | advance seq sizeBefore =>
    simp only [writerStep, World.fromFile, fromFile_get? _ (hseq seq (Or.inr (Or.inr (Or.inr ⟨sizeBefore, rfl⟩)))),
      Option.bind_eq_some_iff] at hstep ⊢
    obtain ⟨f, hf, hstep⟩ := hstep
    refine ⟨f, hf, ?_⟩
    split_ifs at hstep ⊢
    all_goals exact congrArg (Option.map fun z => z.fromFile first) hstep
  | setNext seq =>
    rw [Writer.Place] at hplace
    obtain ⟨hsome, -⟩ := hplace
    have hle : first ≤ seq := by
      by_contra hlt
      rw [World.fromFile_store, TransactionLogStore.fromFile, SeqMap.get?_fromKey, if_neg hlt] at hsome
      cases hsome
    simp only [writerStep, World.fromFile, fromFile_get? _ hle, Option.bind_eq_some_iff] at hstep ⊢
    obtain ⟨f, hf, hstep⟩ := hstep
    refine ⟨f, hf, ?_⟩
    rw [← Option.some.inj hstep]
    rfl
  | returned => cases hstep
  | threw e => cases hstep

end

end RocksdbJs
