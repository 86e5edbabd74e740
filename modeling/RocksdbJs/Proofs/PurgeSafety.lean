import RocksdbJs.Sanity.Lifecycle

/-! Purge safety. A step deletes only log files that end at or before the flushed position of
`txn.state`, along every run in which the file of that position is open when a purge runs and
what a load finds expired ends there too. A file registered by `load` and not opened since
counts as empty, and the expiry of `load` does not look at the flushed position at all. -/

namespace RocksdbJs

open TransactionLogStore

theorem entryLocations_seq {seq : ℕ} : ∀ {rs : List LogRecord} {offset : ℕ}, ∀ l ∈ entryLocations seq offset rs,
    l.logSequenceNumber = seq ∧ l.positionInLogFile < offset + (frames rs).length := by
  intro rs
  induction rs with
  | nil => intro offset l hl; cases hl
  | cons r rs ih =>
    intro offset l hl
    have hpos := r.frame_length
    rw [frames_cons, List.length_append]
    simp only [TRANSACTION_LOG_ENTRY_HEADER_SIZE] at hpos
    rcases List.mem_cons.mp hl with rfl | hl
    · exact ⟨rfl, by simp only; omega⟩
    · obtain ⟨h1, h2⟩ := ih l hl
      exact ⟨h1, by omega⟩

theorem decodeFrames_length (fuel : ℕ) (bytes : Bytes) : (frames (decodeFrames fuel bytes)).length ≤ bytes.length := by
  induction fuel generalizing bytes with
  | zero => exact Nat.zero_le _
  | succ fuel ih =>
    unfold decodeFrames
    split_ifs with h1
    · exact Nat.zero_le _
    · simp only
      split_ifs with h2
      · exact Nat.zero_le _
      · have hrest := ih (bytes.drop (TRANSACTION_LOG_ENTRY_HEADER_SIZE + readUint32BE bytes 8))
        rw [List.length_drop] at hrest
        rw [frames_cons, List.length_append, LogRecord.frame_length, List.length_take, List.length_drop]
        omega

/-- Where the entries of a file begin. -/
def fileLocations (seq : ℕ) (bytes : Bytes) : List LogPosition :=
  entryLocations seq TRANSACTION_LOG_FILE_HEADER_SIZE (fileRecords bytes)

theorem fileLocations_lt {seq : ℕ} {bytes : Bytes} : ∀ l ∈ fileLocations seq bytes,
    l.logSequenceNumber = seq ∧ l.positionInLogFile < bytes.length := by
  intro l hl
  obtain ⟨h1, h2⟩ := entryLocations_seq l hl
  refine ⟨h1, h2.trans_le ?_⟩
  have hlen := decodeFrames_length bytes.length (bytes.drop TRANSACTION_LOG_FILE_HEADER_SIZE)
  rw [List.length_drop] at hlen
  rw [fileRecords]
  by_cases h13 : TRANSACTION_LOG_FILE_HEADER_SIZE ≤ bytes.length
  · omega
  · rw [fileLocations, fileRecords_of_short (not_le.mp h13).le] at hl
    cases hl

/-- Every log file that the step deletes holds only entries before the flushed position. -/
def DeletesFlushed (d d' : Disk) : Prop :=
  ∀ e ∈ d.logs.entries, d'.logs.get? e.1 = none → ∀ l ∈ fileLocations e.1 e.2, l < getLastFlushedPosition d

instance (d d' : Disk) : Decidable (DeletesFlushed d d') := inferInstanceAs (Decidable (∀ e ∈ d.logs.entries, _))

/-- The file ends at or before the flushed position, or has no entries. -/
def EndsBy (d : Disk) (seq : ℕ) : Prop :=
  seq < (getLastFlushedPosition d).logSequenceNumber ∨
    (seq = (getLastFlushedPosition d).logSequenceNumber ∧
      (d.bytes seq).length ≤ (getLastFlushedPosition d).positionInLogFile) ∨
    (d.bytes seq).length ≤ TRANSACTION_LOG_FILE_HEADER_SIZE

instance (d : Disk) (seq : ℕ) : Decidable (EndsBy d seq) := inferInstanceAs (Decidable (_ ∨ _ ∨ _))

theorem EndsBy.before {d : Disk} {seq : ℕ} (h : EndsBy d seq) :
    ∀ l ∈ fileLocations seq (d.bytes seq), l < getLastFlushedPosition d := by
  intro l hl
  obtain ⟨h1, h2⟩ := fileLocations_lt l hl
  rw [LogPosition.lt_iff, h1]
  rcases h with hlt | ⟨heq, hle⟩ | hnone
  · exact Or.inl hlt
  · exact Or.inr ⟨heq, h2.trans_le hle⟩
  · rw [fileLocations, fileRecords_of_short hnone] at hl
    cases hl

theorem DeletesFlushed.of_endsBy {d d' : Disk}
    (h : ∀ seq, (d.logs.get? seq).isSome → d'.logs.get? seq = none → EndsBy d seq) : DeletesFlushed d d' := by
  intro e he hnone
  have hget : d.logs.get? e.1 = some e.2 := SeqMap.get?_eq_some_iff.mpr he
  have hbytes : d.bytes e.1 = e.2 := by rw [Disk.bytes, hget, Option.getD_some]
  rw [← hbytes]
  exact (h e.1 (by rw [hget]; rfl) hnone).before

theorem DeletesFlushed.of_keeps {d d' : Disk} (h : ∀ seq, (d.logs.get? seq).isSome → (d'.logs.get? seq).isSome) :
    DeletesFlushed d d' :=
  DeletesFlushed.of_endsBy fun seq hs hnone => by
    have := h seq hs
    rw [hnone] at this
    cases this

namespace Life

/-- What a step has to meet. The system calls do not fail unnoticed and no append stops
part-way; no lookup resets a size; a purge finds the file of the flushed position open, or
ending there, and every log file registered; a load finds nothing expired that ends later. -/
def PurgeOk (cfg : StoreConfig) (y : Life) : Event → Prop
  | .writer io => ∀ wr ∈ y.world.writer, io.Exact cfg y.world wr
  | .getLogFileSize seq io => (io.openCalls seq).Exact ∧ (y.world.disk.bytes seq).length < UINT32_RANGE
  | .findPosition timestamp io => ∀ e ∈ y.world.store.sequenceFiles.entries,
      (findPositionByTimestamp cfg y.world.store y.world.disk timestamp io).2.sizeOf e.1 = e.2.size
  | .purge _ _ _ =>
    (∀ f ∈ y.world.store.sequenceFiles.get? (getLastFlushedPosition y.world.disk).logSequenceNumber,
      f.isOpen = true ∨ EndsBy y.world.disk (getLastFlushedPosition y.world.disk).logSequenceNumber) ∧
    ∀ seq ∈ y.world.disk.logs.keys, (y.world.store.sequenceFiles.get? seq).isSome ∨ EndsBy y.world.disk seq
  | .load order io => (∀ seq ∈ order, (io.openCalls seq).Exact ∧ (y.world.disk.bytes seq).length < UINT32_RANGE) ∧
      ∀ seq ∈ order, expired cfg io seq = true → EndsBy y.world.disk seq
  | _ => True

instance (cfg : StoreConfig) (y : Life) : ∀ e : Event, Decidable (PurgeOk cfg y e)
  | .writer io => inferInstanceAs (Decidable (∀ wr ∈ y.world.writer, io.Exact cfg y.world wr))
  | .getLogFileSize seq io =>
    inferInstanceAs (Decidable ((io.openCalls seq).Exact ∧ (y.world.disk.bytes seq).length < UINT32_RANGE))
  | .findPosition timestamp io => inferInstanceAs (Decidable (∀ e ∈ y.world.store.sequenceFiles.entries,
      (findPositionByTimestamp cfg y.world.store y.world.disk timestamp io).2.sizeOf e.1 = e.2.size))
  | .purge _ _ _ => inferInstanceAs (Decidable
      ((∀ f ∈ y.world.store.sequenceFiles.get? (getLastFlushedPosition y.world.disk).logSequenceNumber,
        f.isOpen = true ∨ EndsBy y.world.disk (getLastFlushedPosition y.world.disk).logSequenceNumber) ∧
      ∀ seq ∈ y.world.disk.logs.keys, (y.world.store.sequenceFiles.get? seq).isSome ∨ EndsBy y.world.disk seq))
  | .load order io => inferInstanceAs (Decidable
      ((∀ seq ∈ order, (io.openCalls seq).Exact ∧ (y.world.disk.bytes seq).length < UINT32_RANGE) ∧
      ∀ seq ∈ order, expired cfg io seq = true → EndsBy y.world.disk seq))
  | .create => isTrue trivial
  | .beginWrite _ => isTrue trivial
  | .commitFinished _ _ => isTrue trivial
  | .commitAborted _ => isTrue trivial
  | .flushScan _ => isTrue trivial
  | .flushWrite _ => isTrue trivial
  | .getLastCommittedPosition => isTrue trivial
  | .close _ => isTrue trivial
  | .crash => isTrue trivial

/-- A purge removes what its sizes, which are right, say is flushed. -/
theorem doPurge_deletes {cfg : StoreConfig} {s : TransactionLogStore} {d : Disk} {all : Bool} {before : ℕ}
    {io : FilesCalls} (h : SizesExact s d)
    (hfile : ∀ f ∈ s.sequenceFiles.get? (getLastFlushedPosition d).logSequenceNumber, f.isOpen = true ∨
      EndsBy d (getLastFlushedPosition d).logSequenceNumber)
    (hreg : ∀ seq ∈ d.logs.keys, (s.sequenceFiles.get? seq).isSome ∨ EndsBy d seq) :
    DeletesFlushed d (doPurge cfg s d all before io).2 := by
  have hremoved : ∀ seq ∈ purgedSequences cfg s d all before io, EndsBy d seq := by
    intro seq hseq
    obtain ⟨f, hf, hflushed⟩ := mem_purgedSequences hseq
    simp only [entirelyFlushed, Bool.not_eq_true', Bool.or_eq_false_iff, decide_eq_false_iff_not,
      Bool.and_eq_false_iff] at hflushed
    obtain ⟨hle, hsize⟩ := hflushed
    by_cases hlt : seq < (getLastFlushedPosition d).logSequenceNumber
    · exact Or.inl hlt
    · have heq : seq = (getLastFlushedPosition d).logSequenceNumber := by omega
      have hle' : f.size ≤ (getLastFlushedPosition d).positionInLogFile := by
        rcases hsize with h1 | h1
        · exact absurd heq h1
        · omega
      rcases hfile f (heq ▸ hf) with ho | hends
      · exact Or.inr (Or.inl ⟨heq, by rw [← (h hf).opened ho]; exact hle'⟩)
      · rw [heq]
        exact hends
  obtain ⟨hfiles, hdisk⟩ := doPurge_cases cfg s d all before io
  refine DeletesFlushed.of_endsBy fun seq hsome hnone => ?_
  rcases hdisk with hlogs | ⟨-, hempty⟩
  · rw [hlogs] at hnone
    split_ifs at hnone with hmem
    · exact hremoved seq hmem
    · rw [hnone] at hsome
      cases hsome
  · -- the directory goes as a whole
    obtain ⟨bytes, hbytes⟩ := Option.isSome_iff_exists.mp hsome
    rcases hreg seq (SeqMap.mem_keys_iff.mpr ⟨bytes, hbytes⟩) with hr | hends
    · have hgone := hempty seq
      rw [hfiles] at hgone
      split_ifs at hgone with hmem
      · exact hremoved seq hmem
      · rw [hgone] at hr
        cases hr
    · exact hends

section
variable {cfg : StoreConfig} {y y' : Life}

theorem PurgeOk.sizes {e : Event} (h : PurgeOk cfg y e) : SizesOk cfg y e := by
  cases e with
  | load order io => exact h.1
  | writer io | getLogFileSize seq io | findPosition timestamp io => exact h
  | _ => trivial

theorem stepOpen_deletes {e : Event} (hi : y.RightSizes) (hopen : y.isOpen = true) (hok : PurgeOk cfg y e)
    (h : y.stepOpen cfg e = some y') : DeletesFlushed y.world.disk y'.world.disk := by
  have hkept : ∀ {d' : Disk}, d'.logs = y.world.disk.logs → DeletesFlushed y.world.disk d' := by
    intro d' hlogs
    refine DeletesFlushed.of_keeps fun seq hseq => ?_
    rw [hlogs]
    exact hseq
  cases e with
  | create => cases h
  | beginWrite batch =>
    simp only [stepOpen] at h
    split_ifs at h
    obtain rfl := Option.some.inj h
    exact hkept (congrArg Disk.logs (beginWrite_files y.world batch).2.1)
  | writer io =>
    simp only [stepOpen, stepWriter, Option.map_eq_some_iff, Option.bind_eq_some_iff] at h
    obtain ⟨w', ⟨wr, hwr, hstep⟩, rfl⟩ := h
    exact DeletesFlushed.of_keeps (writerStep_frame hstep).kept
  | flushWrite k =>
    simp only [stepOpen, Option.map_eq_some_iff] at h
    obtain ⟨position, -, rfl⟩ := h
    obtain ⟨stream, written, state, hr⟩ := writeFlushedPosition_cases y.world.store y.world.disk position
    rw [hr]
    exact hkept rfl
  | getLogFileSize seq io =>
    obtain rfl := Option.some.inj h
    rcases getLogFileSize_spec y.world.store y.world.disk seq io with heq | ⟨f, hf, heq⟩
    · apply hkept
      simp only [moveTo]
      rw [heq]
    · have hkeep := fun q => ensureOpen_keeps y.world.store (d := y.world.disk) seq f (io.openCalls seq) (q := q)
      rw [← heq] at hkeep
      exact DeletesFlushed.of_keeps hkeep
  | purge all before io =>
    simp only [stepOpen] at h
    split_ifs at h with hbusy
    obtain rfl := Option.some.inj h
    exact doPurge_deletes (hi hopen).1 hok.1 hok.2
  | close io =>
    simp only [stepOpen] at h
    split_ifs at h
    obtain rfl := Option.some.inj h
    exact hkept (congrArg Disk.logs (doClose_disk _ _ _ _).1)
  | commitFinished position seq | commitAborted position | flushScan seq | getLastCommittedPosition
  | findPosition timestamp io | crash =>
    obtain rfl := Option.some.inj h
    exact hkept rfl
  | load order io => cases h

theorem stepClosed_deletes {e : Event} (hok : PurgeOk cfg y e) (h : y.stepClosed cfg e = some y') :
    DeletesFlushed y.world.disk y'.world.disk := by
  cases e with
  | create =>
    simp only [stepClosed] at h
    split_ifs at h
    obtain rfl := Option.some.inj h
    exact DeletesFlushed.of_keeps fun _ hq => hq
  | load order io =>
    simp only [stepClosed] at h
    split_ifs at h with hperm
    have hdel : DeletesFlushed y.world.disk (load cfg y.world.disk order io).2 := by
      refine DeletesFlushed.of_endsBy fun seq hsome hnone => ?_
      by_contra hends
      have hkeep := load_keeps cfg order io hsome fun hmem =>
        Bool.eq_false_iff.mpr fun hexp => hends (hok.2 seq hmem hexp)
      rw [hnone] at hkeep
      cases hkeep
    split at h
    · rename_i s d hload
      obtain rfl := Option.some.inj h
      rw [hload] at hdel
      exact hdel
    · rename_i d hload
      obtain rfl := Option.some.inj h
      rw [hload] at hdel
      exact hdel
  | _ => cases h

theorem step_deletes {e : Event} (hi : y.RightSizes) (hok : PurgeOk cfg y e) (h : step cfg y e = some y') :
    DeletesFlushed y.world.disk y'.world.disk := by
  unfold step at h
  split_ifs at h with hopen
  · exact stepOpen_deletes hi hopen hok h
  · exact stepClosed_deletes hok h

/-- Over every history of a directory, whatever it holds at first: a step that meets the
condition after steps that all met it deletes no log file with an entry at or after the
flushed position. -/
theorem deletes_only_flushed {y0 : Life} {es : List Event} {e : Event} (h0 : y0.isOpen = false)
    (hrun : Runs.exec (step cfg) y0 es = some y) (hall : Runs.Along (step cfg) (PurgeOk cfg) y0 es)
    (hok : PurgeOk cfg y e) (h : step cfg y e = some y') : DeletesFlushed y.world.disk y'.world.disk := by
  have hstart : y0.RightSizes := fun ho => absurd ho (by rw [h0]; exact Bool.false_ne_true)
  have hinv : y.RightSizes := Runs.exec_invariant (fun _ _ _ hi ho hs =>
    step_rightSizes hi ho.sizes hs) hstart hall hrun
  exact step_deletes hinv hok h

end

/-- A purge of everything, once all is flushed. -/
theorem deletes_only_flushed_all : ∃ y y', Runs.exec (step ⟨200, 0, none⟩) {} flushedBatch = some y ∧
    step ⟨200, 0, none⟩ y (.purge true 0 {}) = some y' ∧ y.world.disk.logs.keys = [1] ∧ y'.world.disk.logs.keys = [] ∧
    DeletesFlushed y.world.disk y'.world.disk := by
  have hrun := Runs.exec_final (step ⟨200, 0, none⟩) {} flushedBatch (by decide +kernel)
  have hstep := Runs.step_final (step ⟨200, 0, none⟩) (Runs.final (step ⟨200, 0, none⟩) {} flushedBatch)
    (.purge true 0 {})
    (by decide +kernel)
  refine ⟨_, _, hrun, hstep, by decide +kernel, by decide +kernel, ?_⟩
  exact deletes_only_flushed rfl hrun (by decide +kernel) (by decide +kernel) hstep

/-- A batch that is not flushed before the store is closed. -/
def unflushedBatch : List Event := .create :: oneBatch ++ [.close {}]

/-- The file is past the retention period when the store is next loaded. -/
theorem load_deletes_unflushed : ∃ y y', Runs.exec (step ⟨200, 1, none⟩) {} unflushedBatch = some y ∧
    step ⟨200, 1, none⟩ y (.load [1] { now := 100 }) = some y' ∧ ¬ DeletesFlushed y.world.disk y'.world.disk := by
  refine ⟨_, _, Runs.exec_final _ _ _ ?_, Runs.step_final _ _ _ ?_, ?_⟩
  all_goals decide +kernel

end Life

end RocksdbJs
