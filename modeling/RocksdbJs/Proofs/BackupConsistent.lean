import RocksdbJs.Sanity.Placement

/-! The flushed position of a backup against its logs. `snapshotForBackup` reads `txn.state`
first and the sizes last, and sizes only grow, so all depends on the position that was written
there: a commit publishes the place of the next entry, which is past the log when the batch
before it ended by a rotation. In every run without such a batch the captured position is within
the captured logs, and these end at entry boundaries. -/

namespace RocksdbJs

open TransactionLogStore

/-- In a captured file, before them all, or at the start of the file after the last one. -/
def WithinLogs (entries : List TransactionLogBackupEntry) (p : LogPosition) : Prop :=
  (∃ e ∈ entries, e.seq = p.logSequenceNumber ∧ p.positionInLogFile ≤ e.byteLimit) ∨
    (∀ e ∈ entries, p.logSequenceNumber < e.seq) ∨
    (p.positionInLogFile = 0 ∧ ∃ e ∈ entries, (∀ e' ∈ entries, e'.seq ≤ e.seq) ∧ p.logSequenceNumber = e.seq + 1)

instance (entries : List TransactionLogBackupEntry) (p : LogPosition) : Decidable (WithinLogs entries p) :=
  inferInstanceAs (Decidable (_ ∨ _ ∨ _ ∧ ∃ e ∈ entries, _))

/-- What a commit, a batch or a flush does, and the snapshot's own steps. -/
def BackupEvent.Concurrent : BackupEvent → Prop
  | .life (.beginWrite _) => True
  | .life (.writer _) => True
  | .life (.commitFinished _ _) => True
  | .life (.commitAborted _) => True
  | .life (.flushScan _) => True
  | .life (.flushWrite _) => True
  | .beginSnapshot => True
  | .snapshot _ _ => True
  | _ => False

instance : ∀ e : BackupEvent, Decidable e.Concurrent
  | .life (.beginWrite _) | .life (.writer _) | .life (.commitFinished _ _) | .life (.commitAborted _)
  | .life (.flushScan _) | .life (.flushWrite _) | .beginSnapshot | .snapshot _ _ => isTrue trivial
  | .life .create | .life .getLastCommittedPosition | .life (.getLogFileSize _ _) | .life (.findPosition _ _)
  | .life (.purge _ _ _) | .life (.close _) | .life .crash | .life (.load _ _) | .options _ => isFalse id

/-- The store that `load` returns: its numbers are given out in order, what it has opened is
whole, and the flushed position is in it. -/
def LoadsPlaced (s : TransactionLogStore) (d : Disk) : Prop :=
  (∀ e ∈ s.sequenceFiles.entries, e.1 < s.nextSequenceNumber ∧ (e.2.isOpen = true → Framed (d.bytes e.1))) ∧
    ∀ p ∈ d.txnState, Placed s p

instance (s : TransactionLogStore) (d : Disk) : Decidable (LoadsPlaced s d) :=
  inferInstanceAs (Decidable ((∀ e ∈ _, _) ∧ ∀ p ∈ d.txnState, _))

namespace Life

/-- What a step has to meet. -/
def PlacingOk (cfg : StoreConfig) (y : Life) : Event → Prop
  | .create => ∀ p ∈ y.world.disk.txnState, Placed {} p
  | .load order io => y.SizesOk cfg (.load order io) ∧
      ∀ s ∈ (load cfg y.world.disk order io).1, LoadsPlaced s (load cfg y.world.disk order io).2
  | .writer io => ∀ wr ∈ y.world.writer, io.Placing cfg y.world wr
  | .commitFinished position _ => ∀ wr ∈ y.world.writer, wr.busy = true → position ≠ wr.logPosition
  | .commitAborted position => ∀ wr ∈ y.world.writer, wr.busy = true → position ≠ wr.logPosition
  | _ => True

instance (cfg : StoreConfig) (y : Life) : ∀ e : Event, Decidable (PlacingOk cfg y e)
  | .create => inferInstanceAs (Decidable (∀ p ∈ y.world.disk.txnState, Placed {} p))
  | .load order io => inferInstanceAs (Decidable (y.SizesOk cfg (.load order io) ∧
      ∀ s ∈ (load cfg y.world.disk order io).1, LoadsPlaced s (load cfg y.world.disk order io).2))
  | .writer io => inferInstanceAs (Decidable (∀ wr ∈ y.world.writer, io.Placing cfg y.world wr))
  | .commitFinished position _ =>
    inferInstanceAs (Decidable (∀ wr ∈ y.world.writer, wr.busy = true → position ≠ wr.logPosition))
  | .commitAborted position =>
    inferInstanceAs (Decidable (∀ wr ∈ y.world.writer, wr.busy = true → position ≠ wr.logPosition))
  | .beginWrite _ | .flushScan _ | .flushWrite _ | .getLastCommittedPosition | .getLogFileSize _ _ | .findPosition _ _
  | .purge _ _ _ | .close _ | .crash => isTrue trivial

/-- Every position that is or may become the flushed one is in the log. -/
structure Settled (y : Life) : Prop where
  sizes : SizesExact y.world.store y.world.disk
  session : InSession y.world
  files : FilesPlaced y.world.store y.world.disk
  positions : ∀ p ∈ y.world.store.uncommittedTransactionPositions, Placed y.world.store p
  samples : ∀ sp ∈ y.world.store.recentlyCommittedSequencePositions, Placed y.world.store sp.position
  flushes : ∀ p ∈ y.flushes, Placed y.world.store p
  flushed : ∀ p ∈ y.world.disk.txnState, Placed y.world.store p
  /-- No batch runs, or one that has its position registered. -/
  next : (y.world.busy = false ∧ Placed y.world.store y.world.store.nextLogPosition) ∨
    ∃ wr, y.world.writer = some wr ∧ wr.busy = true ∧
    wr.FileOpen y.world.store ∧ wr.NextAt y.world.store ∧ wr.logPosition ∈ y.world.store.uncommittedTransactionPositions

/-- What the snapshots see of a step: the store is a later one, and its files have only grown. -/
structure Moves (y y' : Life) : Prop where
  settled : y'.Settled
  later : Later y.world.store y'.world.store
  grown : ∀ q, y.world.store.Opens q → y.world.disk.bytes q <+: y'.world.disk.bytes q

section
variable {cfg : StoreConfig} {y y' : Life}

theorem zero_placed {s : TransactionLogStore} (h : Below s 0) : Placed s ⟨0, 0⟩ := Or.inr h

/-- A commit publishes a registered position, or the place of the next entry when no batch runs. -/
theorem fullyCommitted_placed {position : LogPosition} (h : y.Settled)
    (hok : ∀ wr ∈ y.world.writer, wr.busy = true → position ≠ wr.logPosition) :
    Placed y.world.store (y.world.store.positionErase position).fullyCommittedPosition := by
  unfold fullyCommittedPosition
  cases hfront : (y.world.store.positionErase position).uncommittedTransactionPositions.front? with
  | some p => exact h.positions p (SortedVec.mem_erase.mp (SortedVec.front?_mem hfront)).2
  | none =>
    rcases h.next with ⟨-, hplaced⟩ | ⟨wr, hwr, hbusy, -, -, hmem⟩
    · exact hplaced
    · have hstays : wr.logPosition ∈ (y.world.store.positionErase position).uncommittedTransactionPositions :=
        SortedVec.mem_erase.mpr ⟨(hok wr hwr hbusy).symm, hmem⟩
      exact absurd hstays (SortedVec.front?_eq_none.mp hfront _)

theorem nextAt_congr {s s' : TransactionLogStore} {wr : Writer}
    (hfiles : s'.sequenceFiles = s.sequenceFiles)
    (hcur : s'.currentSequenceNumber = s.currentSequenceNumber)
    (hnext : s'.nextLogPosition = s.nextLogPosition) (h : wr.NextAt s) : wr.NextAt s' := by
  have hlater : Later s s' := Later.of_files hfiles hcur.ge
  obtain ⟨pc, batch, pos⟩ := wr
  cases pc with
  | rotateInner => trivial
  | getFile =>
    simp only [Writer.NextAt, hfiles, hcur, hnext] at h ⊢
    exact h.imp_left fun hp => hp.later hlater
  | tryOpen seq =>
    simp only [Writer.NextAt, hcur, hnext] at h ⊢
    exact ⟨h.1, h.2.imp_left fun hp => hp.later hlater⟩
  | fixPosition seq | checkAge seq | write seq =>
    simp only [Writer.NextAt, hcur, hnext] at h ⊢
    exact ⟨h.1, h.2.later hlater⟩
  | advance seq sizeBefore =>
    simp only [Writer.NextAt, Opens, hfiles, hcur, hnext] at h ⊢
    exact ⟨h.1, h.2.1.later hlater, h.2.2⟩
  | setNext seq =>
    simp only [Writer.NextAt, Opens, hfiles, hcur] at h ⊢
    exact h
  | finish | returned | threw e =>
    simp only [Writer.NextAt, hnext] at h ⊢
    exact h.later hlater

/-- A step that leaves the files, the counters and the writer. -/
theorem Settled.quiet (h : y.Settled) (hwriter : y'.world.writer = y.world.writer)
    (hfiles : y'.world.store.sequenceFiles = y.world.store.sequenceFiles)
    (hcur : y'.world.store.currentSequenceNumber = y.world.store.currentSequenceNumber)
    (hno : y'.world.store.nextSequenceNumber = y.world.store.nextSequenceNumber)
    (hnext : y'.world.store.nextLogPosition = y.world.store.nextLogPosition)
    (hlogs : y'.world.disk.logs = y.world.disk.logs)
    (hpositions : ∀ p ∈ y'.world.store.uncommittedTransactionPositions,
      p ∈ y.world.store.uncommittedTransactionPositions)
    (hmem : ∀ wr ∈ y.world.writer, wr.busy = true → wr.logPosition ∈ y.world.store.uncommittedTransactionPositions →
      wr.logPosition ∈ y'.world.store.uncommittedTransactionPositions)
    (hsamples : ∀ sp ∈ y'.world.store.recentlyCommittedSequencePositions, Placed y.world.store sp.position)
    (hflushes : ∀ p ∈ y'.flushes, Placed y.world.store p)
    (hflushed : ∀ p ∈ y'.world.disk.txnState, Placed y.world.store p) : Moves y y' := by
  have hlater : Later y.world.store y'.world.store := Later.of_files hfiles hcur.ge
  have hbytes : ∀ q, y'.world.disk.bytes q = y.world.disk.bytes q := fun q => by rw [Disk.bytes, hlogs, Disk.bytes]
  have hsession : InSession y'.world := by
    refine (Advances.of_same h.session hlogs hcur hno (fun q hq => by rw [hfiles]; exact hq) fun wr hwr => ?_).session
    rw [hwriter] at hwr
    have hon := h.session.writer wr hwr
    unfold Writer.OnCurrent at hon ⊢
    split at hon
    all_goals first | trivial | exact hon.trans hcur.symm
  have hplaced : FilesPlaced y'.world.store y'.world.disk := by
    refine ⟨fun {q f} hf ho => ?_, fun {q} hq => ?_, by rw [hcur, hno]; exact h.files.current_lt,
      h.files.zero.later hlater⟩
    · rw [hbytes]
      exact h.files.framed (by rw [← hfiles]; exact hf) ho
    · rw [hno]
      exact h.files.registered (by rw [← hfiles]; exact hq)
  refine ⟨⟨fun {q f} hf => ?_, hsession, hplaced, fun p hp => (h.positions p (hpositions p hp)).later hlater,
    fun sp hsp => (hsamples sp hsp).later hlater, fun p hp => (hflushes p hp).later hlater,
    fun p hp => (hflushed p hp).later hlater, ?_⟩,
    hlater, fun q _ => by rw [hbytes]⟩
  · rw [hbytes]
    exact h.sizes (by rw [← hfiles]; exact hf)
  · rcases h.next with ⟨hidle, hp⟩ | ⟨wr, hwr, hbusy, hopen, hat, hin⟩
    · refine Or.inl ⟨by rw [World.busy, hwriter]; exact hidle, ?_⟩
      rw [hnext]
      exact hp.later hlater
    · refine Or.inr ⟨wr, hwriter.trans hwr, hbusy, hopen.mono fun q f' hf' => ⟨f', ?_, id⟩,
        nextAt_congr hfiles hcur hnext hat, hmem wr hwr hbusy hin⟩
      rwa [hfiles] at hf'

theorem Settled.idle_next (h : y.Settled) (hidle : y.world.busy = false) :
    Placed y.world.store y.world.store.nextLogPosition := by
  rcases h.next with ⟨-, hp⟩ | ⟨wr, hwr, hbusy, -⟩
  · exact hp
  · rw [World.busy, hwr, Option.map_some, Option.getD_some] at hidle
    exact absurd (hidle.symm.trans hbusy) Bool.false_ne_true

theorem beginWrite_moves (h : y.Settled) (hidle : y.world.busy = false) (batch : TransactionLogEntryBatch) :
    Moves y (y.moveTo (RocksdbJs.beginWrite y.world batch)) := by
  have hnext := h.idle_next hidle
  unfold RocksdbJs.beginWrite
  by_cases hclosing : y.world.store.isClosing = true
  · rw [if_pos hclosing]
    refine ⟨⟨h.sizes, ⟨h.session.current_lt, fun wr hwr => ?_⟩, h.files, h.positions, h.samples, h.flushes,
      h.flushed, Or.inl ⟨rfl, hnext⟩⟩,
      Later.of_files rfl le_rfl, fun q _ => List.prefix_refl _⟩
    obtain rfl := Option.some.inj hwr
    trivial
  · rw [if_neg hclosing]
    have hlater : ∀ t, Later y.world.store
        { y.world.store.positionInsert y.world.store.nextLogPosition with latestTimestamp := t } :=
      fun t => Later.of_files rfl le_rfl
    have hplaced := fun t {p : LogPosition} (hp : Placed y.world.store p) => hp.later (hlater t)
    refine ⟨⟨h.sizes, ⟨h.session.current_lt, fun wr hwr => ?_⟩,
      ⟨h.files.framed, h.files.registered, h.files.current_lt, h.files.zero⟩,
      fun p hp => ?_, fun sp hsp => hplaced _ (h.samples sp hsp), fun p hp => hplaced _ (h.flushes p hp),
      fun p hp => hplaced _ (h.flushed p hp),
      Or.inr ⟨_, rfl, outerLoop_busy _ _, ?_, outerLoop_nextAt _ _ (hplaced _ hnext),
        SortedVec.mem_insert.mpr (Or.inl rfl)⟩⟩,
      hlater _, fun q _ => List.prefix_refl _⟩
    · obtain rfl := Option.some.inj hwr
      exact outerLoop_onCurrent _ _ _
    · rcases SortedVec.mem_insert.mp hp with rfl | hp
      · exact hplaced _ hnext
      · exact hplaced _ (h.positions p hp)
    · exact outerLoop_fileOpen _ _ _

theorem writer_moves {w' : World} {wr : Writer} {io : WriterCalls} (h : y.Settled) (hwr : y.world.writer = some wr)
    (hok : io.Placing cfg y.world wr) (hstep : writerStep cfg y.world wr io = some w') : Moves y (y.moveTo w') := by
  have hbusy := writerStep_busy hstep
  rcases h.next with ⟨hidle, -⟩ | ⟨wr0, hwr0, -, hopen, hat, hmem⟩
  · rw [World.busy, hwr, Option.map_some, Option.getD_some] at hidle
    exact absurd (hidle.symm.trans hbusy) Bool.false_ne_true
  obtain rfl : wr = wr0 := Option.some.inj (hwr.symm.trans hwr0)
  obtain ⟨hsizes, hopen'⟩ := writerStep_exact h.sizes hopen hok.1 hstep
  obtain ⟨wr', hplaced⟩ := writerStep_placed h.files h.sizes hopen hat (fun _ => hmem) hok hstep
  have hadv := writerStep_advances h.session (h.session.writer wr hwr) hstep
  have htxn := (writerStep_frame hstep).txnState
  refine ⟨⟨hsizes, hadv.session, hplaced.files, fun p hp => ?_, fun sp hsp => ?_,
    fun p hp => (h.flushes p hp).later hplaced.later,
    fun p hp => ?_, ?_⟩, hplaced.later, fun q hq => ?_⟩
  · rcases hplaced.positions p hp with hold | hnew
    · exact (h.positions p hold).later hplaced.later
    · exact hnew
  · exact (h.samples sp (by rw [← hplaced.samples]; exact hsp)).later hplaced.later
  · exact (h.flushed p (by rw [← htxn]; exact hp)).later hplaced.later
  · change (w'.busy = false ∧ Placed w'.store w'.store.nextLogPosition) ∨ _
    rw [World.busy, hplaced.writer, Option.map_some, Option.getD_some]
    cases hb : wr'.busy with
    | false => exact Or.inl ⟨rfl, hplaced.next_of_idle hb⟩
    | true => exact Or.inr ⟨wr', hplaced.writer, hb, hopen' wr' hplaced.writer, hplaced.next, hplaced.mem hb⟩
  · obtain ⟨bytes, hb⟩ := h.files.onDisk hq
    obtain ⟨f, hf, ho⟩ := hq
    obtain ⟨f', hf', ho', -⟩ := hplaced.later.opened hf ho
    obtain ⟨bytes', hb'⟩ := hplaced.files.onDisk ⟨f', hf', ho'⟩
    rcases hadv.files hb with hnone | ⟨more, hmore, -⟩
    · rw [hnone] at hb'
      cases hb'
    · rw [Disk.bytes, hb, Disk.bytes, show (y.moveTo w').world.disk.logs.get? q = some (bytes ++ more) from hmore]
      exact List.prefix_append _ _

theorem stepOpen_moves {e : Event} (h : y.Settled) (hcon : (BackupEvent.life e).Concurrent)
    (hok : PlacingOk cfg y e) (hstep : y.stepOpen cfg e = some y') : Moves y y' := by
  cases e with
  | beginWrite batch =>
    simp only [stepOpen] at hstep
    split_ifs at hstep with hbusy
    obtain rfl := Option.some.inj hstep
    exact beginWrite_moves h (Bool.eq_false_iff.mpr hbusy) batch
  | writer io =>
    simp only [stepOpen, stepWriter, Option.map_eq_some_iff, Option.bind_eq_some_iff] at hstep
    obtain ⟨w', ⟨wr, hwr, hw'⟩, rfl⟩ := hstep
    exact writer_moves h hwr (hok wr hwr) hw'
  | commitFinished position seq =>
    obtain rfl := Option.some.inj hstep
    refine h.quiet rfl rfl rfl rfl rfl rfl (fun p hp => (SortedVec.mem_erase.mp hp).2)
      (fun wr hwr hb hin => SortedVec.mem_erase.mpr ⟨(hok wr hwr hb).symm, hin⟩) (fun sp hsp => ?_) h.flushes h.flushed
    rcases List.mem_or_eq_of_mem_set hsp with hold | rfl
    · exact h.samples sp hold
    · exact fullyCommitted_placed h hok
  | commitAborted position =>
    obtain rfl := Option.some.inj hstep
    exact h.quiet rfl rfl rfl rfl rfl rfl (fun p hp => (SortedVec.mem_erase.mp hp).2)
      (fun wr hwr hb hin => SortedVec.mem_erase.mpr ⟨(hok wr hwr hb).symm, hin⟩) h.samples h.flushes h.flushed
  | flushScan seq =>
    obtain rfl := Option.some.inj hstep
    refine h.quiet rfl rfl rfl rfl rfl rfl (fun p hp => hp) (fun _ _ _ hin => hin) h.samples (fun p hp => ?_) h.flushed
    rcases List.mem_cons.mp hp with rfl | hp
    · rcases latestSequencePosition_spec y.world.store seq with hz | ⟨sp, hsp, -, hpos⟩
      · rw [hz]
        exact zero_placed h.files.zero
      · rw [← hpos]
        exact h.samples sp hsp
    · exact h.flushes p hp
  | flushWrite k =>
    simp only [stepOpen, Option.map_eq_some_iff] at hstep
    obtain ⟨position, hk, rfl⟩ := hstep
    have htxn := writeFlushedPosition_txnState y.world.store y.world.disk position
    have hflushed : ∀ p ∈ (y.world.store.writeFlushedPosition y.world.disk position).2.txnState,
        Placed y.world.store p := by
      intro p hp
      rcases htxn with ht | ht
      · exact h.flushed p (by rw [← ht]; exact hp)
      · obtain rfl := Option.some.inj (ht.symm.trans hp)
        exact h.flushes position (List.mem_of_getElem? hk)
    obtain ⟨stream, written, state, hr⟩ := writeFlushedPosition_cases y.world.store y.world.disk position
    rw [hr] at hflushed ⊢
    exact h.quiet rfl rfl rfl rfl rfl rfl (fun p hp => hp) (fun _ _ _ hin => hin) h.samples
      (fun p hp => h.flushes p (List.mem_of_mem_eraseIdx hp)) hflushed
  | create | getLastCommittedPosition | getLogFileSize _ _ | findPosition _ _ | purge _ _ _ | close _ | crash
  | load _ _ => cases hcon

theorem stepOpen_stays {e : Event} (hopen : y.isOpen = true) (hcon : (BackupEvent.life e).Concurrent)
    (hstep : y.stepOpen cfg e = some y') :
    y'.isOpen = true := by
  cases e with
  | beginWrite batch =>
    simp only [stepOpen] at hstep
    split_ifs at hstep
    obtain rfl := Option.some.inj hstep
    exact hopen
  | writer io | flushWrite k =>
    simp only [stepOpen, Option.map_eq_some_iff] at hstep
    obtain ⟨_, -, rfl⟩ := hstep
    exact hopen
  | commitFinished position seq | commitAborted position | flushScan seq =>
    obtain rfl := Option.some.inj hstep
    exact hopen
  | create | getLastCommittedPosition | getLogFileSize _ _ | findPosition _ _ | purge _ _ _ | close _ | crash
  | load _ _ => cases hcon

theorem samples_zero {s : TransactionLogStore} (h : Below s 0)
    (hsamples : s.recentlyCommittedSequencePositions =
      List.replicate RECENTLY_COMMITTED_POSITIONS_SIZE ⟨NO_SEQUENCE, ⟨0, 0⟩⟩) :
    ∀ sp ∈ s.recentlyCommittedSequencePositions, Placed s sp.position := by
  intro sp hsp
  rw [hsamples] at hsp
  rw [List.eq_of_mem_replicate hsp]
  exact zero_placed h

/-- A store that has just been made or loaded. -/
theorem stepClosed_settled {e : Event} (hclosed : y.isOpen = false) (hflushes : y.flushes = [])
    (hok : PlacingOk cfg y e) (hstep : y.stepClosed cfg e = some y') (hopen' : y'.isOpen = true) :
    y'.Settled := by
  have hsession := stepClosed_session hclosed hopen' hstep
  cases e with
  | create =>
    simp only [stepClosed] at hstep
    split_ifs at hstep
    obtain rfl := Option.some.inj hstep
    have hzero : Below {} 0 := ⟨Nat.one_pos, fun e he => (by cases he)⟩
    refine ⟨fun _ _ hf => (by cases hf), hsession, ⟨fun hf => (by cases hf), fun hq => (by cases hq),
      show (1 : ℕ) < 2 by decide, hzero⟩,
      fun p hp => (by cases hp),
      samples_zero hzero rfl, fun p hp => ?_, hok, Or.inl ⟨rfl, zero_placed hzero⟩⟩
    rw [show y.flushes = [] from hflushes] at hp
    cases hp
  | load order io =>
    have hsizes := (stepClosed_rightSizes hclosed hok.1 hstep hopen').1
    simp only [stepClosed] at hstep
    split_ifs at hstep
    have hload := hok.2
    split at hstep
    · rename_i s d heq
      obtain rfl := Option.some.inj hstep
      rw [heq] at hload
      obtain ⟨hfiles, hflushed⟩ := hload s rfl
      obtain ⟨hzero, hnext⟩ := load_placed heq
      have hloaded := load_loaded (fun seq hseq => (hok.1 seq hseq).1.2) heq
      refine ⟨hsizes, hsession, ⟨fun {q f} hf ho => ?_, fun {q} hq => ?_, hloaded.current_lt, hzero⟩, fun p hp => ?_,
        samples_zero hzero hloaded.samples, fun p hp => ?_, hflushed, Or.inl ⟨rfl, hnext⟩⟩
      · exact (hfiles (q, f) (SeqMap.get?_eq_some_iff.mp hf)).2 ho
      · obtain ⟨f, hf⟩ := Option.isSome_iff_exists.mp hq
        exact (hfiles (q, f) (SeqMap.get?_eq_some_iff.mp hf)).1
      · rw [(hloaded.positions p).mp hp]
        exact hnext
      · rw [show (y.moveTo { store := s, disk := d }).flushes = y.flushes from rfl, hflushes] at hp
        cases hp
    · obtain rfl := Option.some.inj hstep
      exact absurd (hclosed.symm.trans hopen') Bool.false_ne_true
  | _ => cases hstep

end

end Life

namespace Backups

variable {y y' : Backups}

/-- The captured files end at entry boundaries, and the captured position is within them. -/
def Consistent (y : Backups) (c : SnapshotCall) : Prop :=
  (∀ e ∈ c.entries, EntryBoundary (y.disk.bytes e.seq) e.byteLimit) ∧ ∀ p ∈ c.stateEntry, WithinLogs c.entries p

instance (y : Backups) (c : SnapshotCall) : Decidable (Consistent y c) :=
  inferInstanceAs (Decidable ((∀ e ∈ _, _) ∧ ∀ p ∈ _, _))

/-- What a step has to meet. -/
def ConsistentOk (y : Backups) : BackupEvent → Prop
  | .life e => y.life.PlacingOk y.cfg e
  | .snapshot _ io => io.statted = true
  | _ => True

instance (y : Backups) : ∀ e, Decidable (ConsistentOk y e)
  | .life e => inferInstanceAs (Decidable (y.life.PlacingOk y.cfg e))
  | .snapshot _ io => inferInstanceAs (Decidable (io.statted = true))
  | .options _ | .beginSnapshot => isTrue trivial

/-- A snapshot that is under way. -/
structure CallPlaced (y : Backups) (c : SnapshotCall) : Prop where
  boundary : ∀ e ∈ c.entries, EntryBoundary (y.disk.bytes e.seq) e.byteLimit ∧ y.store.Opens e.seq
  placed : ∀ p ∈ c.stateEntry, Placed y.store p
  captured : ∀ p ∈ c.stateEntry, InFile y.store p →
    c.Awaits p.logSequenceNumber ∨ ∃ e ∈ c.entries, e.seq = p.logSequenceNumber ∧ p.positionInLogFile ≤ e.byteLimit

structure SnapshotsPlaced (y : Backups) : Prop where
  isOpen : y.life.isOpen = true
  settled : y.life.Settled
  calls : ∀ c ∈ y.calls, CallPlaced y c

theorem CallPlaced.consistent {c : SnapshotCall} (h : CallPlaced y c) (hret : c.pc = .returned) : Consistent y c := by
  refine ⟨fun e he => (h.boundary e he).1, fun p hp => ?_⟩
  rcases h.placed p hp with hin | hbelow
  · rcases h.captured p hp hin with hawait | hdone
    · rw [SnapshotCall.Awaits, hret] at hawait
      cases hawait
    · exact Or.inl hdone
  · exact Or.inr (Or.inl fun e he => hbelow.opens (h.boundary e he).2)

/-- A position that is in the log and comes to be in an open file was in it before. -/
theorem inFile_of_later {s s' : TransactionLogStore} {p : LogPosition} (h : Later s s') (hp : Placed s p)
    (hin : InFile s' p) : InFile s p := by
  rcases hp with hold | hbelow
  · exact hold
  · obtain ⟨f, hf, ho, -⟩ := hin
    exact absurd ((hbelow.later h).opens ⟨f, hf, ho⟩) (lt_irrefl _)

theorem CallPlaced.moves {c : SnapshotCall} {l : Life} (h : CallPlaced y c) (hmoves : y.life.Moves l)
    {calls : List SnapshotCall} {links found : List (ℕ × Bytes)} :
    CallPlaced { y with life := l, calls := calls, links := links } { c with found := found } := by
  refine ⟨fun e he => ?_, fun p hp => (h.placed p hp).later hmoves.later,
    fun p hp hin => h.captured p hp (inFile_of_later hmoves.later (h.placed p hp) hin)⟩
  obtain ⟨hend, hopens⟩ := h.boundary e he
  obtain ⟨more, hmore⟩ := hmoves.grown e.seq hopens
  obtain ⟨f, hf, ho⟩ := hopens
  obtain ⟨f', hf', ho', -⟩ := hmoves.later.opened hf ho
  refine ⟨?_, f', hf', ho'⟩
  change EntryBoundary (l.world.disk.bytes e.seq) e.byteLimit
  rw [← hmore]
  exact hend.append more

/-- What is captured of a file is what its object says, which is right. -/
theorem backupEntry_boundary {current seq : ℕ} {statted : Bool} {e : TransactionLogBackupEntry} (h : y.life.Settled)
    (he : y.store.backupEntry y.disk current seq statted = some e) :
    EntryBoundary (y.disk.bytes e.seq) e.byteLimit ∧ y.store.Opens e.seq := by
  simp only [backupEntry] at he
  cases hf : y.store.sequenceFiles.get? seq with
  | none =>
    rw [hf] at he
    cases he
  | some f =>
    rw [hf] at he
    dsimp only at he
    by_cases hsize : f.size = 0
    · rw [if_pos hsize] at he
      cases he
    rw [if_neg hsize] at he
    split_ifs at he
    obtain rfl := Option.some.inj he
    have hopen : f.isOpen = true := by
      rw [← Bool.not_eq_false]
      exact fun hclosed => hsize ((h.sizes hf).closed hclosed)
    have hexact : f.size = (y.disk.bytes seq).length := (h.sizes hf).opened hopen
    refine ⟨⟨hexact.le, ?_⟩, f, hf, hopen⟩
    rw [hexact, List.take_length]
    exact h.files.framed hf hopen

theorem backupEntry_inFile (current : ℕ) {p : LogPosition} (h : y.life.Settled) (hin : InFile y.store p) :
    ∃ e, y.store.backupEntry y.disk current p.logSequenceNumber true = some e ∧ e.seq = p.logSequenceNumber ∧
      p.positionInLogFile ≤ e.byteLimit := by
  obtain ⟨f, hf, hopen, hle⟩ := hin
  obtain ⟨bytes, hb⟩ := h.files.onDisk ⟨f, hf, hopen⟩
  have hexact : f.size = (y.disk.bytes p.logSequenceNumber).length := (h.sizes hf).opened hopen
  have hpos : f.size ≠ 0 := by
    rw [hexact]
    exact (h.files.framed hf hopen).pos.ne'
  have hthere : ¬ (true = false ∨ (y.disk.logs.get? p.logSequenceNumber).isNone = true) := by
    rw [show y.disk.logs.get? p.logSequenceNumber = some bytes from hb]
    exact fun h => h.elim (fun h => nomatch h) Bool.false_ne_true
  refine ⟨⟨p.logSequenceNumber, f.size, decide (p.logSequenceNumber ≠ current)⟩, ?_, rfl, hle⟩
  unfold backupEntry
  rw [show y.store.sequenceFiles.get? p.logSequenceNumber = some f from hf]
  dsimp only
  rw [if_neg hpos, if_neg hthere]

theorem CallPlaced.snapshot {c c' : SnapshotCall} {io : SnapshotCalls} (h : CallPlaced y c)
    (hs : y.life.Settled) (hok : io.statted = true) (hstep : c.step y.store y.disk io = some c')
    {calls : List SnapshotCall} {links : List (ℕ × Bytes)} :
    CallPlaced { y with calls := calls, links := links } c' := by
  obtain ⟨pc, stateEntry, current, entries, found⟩ := c
  cases pc with
  | readState =>
    obtain rfl := Option.some.inj hstep
    have hplaced : ∀ p ∈ (if io.stateReadable then y.disk.txnState else none), Placed y.store p := by
      intro p hp
      split_ifs at hp
      · exact hs.flushed p hp
      · cases hp
    exact ⟨h.boundary, hplaced, fun p hp hin => Or.inl trivial⟩
  | listFiles =>
    obtain rfl := Option.some.inj hstep
    refine ⟨h.boundary, h.placed, fun p hp hin => Or.inl ?_⟩
    obtain ⟨f, hf, -⟩ := hin
    exact SeqMap.mem_keys_iff.mpr ⟨f, hf⟩
  | sizes rest =>
    cases rest with
    | nil =>
      obtain rfl := Option.some.inj hstep
      refine ⟨h.boundary, h.placed, fun p hp hin => ?_⟩
      rcases h.captured p hp hin with hawait | hdone
      · cases hawait
      · exact Or.inr hdone
    | cons seq rest =>
      obtain rfl := Option.some.inj hstep
      refine ⟨fun e he => ?_, h.placed, fun p hp hin => ?_⟩
      · rcases List.mem_append.mp he with he | he
        · exact h.boundary e he
        · exact backupEntry_boundary hs (Option.mem_toList.mp he)
      · rcases h.captured p hp hin with hawait | ⟨e, he, hdone⟩
        · rcases List.mem_cons.mp hawait with hseq | hrest
          · obtain ⟨e, he, hdone⟩ := backupEntry_inFile current hs hin
            rw [← hseq, hok]
            exact Or.inr ⟨e, List.mem_append_right _ (Option.mem_toList.mpr he), hdone⟩
          · exact Or.inl hrest
        · exact Or.inr ⟨e, List.mem_append_left _ he, hdone⟩
  | returned => cases hstep

theorem step_snapshotsPlaced {e : BackupEvent} (h : SnapshotsPlaced y) (hcon : e.Concurrent)
    (hok : ConsistentOk y e) (hstep : y.step e = some y') :
    SnapshotsPlaced y' := by
  cases e with
  | life e =>
    simp only [step, Option.map_eq_some_iff] at hstep
    obtain ⟨l, hlife, rfl⟩ := hstep
    unfold Life.step at hlife
    rw [h.isOpen, if_pos rfl] at hlife
    have hmoves := Life.stepOpen_moves h.settled hcon hok hlife
    refine ⟨Life.stepOpen_stays h.isOpen hcon hlife, hmoves.settled, fun c hc => ?_⟩
    simp only at hc
    split_ifs at hc
    · obtain ⟨c0, hc0, rfl⟩ := List.mem_map.mp hc
      exact (h.calls c0 hc0).moves hmoves
    · cases hc
  | options cfg => cases hcon
  | beginSnapshot =>
    simp only [step] at hstep
    split_ifs at hstep
    obtain rfl := Option.some.inj hstep
    refine ⟨h.isOpen, h.settled, fun c hc => ?_⟩
    rcases List.mem_append.mp hc with hc | hc
    · exact ⟨(h.calls c hc).boundary, (h.calls c hc).placed, (h.calls c hc).captured⟩
    · obtain rfl := List.mem_singleton.mp hc
      exact ⟨fun e he => (nomatch he), fun p hp => (nomatch hp), fun p hp => (nomatch hp)⟩
  | snapshot i io =>
    simp only [step] at hstep
    split_ifs at hstep
    simp only [Option.bind_eq_some_iff, Option.map_eq_some_iff] at hstep
    obtain ⟨c, hc, c', hc', rfl⟩ := hstep
    refine ⟨h.isOpen, h.settled, fun c2 hc2 => ?_⟩
    rcases List.mem_or_eq_of_mem_set hc2 with hmem | rfl
    · exact ⟨(h.calls c2 hmem).boundary, (h.calls c2 hmem).placed, (h.calls c2 hmem).captured⟩
    · exact (h.calls c (List.mem_of_getElem? hc)).snapshot h.settled hok hc'

theorem run_snapshotsPlaced {es : List BackupEvent} (h : SnapshotsPlaced y) (hcon : ∀ e ∈ es, e.Concurrent)
    (hrun : Runs.exec step y es = some y') (hall : Runs.Along step ConsistentOk y es) : SnapshotsPlaced y' := by
  induction es generalizing y with
  | nil =>
    obtain rfl : y = y' := Option.some.inj hrun
    exact h
  | cons e es ih =>
    obtain ⟨u, hu, hrest⟩ := Runs.exec_cons.mp hrun
    exact ih (step_snapshotsPlaced h (hcon e List.mem_cons_self) hall.1 hu) (fun e' he' =>
      hcon e' (List.mem_cons_of_mem _ he')) hrest (hall.2 u hu)

/-- Where no store is open nothing of the kind happens. -/
theorem step_closed_concurrent {e : BackupEvent} (hclosed : y.life.isOpen = false) (hcon : e.Concurrent) :
    y.step e = none := by
  cases e with
  | life e =>
    simp only [step, Life.step, hclosed, Bool.false_eq_true, if_false, Option.map_eq_none_iff]
    cases e with
    | beginWrite _ | writer _ | commitFinished _ _ | commitAborted _ | flushScan _ | flushWrite _ => rfl
    | create | getLastCommittedPosition | getLogFileSize _ _ | findPosition _ _ | purge _ _ _ | close _ | crash
    | load _ _ => cases hcon
  | options cfg => cases hcon
  | beginSnapshot => exact if_neg (by rw [hclosed]; exact Bool.false_ne_true)
  | snapshot i io => exact if_neg (by rw [hclosed]; exact Bool.false_ne_true)

/-- Over every session of a store, on any directory: however batches, rotations, commits and
flushes fall between the steps of a snapshot, it captures logs that end at entry boundaries and a
flushed position that is within them. -/
theorem flushed_position_within_logs {y0 : Backups} {opening : Event} {es : List BackupEvent}
    {c : SnapshotCall} (h0 : y0.life.isOpen = false) (hflushes : y0.life.flushes = [])
    (hcon : ∀ e ∈ es, e.Concurrent) (hrun : Runs.exec step y0 (.life opening :: es) = some y)
    (hall : Runs.Along step ConsistentOk y0 (.life opening :: es)) (hc : c ∈ y.calls)
    (hret : c.pc = .returned) : Consistent y c := by
  obtain ⟨u, hu, hrest⟩ := Runs.exec_cons.mp hrun
  have hnext := hall.2 u hu
  simp only [step, Option.map_eq_some_iff] at hu
  obtain ⟨l, hlife, rfl⟩ := hu
  have hnocalls : ¬ (y0.life.isOpen = true ∧ l.isOpen = true) := fun hb => Bool.false_ne_true (h0.symm.trans hb.1)
  unfold Life.step at hlife
  rw [h0, if_neg Bool.false_ne_true] at hlife
  cases hopen : l.isOpen with
  | true =>
    have hsettled := Life.stepClosed_settled h0 hflushes hall.1 hlife hopen
    refine ((run_snapshotsPlaced ⟨hopen, hsettled, fun c hc => ?_⟩ hcon hrest hnext).calls c hc).consistent hret
    rw [if_neg hnocalls] at hc
    cases hc
  | false =>
    -- the load has failed, and the run is over
    cases es with
    | nil =>
      obtain rfl := Option.some.inj hrest
      rw [if_neg hnocalls] at hc
      cases hc
    | cons e es =>
      obtain ⟨u, hu, -⟩ := Runs.exec_cons.mp hrest
      rw [step_closed_concurrent hopen (hcon e List.mem_cons_self)] at hu
      cases hu

/-- A batch is committed and flushed. -/
def flushedFirst : List BackupEvent :=
  smallBatch ++ [.life (.commitFinished ⟨0, 1⟩ 1), .life (.flushScan 1), .life (.flushWrite 0)]

/-- Between the first two steps of a snapshot the next batch rotates to a second file. -/
def rotatesMeanwhile : List BackupEvent :=
  flushedFirst ++ [.beginSnapshot, .snapshot 0 {}] ++ smallBatch ++
    List.replicate 7 (.life (.writer { results := [.count 14] })) ++
    List.replicate 4 (.snapshot 0 {})

theorem flushed_position_within_logs_rotated :
    ∃ y c, Runs.exec step { cfg := ⟨40, 0, none⟩ } (.life .create :: rotatesMeanwhile) = some y ∧ y.calls[0]? = some c ∧
      (c.pc = .returned ∧ c.stateEntry = some ⟨27, 1⟩ ∧ c.entries.map TransactionLogBackupEntry.seq = [1, 2]) ∧
        Consistent y c := by
  have hrun := Runs.exec_final step { cfg := ⟨40, 0, none⟩ } (.life .create :: rotatesMeanwhile) (by decide +kernel)
  obtain ⟨c, hc⟩ := Option.isSome_iff_exists.mp
    (show (Runs.final step { cfg := ⟨40, 0, none⟩ } (.life .create :: rotatesMeanwhile)).calls[0]?.isSome by
      decide +kernel)
  have hcall : ∀ c ∈ (Runs.final step { cfg := ⟨40, 0, none⟩ } (.life .create :: rotatesMeanwhile)).calls[0]?,
      c.pc = .returned ∧ c.stateEntry = some ⟨27, 1⟩ ∧ c.entries.map TransactionLogBackupEntry.seq = [1, 2] := by
        decide +kernel
  exact ⟨_, c, hrun, hc, hcall c hc,
    flushed_position_within_logs rfl rfl (by decide +kernel) hrun (by decide +kernel)
      (List.mem_of_getElem? hc) (hcall c hc).1⟩

/-- The batch fills its file, and the position that its commit publishes is as far into the next one. -/
theorem flushed_position_past_logs :
    ∃ y, Runs.exec step { cfg := ⟨27, 0, none⟩ } (.life .create :: flushedFirst ++ .beginSnapshot ::
      List.replicate 4 (.snapshot 0 {})) = some y ∧
      ∃ c ∈ y.calls, c.pc = .returned ∧ ¬ Consistent y c := by
  refine ⟨_, Runs.exec_final step _ _ ?_, ?_⟩
  all_goals decide +kernel

end Backups

end RocksdbJs
