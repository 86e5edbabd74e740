import RocksdbJs.Sanity.Stamped

/-! The timestamp lookup. The position it returns has no entry from the given timestamp on
before it, along every run in which a new file's header is at or above all that is logged and
the lookup finds every file registered and open. `latestTimestamp` is not kept across a load,
and the files a load registers are not opened by the lookup. -/

namespace RocksdbJs

open TransactionLogStore

/-- Every log entry from timestamp `t` on lies at or after `position`. -/
def NeverSkips (d : Disk) (t : Binary64) (position : LogPosition) : Prop :=
  ∀ e ∈ d.logs.entries, ∀ x ∈ located TRANSACTION_LOG_FILE_HEADER_SIZE (fileRecords e.2),
    Binary64.ge x.2.timestamp t = true → position ≤ ⟨x.1, e.1⟩

instance (d : Disk) (t : Binary64) (position : LogPosition) : Decidable (NeverSkips d t position) :=
  inferInstanceAs (Decidable (∀ e ∈ _, _))

instance (s : TransactionLogStore) (d : Disk) (seq : ℕ) (io : OpenCalls) : Decidable (OpensStamped s d seq io) :=
  decidable_of_iff (io.Succeeds ∧ (d.bytes seq).length < UINT32_RANGE ∧
      (d.logs.get? seq = none → s.latestTimestamp.IsPos ∧ ∀ r ∈ d.content, r.timestamp.key ≤ s.latestTimestamp.key))
    ⟨fun ⟨h1, h2, h3⟩ => ⟨h1, h2, h3⟩, fun ⟨h1, h2, h3⟩ => ⟨h1, h2, h3⟩⟩

instance (cfg : StoreConfig) (s : TransactionLogStore) (d : Disk) (io : ReadCalls) : Decidable (FindOk cfg s d io) :=
  decidable_of_iff ((∀ q ∈ d.logs.keys, ∀ p < s.currentSequenceNumber, q ≤ p → (s.sequenceFiles.get? p).isSome) ∧
      (∀ e ∈ s.sequenceFiles.entries, e.2.isOpen = true ∧ io.mmapOk e.1 = true) ∧
      ∀ f ∈ s.sequenceFiles.get? s.currentSequenceNumber, f.size ≤ cfg.maxFileSize)
    ⟨fun ⟨h1, h2, h3⟩ => ⟨h1, h2, h3⟩, fun ⟨h1, h2, h3⟩ => ⟨h1, h2, h3⟩⟩

instance (cfg : StoreConfig) (w : World) (wr : Writer) (io : WriterCalls) : Decidable (io.Stamped cfg w wr) :=
  match wr with
  | ⟨.tryOpen seq, _, _⟩ => inferInstanceAs (Decidable (OpensStamped w.store w.disk seq io.openCalls))
  | ⟨.write seq, batch, _⟩ => inferInstanceAs (Decidable (∀ f ∈ w.store.sequenceFiles.get? seq,
      failsEarly io.results (toWrite f batch cfg.maxFileSize) = false ∧
        f.size + (toWrite f batch cfg.maxFileSize).flatten.length < UINT32_RANGE))
  | ⟨.getFile, _, _⟩ => isTrue trivial
  | ⟨.rotateInner, _, _⟩ => isTrue trivial
  | ⟨.fixPosition _, _, _⟩ => isTrue trivial
  | ⟨.checkAge _, _, _⟩ => isTrue trivial
  | ⟨.advance _ _, _, _⟩ => isTrue trivial
  | ⟨.setNext _, _, _⟩ => isTrue trivial
  | ⟨.finish, _, _⟩ => isTrue trivial
  | ⟨.returned, _, _⟩ => isTrue trivial
  | ⟨.threw _, _, _⟩ => isTrue trivial

instance (cfg : StoreConfig) (io : FilesCalls) (d : Disk) (order : List ℕ) : Decidable (LoadsStamped cfg io d order) :=
  inferInstanceAs (Decidable (∀ q ∈ order, _ ∧ _ ∧ _ ∧ _))

namespace Life

/-- What a step has to meet. Batches have positive timestamps; the system calls of opens and
appends succeed and no file reaches 4 GiB; a file is made with a header at or above all that is
logged; a lookup sees all files; a load registers every file it does not remove. -/
def LookupOk (cfg : StoreConfig) (y : Life) : Event → Prop
  | .create => y.world.disk.logs.keys = []
  | .beginWrite batch => batch.timestamp.IsPos
  | .writer io => ∀ wr ∈ y.world.writer, io.Stamped cfg y.world wr
  | .getLogFileSize seq io => (y.world.store.sequenceFiles.get? seq).isSome →
      OpensStamped y.world.store y.world.disk seq (io.openCalls seq) ∧
        ((y.world.disk.logs.get? seq).isSome ∨ seq = y.world.store.currentSequenceNumber)
  | .findPosition _ io => FindOk cfg y.world.store y.world.disk io
  | .load order io => LoadsStamped cfg io y.world.disk order
  | _ => True

instance (cfg : StoreConfig) (y : Life) : ∀ e : Event, Decidable (LookupOk cfg y e)
  | .create => inferInstanceAs (Decidable (y.world.disk.logs.keys = []))
  | .beginWrite batch => inferInstanceAs (Decidable batch.timestamp.IsPos)
  | .writer io => inferInstanceAs (Decidable (∀ wr ∈ y.world.writer, io.Stamped cfg y.world wr))
  | .getLogFileSize seq io => inferInstanceAs (Decidable ((y.world.store.sequenceFiles.get? seq).isSome →
      OpensStamped y.world.store y.world.disk seq (io.openCalls seq) ∧
        ((y.world.disk.logs.get? seq).isSome ∨ seq = y.world.store.currentSequenceNumber)))
  | .findPosition _ io => inferInstanceAs (Decidable (FindOk cfg y.world.store y.world.disk io))
  | .load order io => inferInstanceAs (Decidable (LoadsStamped cfg io y.world.disk order))
  | .commitFinished _ _ => isTrue trivial
  | .commitAborted _ => isTrue trivial
  | .flushScan _ => isTrue trivial
  | .flushWrite _ => isTrue trivial
  | .getLastCommittedPosition => isTrue trivial
  | .purge _ _ _ => isTrue trivial
  | .close _ => isTrue trivial
  | .crash => isTrue trivial

/-- The invariant: the timestamps of the log are in order, and an open store is right about
its files. -/
structure Stamped (y : Life) : Prop where
  disk : DiskStamped y.world.disk
  opened : y.isOpen = true → StoreStamped y.world.store y.world.disk ∧ ∀ wr ∈ y.world.writer, WriterStamped y.world wr

section
variable {cfg : StoreConfig} {y y' : Life}

theorem Stamped.logs (hi : y.Stamped) {d : Disk} (hlogs : d.logs = y.world.disk.logs) : DiskStamped d :=
  hi.disk.mono fun hb => by rw [← hlogs]; exact hb

/-- A step of the store that leaves the files alone. -/
theorem Stamped.store (hi : y.Stamped) (hopen : y.isOpen = true) {s : TransactionLogStore} {d : Disk}
    (hfiles : s.sequenceFiles = y.world.store.sequenceFiles)
    (hcur : s.currentSequenceNumber = y.world.store.currentSequenceNumber)
    (hnext : s.nextSequenceNumber = y.world.store.nextSequenceNumber) (hlogs : d.logs = y.world.disk.logs) :
    StoreStamped s d ∧ ∀ wr ∈ y.world.writer, WriterStamped { y.world with store := s, disk := d } wr := by
  obtain ⟨hs, hw⟩ := hi.opened hopen
  have hn := hs.numbered.congr hfiles hcur hnext hlogs
  rw [← hlogs] at hn
  refine ⟨hs.congr hn hfiles hlogs, fun wr hwr => ⟨(hw wr hwr).atCurrent.mono hcur fun q hq => ?_,
    (hw wr hwr).fileOpen.mono ?_,
    (hw wr hwr).pos⟩⟩
  · simp only [hlogs]
    exact hq
  · intro q f hf
    exact ⟨f, by rw [← hfiles]; exact hf, id⟩

theorem stepOpen_stamped {e : Event} (hi : y.Stamped) (hopen : y.isOpen = true) (hok : LookupOk cfg y e)
    (h : y.stepOpen cfg e = some y') : y'.Stamped := by
  obtain ⟨hs, hw⟩ := hi.opened hopen
  cases e with
  | create => cases h
  | beginWrite batch =>
    simp only [stepOpen] at h
    split_ifs at h with hbusy
    obtain rfl := Option.some.inj h
    have hpos : batch.timestamp.IsPos := hok
    simp only [RocksdbJs.beginWrite]
    split
    · refine ⟨hi.disk, fun _ => ⟨hs, fun wr hwr => ?_⟩⟩
      obtain rfl := Option.some.inj hwr
      exact ⟨trivial, trivial, hpos⟩
    · refine ⟨hi.disk, fun _ => ⟨hs.congr (hs.numbered.congr rfl rfl rfl rfl) rfl rfl, fun wr hwr => ?_⟩⟩
      obtain rfl := Option.some.inj hwr
      refine ⟨outerLoop_atCurrent _ _ _ _, ?_, hpos⟩
      unfold outerLoop Writer.FileOpen
      cases batch.isComplete <;> exact trivial
  | writer io =>
    simp only [stepOpen, stepWriter, Option.map_eq_some_iff, Option.bind_eq_some_iff] at h
    obtain ⟨w', ⟨wr, hwr, hstep⟩, rfl⟩ := h
    obtain ⟨hs', hw'⟩ := writerStep_stamped hs (hw wr hwr) (hok wr hwr) hstep
    exact ⟨hs'.disk, fun _ => ⟨hs', hw'⟩⟩
  | commitFinished position seq =>
    obtain rfl := Option.some.inj h
    exact ⟨hi.disk, fun _ => hi.store hopen rfl rfl rfl rfl⟩
  | commitAborted position =>
    obtain rfl := Option.some.inj h
    exact ⟨hi.disk, fun _ => hi.store hopen rfl rfl rfl rfl⟩
  | flushScan seq =>
    obtain rfl := Option.some.inj h
    exact ⟨hi.disk, hi.opened⟩
  | flushWrite k =>
    simp only [stepOpen, Option.map_eq_some_iff] at h
    obtain ⟨position, -, rfl⟩ := h
    obtain ⟨stream, written, state, hr⟩ := writeFlushedPosition_cases y.world.store y.world.disk position
    rw [hr]
    exact ⟨hi.logs rfl, fun _ => hi.store hopen rfl rfl rfl rfl⟩
  | getLastCommittedPosition =>
    obtain rfl := Option.some.inj h
    obtain ⟨position, hposition⟩ := getLastCommittedPosition_store y.world.store y.world.disk
    rw [hposition]
    exact ⟨hi.disk, fun _ => hi.store hopen rfl rfl rfl rfl⟩
  | getLogFileSize seq io =>
    obtain rfl := Option.some.inj h
    rcases getLogFileSize_spec y.world.store y.world.disk seq io with heq | ⟨f, hf, heq⟩
    · rw [heq]
      exact ⟨hi.disk, fun _ => hi.store hopen rfl rfl rfl rfl⟩
    · rw [heq]
      obtain ⟨hopens, hseq⟩ := hok (by rw [hf]; rfl)
      have hs' := (ensureOpen_stamped hs hf hopens hseq).2
      have hop := ensureOpen_grows y.world.disk (io.openCalls seq) hf (hs.numbered.opened hf)
      obtain ⟨files, hstore⟩ := hop.store
      refine ⟨hs'.disk, fun _ => ⟨hs', fun wr hwr => ⟨?_, ?_, (hw wr hwr).pos⟩⟩⟩
      · exact (hw wr hwr).atCurrent.mono ((congrArg currentSequenceNumber hstore).trans rfl) fun q => hop.grows.isSome
      · exact (hw wr hwr).fileOpen.mono fun q g => ensureOpen_files y.world.disk (io.openCalls seq) hf
  | findPosition timestamp io =>
    obtain rfl := Option.some.inj h
    obtain ⟨position, s', hr, hs', -⟩ := findPosition_spec (t := timestamp) hs hok
    obtain ⟨files, hstore, -⟩ := findPosition_store cfg y.world.store y.world.disk timestamp io
    refine ⟨hi.disk, fun _ => ⟨?_, fun wr hwr => ⟨?_, ?_, (hw wr hwr).pos⟩⟩⟩
    · change StoreStamped (findPositionByTimestamp cfg y.world.store y.world.disk timestamp io).2 y.world.disk
      rw [hr]
      exact hs'
    · exact (hw wr hwr).atCurrent.mono ((congrArg currentSequenceNumber hstore).trans rfl) fun q hq => hq
    · refine (hw wr hwr).fileOpen.mono fun q f' hf' => ?_
      obtain ⟨f, hf, ho⟩ := findPosition_files hf'
      exact ⟨f, hf, fun h1 => ho.trans h1⟩
  | purge all before io =>
    simp only [stepOpen] at h
    split_ifs at h with hbusy
    obtain rfl := Option.some.inj h
    have hidle : y.world.busy = false := Bool.eq_false_iff.mpr hbusy
    have hs' := doPurge_stamped cfg hs all before io
    refine ⟨hs'.disk, fun _ => ⟨hs', fun wr hwr => ⟨?_, ?_, (hw wr hwr).pos⟩⟩⟩
    · exact not_busy_atCurrent hidle _ _ wr hwr
    · exact not_busy_fileOpen hidle _ wr hwr
  | close io =>
    simp only [stepOpen] at h
    split_ifs at h
    obtain rfl := Option.some.inj h
    exact ⟨hi.logs (congrArg Disk.logs (doClose_disk _ _ _ _).1), fun ho => absurd ho Bool.false_ne_true⟩
  | crash =>
    obtain rfl := Option.some.inj h
    exact ⟨hi.disk, fun ho => absurd ho Bool.false_ne_true⟩
  | load order io => cases h

theorem stepClosed_stamped {e : Event} (hi : y.Stamped) (hok : LookupOk cfg y e) (h : y.stepClosed cfg e = some y') :
    y'.Stamped := by
  cases e with
  | create =>
    simp only [stepClosed] at h
    split_ifs at h
    obtain rfl := Option.some.inj h
    have hkeys : y.world.disk.logs.keys = [] := hok
    refine ⟨hi.disk, fun _ => ⟨⟨⟨fun u hu => ?_, Nat.lt_succ_self 1, fun hsome => ?_, fun hf => (by cases hf)⟩, hi.disk,
      fun hf => (by cases hf)⟩, fun wr hwr => (by cases hwr)⟩⟩
    · change u ∈ y.world.disk.logs.keys at hu
      rw [hkeys] at hu
      cases hu
    · have hmem := allUsed_keys y.world.disk _ hsome
      rw [hkeys] at hmem
      cases hmem
  | load order io =>
    simp only [stepClosed] at h
    split_ifs at h with hdir
    obtain ⟨s, d', hload, hs⟩ := load_stamped hi.disk hok hdir.2
    rw [hload] at h
    obtain rfl := Option.some.inj h
    exact ⟨hs.disk, fun _ => ⟨hs, fun wr hwr => (by cases hwr)⟩⟩
  | beginWrite batch => cases h
  | writer io => cases h
  | commitFinished position seq => cases h
  | commitAborted position => cases h
  | flushScan seq => cases h
  | flushWrite k => cases h
  | getLastCommittedPosition => cases h
  | getLogFileSize seq io => cases h
  | findPosition timestamp io => cases h
  | purge all before io => cases h
  | close io => cases h
  | crash => cases h

theorem step_stamped {e : Event} (hi : y.Stamped) (hok : LookupOk cfg y e) (h : step cfg y e = some y') :
    y'.Stamped := by
  unfold step at h
  split_ifs at h with hopen
  · exact stepOpen_stamped hi hopen hok h
  · exact stepClosed_stamped hi hok h

theorem stamped_start : Stamped {} := ⟨⟨fun h => (nomatch h), fun _ h => (nomatch h)⟩, fun h => (nomatch h)⟩

/-- Over every history of one directory from nothing on: a lookup that meets the condition
after steps that all met it returns a position that no entry from its timestamp on lies
before. -/
theorem lookup_never_skips {es : List Event} {t : Binary64} {io : ReadCalls}
    (hrun : Runs.exec (step cfg) {} es = some y) (hall : Runs.Along (step cfg) (LookupOk cfg) {} es)
    (hopen : y.isOpen = true) (hok : LookupOk cfg y (.findPosition t io)) :
    ∃ position, (findPositionByTimestamp cfg y.world.store y.world.disk t io).1 = .ok position ∧
      NeverSkips y.world.disk t position := by
  have hi : y.Stamped := Runs.exec_invariant (fun _ _ _ hi ho hs => step_stamped hi ho hs) stamped_start hall hrun
  obtain ⟨position, s', hr, -, hskip⟩ := findPosition_spec (t := t) (hi.opened hopen).1 hok
  refine ⟨position, by rw [hr], fun e he x hx hge => ?_⟩
  exact hskip e.1 e.2 (SeqMap.get?_eq_some_iff.mpr he) x hx hge

end

/-- A batch of one entry that fills its file. -/
def stampedBatch (timestamp : Binary64) (steps : ℕ) : List Event :=
  .beginWrite ⟨timestamp, [oneByteEntry 7], 0⟩ :: List.replicate steps (.writer { results := [.count 14] })

/-- Two batches in two files, the store loaded again in between. -/
def twoLives (first second : Binary64) : List Event :=
  .create :: stampedBatch first 8 ++ [.close {}, .load [1] {}] ++ stampedBatch second 11

/-- With rising timestamps the second batch is found where it is. -/
theorem lookup_never_skips_rising : ∃ y position, Runs.exec (step ⟨27, 0, none⟩) {} (twoLives ⟨5⟩ ⟨9⟩) = some y ∧
    y.world.disk.logs.keys = [1, 2] ∧
    (findPositionByTimestamp ⟨27, 0, none⟩ y.world.store y.world.disk ⟨7⟩ {}).1 = .ok position ∧
    NeverSkips y.world.disk ⟨7⟩ position := by
  have hrun := Runs.exec_final (step ⟨27, 0, none⟩) {} (twoLives ⟨5⟩ ⟨9⟩) (by decide +kernel)
  have hok : LookupOk ⟨27, 0, none⟩ (Runs.final (step ⟨27, 0, none⟩) {} (twoLives ⟨5⟩ ⟨9⟩)) (.findPosition ⟨7⟩ {}) := by
    decide +kernel
  obtain ⟨position, hr, hskip⟩ := lookup_never_skips hrun (by decide +kernel) (by decide +kernel) hok
  exact ⟨_, position, hrun, by decide +kernel, hr, hskip⟩

/-- With falling ones the second file's header, made after the load, is below the first batch,
which is skipped. -/
theorem lookup_skips_after_load : ∃ y position, Runs.exec (step ⟨27, 0, none⟩) {} (twoLives ⟨9⟩ ⟨5⟩) = some y ∧
    (findPositionByTimestamp ⟨27, 0, none⟩ y.world.store y.world.disk ⟨7⟩ {}).1 = .ok position ∧
    ¬ NeverSkips y.world.disk ⟨7⟩ position := by
  refine ⟨_, ⟨13, 3⟩, Runs.exec_final _ _ _ ?_, ?_, ?_⟩
  all_goals decide +kernel

end Life

end RocksdbJs
