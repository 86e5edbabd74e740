import RocksdbJs.Sanity.Numbers

/-! Log sequence numbers are not reused. A new log file gets a number above all there have
been, a loaded store goes on at or after the flushed position, and no entry is written before
it, along every run in which a directory is made at most once, a load finds the newest file
there has been, a flush records a position in a file that exists, and a reader opens no file
that was never made. None of the four is checked by the code. -/

namespace RocksdbJs

open TransactionLogStore

namespace Life

/-- The highest number there has been. -/
def newest (y : Life) : ℕ := y.used.foldr max 0

theorem le_newest {y : Life} : ∀ u ∈ y.used, u ≤ y.newest := by
  unfold newest
  induction y.used with
  | nil => intro u hu; cases hu
  | cons a l ih =>
    intro u hu
    rw [List.foldr_cons]
    rcases List.mem_cons.mp hu with rfl | hu
    · exact le_max_left _ _
    · exact (ih u hu).trans (le_max_right _ _)

/-- What a step has to meet. -/
def NumbersOk (cfg : StoreConfig) (y : Life) : Event → Prop
  | .create => y.used = []
  | .getLogFileSize seq _ => (y.world.store.sequenceFiles.get? seq).isSome →
      (y.world.disk.logs.get? seq).isSome ∨ seq = y.world.store.currentSequenceNumber
  | .flushWrite k => ∀ position ∈ y.flushes[k]?, position = ⟨0, 0⟩ ∨
      ((∃ u ∈ y.used, position.logSequenceNumber ≤ u) ∧
        ∀ bytes ∈ y.world.disk.logs.get? position.logSequenceNumber, position.positionInLogFile ≤ bytes.length)
  | .load order io => y.used = [] ∨ NewestKept cfg io y.world.disk order y.newest
  | _ => True

instance (cfg : StoreConfig) (io : FilesCalls) (d : Disk) (order : List ℕ) (newest : ℕ) :
    Decidable (NewestKept cfg io d order newest) :=
  decidable_of_iff (0 < newest ∧ newest ∈ order ∧
      (expired cfg io newest = false ∧ (0 < cfg.retentionMs → (io.mtime newest).isSome)) ∧
      ((io.openCalls newest).opened = true ∧ (io.openCalls newest).statted = true ∧
        (io.openCalls newest).readable = true) ∧
      ValidHeader (d.bytes newest) ∧ (d.bytes newest).length < UINT32_RANGE ∧
      ((getLastFlushedPosition d).logSequenceNumber = newest →
        framesReach (d.bytes newest) (d.bytes newest).length (getLastFlushedPosition d).positionInLogFile
          (d.bytes newest).length TRANSACTION_LOG_FILE_HEADER_SIZE = true))
    ⟨fun ⟨h1, h2, h3, h4, h5, h6, h7⟩ => ⟨h1, h2, h3, h4, h5, h6, h7⟩,
      fun ⟨h1, h2, h3, h4, h5, h6, h7⟩ => ⟨h1, h2, h3, h4, h5, h6, h7⟩⟩

instance (cfg : StoreConfig) (y : Life) : ∀ e : Event, Decidable (NumbersOk cfg y e)
  | .create => inferInstanceAs (Decidable (y.used = []))
  | .getLogFileSize seq _ => inferInstanceAs (Decidable ((y.world.store.sequenceFiles.get? seq).isSome →
      (y.world.disk.logs.get? seq).isSome ∨ seq = y.world.store.currentSequenceNumber))
  | .flushWrite k => inferInstanceAs (Decidable (∀ position ∈ y.flushes[k]?, position = ⟨0, 0⟩ ∨
      ((∃ u ∈ y.used, position.logSequenceNumber ≤ u) ∧
        ∀ bytes ∈ y.world.disk.logs.get? position.logSequenceNumber, position.positionInLogFile ≤ bytes.length)))
  | .load order io => inferInstanceAs (Decidable (y.used = [] ∨ NewestKept cfg io y.world.disk order y.newest))
  | .beginWrite _ => isTrue trivial
  | .writer _ => isTrue trivial
  | .commitFinished _ _ => isTrue trivial
  | .commitAborted _ => isTrue trivial
  | .flushScan _ => isTrue trivial
  | .getLastCommittedPosition => isTrue trivial
  | .findPosition _ _ => isTrue trivial
  | .purge _ _ _ => isTrue trivial
  | .close _ => isTrue trivial
  | .crash => isTrue trivial

/-- What a step does to the numbers: files that are new are above all there have been, a
store that has just been opened goes on at or after the flushed position, and so does every
entry that is written. -/
structure KeepsNumbers (y y' : Life) : Prop where
  fresh : FreshFiles y.used y.world.disk y'.world.disk
  opened : y.isOpen = false → y'.isOpen = true → getLastFlushedPosition y'.world.disk ≤ y'.world.store.nextLogPosition
  after : ∀ l ∈ y.world.appends y'.world, getLastFlushedPosition y.world.disk ≤ l

/-- The invariant: all files count, the flushed position is in one of them, and an open store
is at or above them all. -/
structure Counted (y : Life) : Prop where
  files : AllUsed y.used y.world.disk
  flushed : FlushedIn y.used y.world.disk
  opened : y.isOpen = true → Numbered y.used y.world.store y.world.disk ∧
    ∀ wr ∈ y.world.writer, wr.AtCurrent y.world.store y.world.disk

section
variable {cfg : StoreConfig} {y y' : Life}

/-- A step that leaves the writer alone appends nothing. -/
theorem appends_same {w w' : World} (h : w'.writer = w.writer) : w.appends w' = [] := by
  unfold World.appends
  rw [h]
  cases w.writer with
  | none => rfl
  | some wr =>
    simp only [Writer.appends]
    split
    · rw [Nat.sub_self]
      simp [TransactionLogEntryBatch.nextRecords, entryLocations]
    · rfl

theorem not_mem_appends {w w' : World} (h : w'.writer = w.writer) (l : LogPosition) : l ∉ w.appends w' := by
  rw [appends_same h]
  exact List.not_mem_nil

/-- Nor does one between two batches. -/
theorem appends_idle {w : World} (h : w.busy = false) (w' : World) : w.appends w' = [] := by
  unfold World.appends
  split
  · rename_i wr wr' hwr hwr'
    rw [World.busy, hwr, Option.map_some, Option.getD_some] at h
    obtain ⟨pc, batch, pos⟩ := wr
    cases pc <;> first | rfl | cases h
  · rfl

/-- A step of the store and its writer. -/
theorem Counted.step {w : World} (hi : y.Counted) (hopen : y.isOpen = true) (h : NumberedStep y.used y.world w)
    (hafter : ∀ l ∈ y.world.appends w, getLastFlushedPosition y.world.disk ≤ l) :
    (y.moveTo w).Counted ∧ KeepsNumbers y (y.moveTo w) := by
  refine ⟨⟨allUsed_usedWith _ _, h.flushed hi.flushed, fun _ => ⟨h.numbered, h.writer⟩⟩, h.fresh, fun hc => ?_, hafter⟩
  rw [hopen] at hc
  cases hc

/-- A step of the store alone, between steps of its writer. -/
theorem Counted.store (hi : y.Counted) (hopen : y.isOpen = true) {s : TransactionLogStore} {d : Disk}
    (hn : Numbered y.used s d) (hcur : s.currentSequenceNumber = y.world.store.currentSequenceNumber)
    (hlogs : d.logs = y.world.disk.logs) (ht : d.txnState = y.world.disk.txnState) :
    (y.moveTo { y.world with store := s, disk := d }).Counted ∧
      KeepsNumbers y (y.moveTo { y.world with store := s, disk := d }) := by
  refine hi.step hopen (NumberedStep.of_logs hn hi.files hlogs ht fun wr hwr => ?_) fun l hl =>
    absurd hl (not_mem_appends rfl l)
  exact ((hi.opened hopen).2 wr hwr).mono hcur fun q hq => by simp only [hlogs]; exact hq

/-- The store goes away, and the directory stays. -/
theorem Counted.shut (hi : y.Counted) (hopen : y.isOpen = true) {w : World} (hd : w.disk = y.world.disk)
    (hw : w.writer = none) :
    Counted { y.moveTo w with isOpen := false, flushes := [] } ∧
      KeepsNumbers y { y.moveTo w with isOpen := false, flushes := [] } := by
  have hnone : y.world.appends w = [] := by
    unfold World.appends
    rw [hw]
    split <;> first | rfl | (rename_i h; cases h)
  refine ⟨⟨allUsed_usedWith _ _, ?_, fun ho => absurd ho Bool.false_ne_true⟩,
    freshFiles_of_logs (congrArg Disk.logs hd),
    fun hc => ?_, fun l hl => ?_⟩
  · change FlushedIn (usedWith w.disk y.used) w.disk
    rw [hd]
    exact hi.flushed.withFiles
  · rw [hopen] at hc
    cases hc
  · change l ∈ y.world.appends w at hl
    rw [hnone] at hl
    cases hl

theorem stepOpen_counted {e : Event} (hi : y.Counted) (hopen : y.isOpen = true) (hok : NumbersOk cfg y e)
    (h : y.stepOpen cfg e = some y') : y'.Counted ∧ KeepsNumbers y y' := by
  obtain ⟨hn, hw⟩ := hi.opened hopen
  cases e with
  | create => cases h
  | beginWrite batch =>
    simp only [stepOpen] at h
    split_ifs at h with hbusy
    obtain rfl := Option.some.inj h
    refine hi.step hopen ?_ fun l hl => by rw [appends_idle (Bool.eq_false_iff.mpr hbusy)] at hl; cases hl
    unfold RocksdbJs.beginWrite
    split_ifs
    · exact NumberedStep.of_logs hn hi.files rfl rfl fun wr hwr => by
        obtain rfl := Option.some.inj hwr
        exact trivial
    · exact NumberedStep.of_logs (hn.congr rfl rfl rfl rfl) hi.files rfl rfl fun wr hwr => by
        obtain rfl := Option.some.inj hwr
        exact outerLoop_atCurrent _ _ _ _
  | writer io =>
    simp only [stepOpen, stepWriter, Option.map_eq_some_iff, Option.bind_eq_some_iff] at h
    obtain ⟨w', ⟨wr, hwr, hstep⟩, rfl⟩ := h
    refine hi.step hopen (writerStep_numbered hn hi.files (hw wr hwr) hstep) fun l hl => ?_
    unfold World.appends at hl
    rw [hwr] at hl
    cases hwr' : w'.writer with
    | none =>
      rw [hwr'] at hl
      cases hl
    | some wr' =>
      rw [hwr'] at hl
      exact appends_after hn hi.flushed (hw wr hwr) l hl
  | commitFinished position seq =>
    obtain rfl := Option.some.inj h
    exact hi.store hopen (hn.congr rfl rfl rfl rfl) rfl rfl rfl
  | commitAborted position =>
    obtain rfl := Option.some.inj h
    exact hi.store hopen (hn.congr rfl rfl rfl rfl) rfl rfl rfl
  | flushScan seq =>
    obtain rfl := Option.some.inj h
    refine ⟨⟨hi.files, hi.flushed, hi.opened⟩, freshFiles_of_logs rfl, fun hc => ?_, fun l hl => ?_⟩
    · rw [hopen] at hc
      cases hc
    · exact absurd hl (not_mem_appends rfl l)
  | flushWrite k =>
    simp only [stepOpen, Option.map_eq_some_iff] at h
    obtain ⟨position, hk, rfl⟩ := h
    obtain ⟨stream, written, state, hr⟩ := writeFlushedPosition_cases y.world.store y.world.disk position
    have ht := writeFlushedPosition_txnState y.world.store y.world.disk position
    rw [hr] at ht ⊢
    have hlogs : ({ y.world.disk with txnState := state } : Disk).logs = y.world.disk.logs := rfl
    refine ⟨⟨allUsed_usedWith _ _, FlushedIn.withFiles ?_, fun _ => ⟨?_, fun wr hwr => ?_⟩⟩, freshFiles_of_logs rfl,
      fun hc => ?_, fun l hl => ?_⟩
    · rcases ht with ht | ht
      · have hpos : getLastFlushedPosition { y.world.disk with txnState := state } =
            getLastFlushedPosition y.world.disk := by
          rw [getLastFlushedPosition, getLastFlushedPosition, show state = y.world.disk.txnState from ht]
        exact ⟨by rw [hpos]; exact hi.flushed.number, by rw [hpos]; exact hi.flushed.length⟩
      · have hpos : getLastFlushedPosition { y.world.disk with txnState := state } = position := by
          rw [getLastFlushedPosition, show state = some position from ht, Option.getD_some]
        rcases hok position hk with hz | ⟨hu, hlen⟩
        · exact ⟨Or.inl (hpos.trans hz), fun {bytes} _ => by rw [hpos, hz]; exact Nat.zero_le _⟩
        · exact ⟨Or.inr (by rw [hpos]; exact hu), fun {bytes} hb => by rw [hpos] at hb ⊢; exact hlen bytes hb⟩
    · exact (hn.withFiles hi.files).congr rfl rfl rfl rfl
    · exact (hw wr hwr).mono rfl fun q hq => hq
    · rw [hopen] at hc
      cases hc
    · exact absurd hl (not_mem_appends rfl l)
  | getLastCommittedPosition =>
    obtain rfl := Option.some.inj h
    obtain ⟨position, hposition⟩ := getLastCommittedPosition_store y.world.store y.world.disk
    rw [hposition]
    exact hi.store hopen (hn.congr rfl rfl rfl rfl) rfl rfl rfl
  | getLogFileSize seq io =>
    obtain rfl := Option.some.inj h
    rcases getLogFileSize_spec y.world.store y.world.disk seq io with heq | ⟨f, hf, heq⟩
    · rw [heq]
      exact hi.store hopen hn rfl rfl rfl
    · rw [heq]
      have hop := ensureOpen_grows y.world.disk (io.openCalls seq) hf (hn.opened hf)
      obtain ⟨hn', hnew⟩ := hop.numbered hn hi.files (hok (by rw [hf]; rfl))
      obtain ⟨files, hs⟩ := hop.store
      refine hi.step hopen ⟨hn', fun wr hwr => ?_, seq, hop.grows, hnew⟩ fun l hl => absurd hl (not_mem_appends rfl l)
      exact (hw wr hwr).mono (by rw [hs]) fun q => hop.grows.isSome
  | findPosition timestamp io =>
    obtain rfl := Option.some.inj h
    obtain ⟨files, hs, hfiles⟩ := findPosition_store cfg y.world.store y.world.disk timestamp io
    refine hi.store hopen ⟨?_, ?_, fun hsome => ?_, fun hq ho => ?_⟩ (by rw [hs]) rfl rfl
    · rw [hs]
      exact hn.le
    · rw [hs]
      exact hn.current_lt
    · rw [hs] at hsome ⊢
      exact hfiles _ (hn.current hsome)
    · obtain ⟨f, hf, hopen'⟩ := findPosition_files hq
      exact hn.opened hf (hopen'.symm.trans ho)
  | purge all before io =>
    simp only [stepOpen] at h
    split_ifs at h with hbusy
    obtain rfl := Option.some.inj h
    have hidle : y.world.busy = false := Bool.eq_false_iff.mpr hbusy
    have hn' := doPurge_numbered cfg hn hi.files all before io
    have hf' := doPurge_flushedIn cfg y.world.store hi.flushed all before io
    have hall' : AllUsed y.used (doPurge cfg y.world.store y.world.disk all before io).2 := fun q hq =>
      hi.files q (doPurge_logs_isSome hq)
    refine ⟨⟨allUsed_usedWith _ _, hf'.withFiles, fun _ =>
      ⟨hn'.withFiles hall', not_busy_atCurrent (w := y.world) hidle _ _⟩⟩,
      freshFiles_of_subset fun q hq => doPurge_logs_isSome hq, fun hc => ?_, fun l hl => ?_⟩
    · rw [hopen] at hc
      cases hc
    · rw [appends_idle hidle] at hl
      cases hl
  | close io =>
    simp only [stepOpen] at h
    split_ifs at h with hbusy
    obtain rfl := Option.some.inj h
    exact hi.shut hopen (doClose_disk _ _ _ _).1 rfl
  | crash =>
    obtain rfl := Option.some.inj h
    obtain ⟨hc, hk⟩ := hi.shut (w := { disk := y.world.disk }) hopen rfl rfl
    exact ⟨⟨hi.files, hi.flushed, fun ho => absurd ho Bool.false_ne_true⟩, hk.fresh, hk.opened, hk.after⟩
  | load order io => cases h

theorem stepClosed_counted {e : Event} (hi : y.Counted) (hok : NumbersOk cfg y e)
    (h : y.stepClosed cfg e = some y') : y'.Counted ∧ KeepsNumbers y y' := by
  have hnone : ∀ {w : World}, w.writer = none → ∀ l ∈ y.world.appends w, getLastFlushedPosition y.world.disk ≤ l := by
    intro w hw l hl
    unfold World.appends at hl
    rw [hw] at hl
    split at hl <;> first | cases hl | (rename_i h; cases h)
  -- before there has been any file there is no flushed position either
  have hzero : y.used = [] → getLastFlushedPosition y.world.disk = ⟨0, 0⟩ := by
    intro hu
    rcases hi.flushed.number with hz | ⟨u, hmem, -⟩
    · exact hz
    · rw [hu] at hmem
      cases hmem
  have hlogs : y.used = [] → ∀ q, y.world.disk.logs.get? q = none := by
    intro hu q
    cases hq : y.world.disk.logs.get? q with
    | none => rfl
    | some bytes =>
      have := hi.files q (by rw [hq]; rfl)
      rw [hu] at this
      cases this
  have hnew : ∀ {s : TransactionLogStore}, y.used = [] → s.currentSequenceNumber < s.nextSequenceNumber →
      s.sequenceFiles = SeqMap.empty → Numbered y.used s y.world.disk := by
    intro s hu hlt hfiles
    refine ⟨fun u hmem => ?_, hlt, fun hsome => ?_, fun hf => ?_⟩
    · rw [hu] at hmem
      cases hmem
    · rw [hlogs hu] at hsome
      cases hsome
    · rw [hfiles] at hf
      cases hf
  cases e with
  | create =>
    simp only [stepClosed] at h
    split_ifs at h
    obtain rfl := Option.some.inj h
    refine ⟨⟨hi.files, hi.flushed, fun _ => ⟨hnew hok (Nat.lt_succ_self 1) rfl, fun wr hwr => (by cases hwr)⟩⟩,
      freshFiles_of_logs rfl, fun _ _ => ?_, hnone rfl⟩
    exact (hzero hok).le.trans (LogPosition.zero_le _)
  | load order io =>
    simp only [stepClosed] at h
    split_ifs at h with hdir
    rcases hok with hu | hkept
    · -- an empty directory
      have hkeys : order = [] := by
        refine List.eq_nil_iff_forall_not_mem.mpr fun q hq => ?_
        obtain ⟨bytes, hb⟩ := SeqMap.mem_keys_iff.mp (hdir.2.mem_iff.mp hq)
        rw [hlogs hu q] at hb
        cases hb
      rw [hkeys] at h
      obtain rfl := Option.some.inj h
      refine ⟨⟨allUsed_usedWith _ _, hi.flushed.withFiles, fun _ => ⟨?_, fun wr hwr => (by cases hwr)⟩⟩,
        freshFiles_of_logs rfl, fun _ _ => ?_, hnone rfl⟩
      · exact (hnew hu (Nat.lt_succ_self 1) rfl).withFiles hi.files
      · exact (hzero hu).le.trans (LogPosition.zero_le _)
    · obtain ⟨s, d', hload, hn, hf, hsub, hle⟩ := load_numbered hkept hdir.2 le_newest hi.files hi.flushed
      rw [hload] at h
      obtain rfl := Option.some.inj h
      refine ⟨⟨allUsed_usedWith _ _, hf.withFiles, fun _ => ⟨hn.withFiles fun q hq => hi.files q (hsub q hq),
        fun wr hwr => (by cases hwr)⟩⟩, freshFiles_of_subset hsub, fun _ _ => hle, hnone rfl⟩
  | beginWrite batch => cases h
  | writer io => cases h
  | commitFinished position seq => cases h
  | commitAborted position => cases h
  | flushScan seq => cases h
  | flushWrite k => cases h
  | getLastCommittedPosition => cases h
  | getLogFileSize seq io => cases h
  | findPosition timestamp io => cases h
  | purge all before io => cases h
  | close io => cases h
  | crash => cases h

theorem step_counted {e : Event} (hi : y.Counted) (hok : NumbersOk cfg y e) (h : step cfg y e = some y') :
    y'.Counted ∧ KeepsNumbers y y' := by
  unfold step at h
  split_ifs at h with hopen
  · exact stepOpen_counted hi hopen hok h
  · exact stepClosed_counted hi hok h

theorem counted_start : Counted {} :=
  ⟨fun _ h => (nomatch h), ⟨Or.inl rfl, fun h => (nomatch h)⟩, fun h => (nomatch h)⟩

/-- Over every history of one directory from nothing on: a step that meets the condition after
steps that all met it makes no file with a number used before, opens no store before the
flushed position and writes no entry before it. -/
theorem numbers_not_reused {es : List Event} {e : Event} (hrun : Runs.exec (step cfg) {} es = some y)
    (hall : Runs.Along (step cfg) (NumbersOk cfg) {} es) (hok : NumbersOk cfg y e) (h : step cfg y e = some y') :
    KeepsNumbers y y' :=
  (step_counted (Runs.exec_invariant (fun _ _ _ hi ho hs => (step_counted hi ho hs).1) counted_start hall hrun) hok h).2

end

/-- A flushed batch, and the store is closed. -/
def closedBatch : List Event := flushedBatch ++ [.close {}]

/-- The store is loaded again, with its file in place. -/
theorem numbers_not_reused_reload : ∃ y y', Runs.exec (step ⟨200, 0, none⟩) {} closedBatch = some y ∧
    step ⟨200, 0, none⟩ y (.load [1] {}) = some y' ∧ y'.isOpen = true ∧ y.used ≠ [] ∧
    getLastFlushedPosition y.world.disk ≠ ⟨0, 0⟩ ∧ KeepsNumbers y y' := by
  have hrun := Runs.exec_final (step ⟨200, 0, none⟩) {} closedBatch (by decide +kernel)
  have hstep := Runs.step_final (step ⟨200, 0, none⟩) (Runs.final (step ⟨200, 0, none⟩) {} closedBatch) (.load [1] {})
    (by decide +kernel)
  refine ⟨_, _, hrun, hstep, by decide +kernel, by decide +kernel, by decide +kernel, ?_⟩
  exact numbers_not_reused hrun (by decide +kernel) (by decide +kernel) hstep

/-- The next batch, up to the open of its file. -/
def nextBatch : List Event := [.beginWrite ⟨⟨5⟩, [oneByteEntry 7], 0⟩, .writer {}]

/-- The only file is past the retention period at the load: the store starts again before the
flushed position, and its next file has the number of the last one. -/
theorem expired_number_reused : ∃ y y' z z', Runs.exec (step ⟨200, 1, none⟩) {} closedBatch = some y ∧
    step ⟨200, 1, none⟩ y (.load [1] { now := 100 }) = some y' ∧ y'.isOpen = true ∧
    y'.world.store.nextLogPosition < getLastFlushedPosition y'.world.disk ∧
    Runs.exec (step ⟨200, 1, none⟩) y' nextBatch = some z ∧ step ⟨200, 1, none⟩ z (.writer {}) = some z' ∧
    ¬ FreshFiles z.used z.world.disk z'.world.disk := by
  refine ⟨_, _, _, _, Runs.exec_final _ _ _ ?_, Runs.step_final _ _ _ ?_, ?_, ?_, Runs.exec_final _ _ _ ?_,
    Runs.step_final _ _ _ ?_, ?_⟩
  all_goals decide +kernel

end Life

end RocksdbJs
