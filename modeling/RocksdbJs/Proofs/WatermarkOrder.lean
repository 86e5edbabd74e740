import RocksdbJs.Sanity.Readers

/-! The watermark over the life of one store. Every position registered is at or above the
watermark, so that the least of them is too. A batch that fills its file breaks this: it
leaves the size of the full file beside the number of the next one, which is published and
then undercut by the entries of that next file. -/

namespace RocksdbJs

open TransactionLogStore

/-- The watermark is at or below every registered position and they at or below `top`; the next
entry's file is not above the current one. -/
structure Rising (s : TransactionLogStore) (top : LogPosition) : Prop where
  above : ∀ p ∈ s.uncommittedTransactionPositions, s.lastCommittedPosition ≤ p
  below : ∀ p ∈ s.uncommittedTransactionPositions, p ≤ top
  le_top : s.lastCommittedPosition ≤ top
  next_le : s.nextLogPosition.logSequenceNumber ≤ s.currentSequenceNumber

theorem le_fullyCommittedPosition {s : TransactionLogStore} {p : LogPosition}
    (h : ∀ q ∈ s.uncommittedTransactionPositions, p ≤ q) (hnext : p ≤ s.nextLogPosition) :
    p ≤ s.fullyCommittedPosition := by
  unfold fullyCommittedPosition
  cases hfront : s.uncommittedTransactionPositions.front? with
  | none => exact hnext
  | some q => exact h q (SortedVec.front?_mem hfront)

/-- The published position is at or below every registered one. -/
theorem fullyCommittedPosition_le {s : TransactionLogStore} {q : LogPosition}
    (hq : q ∈ s.uncommittedTransactionPositions) :
    s.fullyCommittedPosition ≤ q := by
  unfold fullyCommittedPosition
  cases hfront : s.uncommittedTransactionPositions.front? with
  | none => exact absurd hq (SortedVec.front?_eq_none.mp hfront q)
  | some m => exact SortedVec.front?_le hfront hq

/-- Giving a position back raises the watermark as long as a position is left or the place of
the next entry is the highest of all. -/
theorem commitAborted_rising {s : TransactionLogStore} {p top : LogPosition} (h : Rising s top)
    (hleft : (∃ q ∈ s.uncommittedTransactionPositions, q ≠ p) ∨ top = s.nextLogPosition) :
    Rising (s.commitAborted p) top ∧ s.lastCommittedPosition ≤ (s.commitAborted p).lastCommittedPosition := by
  have hmem : ∀ q ∈ (s.positionErase p).uncommittedTransactionPositions, q ∈ s.uncommittedTransactionPositions :=
    fun q hq => (SortedVec.mem_erase.mp hq).2
  have hW : s.lastCommittedPosition ≤ (s.positionErase p).fullyCommittedPosition ∧
      (s.positionErase p).fullyCommittedPosition ≤ top := by
    unfold fullyCommittedPosition
    cases hfront : (s.positionErase p).uncommittedTransactionPositions.front? with
    | some m =>
      have hm := hmem m (SortedVec.front?_mem hfront)
      exact ⟨h.above m hm, h.below m hm⟩
    | none =>
      rcases hleft with ⟨q, hq, hne⟩ | htop
      · exact absurd (SortedVec.mem_erase.mpr ⟨hne, hq⟩) (SortedVec.front?_eq_none.mp hfront q)
      · exact ⟨htop ▸ h.le_top, htop.ge⟩
  exact ⟨⟨fun q hq => fullyCommittedPosition_le hq, fun q hq => h.below q (hmem q hq), hW.2, h.next_le⟩, hW.1⟩

/-- What a purge keeps while no `writeBatch` call is running. -/
structure RisingIdle (s : TransactionLogStore) : Prop extends Rising s s.nextLogPosition where
  current_pos : 0 < s.currentSequenceNumber
  current_lt : s.currentSequenceNumber < s.nextSequenceNumber

/-- The place of the next entry has not moved, or lies in a file. -/
def NextKept (s s' : TransactionLogStore) : Prop :=
  (s'.nextLogPosition = s.nextLogPosition ∧ s'.currentSequenceNumber = s.currentSequenceNumber) ∨
    s'.nextLogPosition.logSequenceNumber ≠ 0

/-- Forgetting a purged file: a current one takes the watermark on to the file after it. -/
theorem forgetFile_rising {s : TransactionLogStore} (seq : ℕ) (h : RisingIdle s) :
    RisingIdle (s.forgetFile seq) ∧ s.lastCommittedPosition ≤ (s.forgetFile seq).lastCommittedPosition ∧
      NextKept s (s.forgetFile seq) := by
  unfold forgetFile
  by_cases hseq : seq = s.currentSequenceNumber
  · rw [if_pos hseq]
    set t : TransactionLogStore := { (s.positionErase s.nextLogPosition).advanceSequence with
      nextLogPosition := ⟨0, s.nextSequenceNumber⟩ } with ht
    have hnew : s.nextLogPosition ≤ ⟨0, s.nextSequenceNumber⟩ := by
      have hle := h.next_le
      have hlt := h.current_lt
      rw [LogPosition.le_iff]
      simp only
      omega
    have hall : ∀ q ∈ (t.positionInsert t.nextLogPosition).uncommittedTransactionPositions,
        s.lastCommittedPosition ≤ q ∧ q ≤ t.nextLogPosition := by
      intro q hq
      rcases SortedVec.mem_insert.mp hq with rfl | hq
      · exact ⟨h.le_top.trans hnew, le_rfl⟩
      · have hold := (SortedVec.mem_erase.mp hq).2
        exact ⟨h.above q hold, (h.below q hold).trans hnew⟩
    have hmem : t.nextLogPosition ∈ (t.positionInsert t.nextLogPosition).uncommittedTransactionPositions :=
      SortedVec.mem_insert.mpr (Or.inl rfl)
    have hpos : 0 < s.nextSequenceNumber := h.current_pos.trans h.current_lt
    exact ⟨⟨⟨fun q hq => fullyCommittedPosition_le hq, fun q hq => (hall q hq).2, fullyCommittedPosition_le hmem,
      le_rfl⟩,
      hpos, Nat.lt_succ_self _⟩, le_fullyCommittedPosition (fun q hq => (hall q hq).1) (h.le_top.trans hnew),
        Or.inr hpos.ne'⟩
  · rw [if_neg hseq]
    exact ⟨⟨⟨h.above, h.below, h.le_top, h.next_le⟩, h.current_pos, h.current_lt⟩, le_rfl, Or.inl ⟨rfl, rfl⟩⟩

theorem foldl_forgetFile_rising (l : List ℕ) {s : TransactionLogStore} (h : RisingIdle s) :
    RisingIdle (l.foldl forgetFile s) ∧ s.lastCommittedPosition ≤ (l.foldl forgetFile s).lastCommittedPosition ∧
      NextKept s (l.foldl forgetFile s) := by
  induction l generalizing s with
  | nil => exact ⟨h, le_rfl, Or.inl ⟨rfl, rfl⟩⟩
  | cons seq l ih =>
    obtain ⟨h1, h2, h3⟩ := forgetFile_rising seq h
    obtain ⟨k1, k2, k3⟩ := ih h1
    refine ⟨k1, h2.trans k2, ?_⟩
    rcases k3 with ⟨k3, k4⟩ | k3
    · rw [NextKept, List.foldl_cons, k3, k4]
      exact h3
    · exact Or.inr k3

theorem doPurge_rising (cfg : StoreConfig) {s : TransactionLogStore} {d : Disk} (all : Bool) (before : ℕ)
    (io : FilesCalls) (hf : FilesOk s d) (h : Rising s s.nextLogPosition) :
    let r := s.doPurge cfg d all before io
    FilesOk r.1 r.2 ∧ Rising r.1 r.1.nextLogPosition ∧ s.lastCommittedPosition ≤ r.1.lastCommittedPosition := by
  intro r
  obtain ⟨hidle, hle, hnext⟩ := foldl_forgetFile_rising (purgedSequences cfg s d all before io)
    ⟨h, hf.current_pos, hf.current_lt⟩
  set t := (purgedSequences cfg s d all before io).foldl forgetFile s
  obtain ⟨stream, hr⟩ : ∃ stream, r.1 = { t with flushedStateFile := stream } := by
    simp only [r, doPurge]
    split
    · exact ⟨_, rfl⟩
    · exact ⟨t.flushedStateFile, rfl⟩
  obtain ⟨hfiles, hlogs⟩ := doPurge_cases cfg s d all before io
  have hkept : ∀ {q f}, r.1.sequenceFiles.get? q = some f → s.sequenceFiles.get? q = some f ∧
      r.2.bytes q = d.bytes q := by
    intro q f hg
    have hg' := hg
    rw [hfiles] at hg'
    split_ifs at hg' with hq
    refine ⟨hg', ?_⟩
    rcases hlogs with hlogs | ⟨-, hnone⟩
    · rw [Disk.bytes, Disk.bytes, hlogs, if_neg hq]
    · rw [hnone] at hg
      cases hg
  refine ⟨⟨⟨fun hg => ?_, fun hg hc => hf.closed (hkept hg).1 hc, ?_, ?_⟩, fun hz => ?_⟩, ?_, ?_⟩
  · rw [(hkept hg).2]
    exact hf.size_le (hkept hg).1
  · rw [hr]
    exact hidle.current_pos
  · rw [hr]
    exact hidle.current_lt
  · -- the place of the next entry is still the zero position, so the current file is not there
    rw [hr] at hz
    obtain ⟨hn, hc⟩ := hnext.resolve_right fun hne => hne hz
    have hcur : r.1.currentSequenceNumber = s.currentSequenceNumber := by rw [hr]; exact hc
    have hzero : s.nextLogPosition.logSequenceNumber = 0 := by rw [← hn]; exact hz
    rw [hcur, hfiles, hf.next_zero hzero, ite_self]
  · rw [hr]
    exact ⟨hidle.above, hidle.below, hidle.le_top, hidle.next_le⟩
  · rw [hr]
    exact hle

theorem writerStep_next_le {cfg : StoreConfig} {w w' : World} {wr : Writer} {io : WriterCalls}
    (h : w.store.nextLogPosition.logSequenceNumber ≤ w.store.currentSequenceNumber)
    (hlt : w.store.currentSequenceNumber < w.store.nextSequenceNumber) (hstep : writerStep cfg w wr io = some w') :
    w'.store.nextLogPosition.logSequenceNumber ≤ w'.store.currentSequenceNumber := by
  cases writerStep_move hstep with
  | turn | place | append | finish => exact h
  | rotate => exact h.trans hlt.le
  | setNext => exact le_rfl
  | get hpc =>
    unfold getLogFile
    split
    · exact h
    · exact le_rfl
  | opens seq f hpc hf hroom =>
    obtain ⟨files, hs⟩ := ensureOpen_withFiles w.store w.disk seq f io.openCalls
    simp only [hs]
    exact h

/-- A step of the writer leaves the watermark, and registers nothing below it. -/
theorem WriterStep.rising {w w' : World} {wr wr' : Writer} (h : WriterStep w w' wr wr')
    (hr : Rising w.store wr.logPosition)
    (hnext : w'.store.nextLogPosition.logSequenceNumber ≤ w'.store.currentSequenceNumber) :
    Rising w'.store (if wr'.busy then wr'.logPosition else w'.store.nextLogPosition) := by
  set top := if wr'.busy then wr'.logPosition else w'.store.nextLogPosition with htop
  have hpos : wr.logPosition ≤ wr'.logPosition := by
    rcases h.position with he | he
    · exact he.ge
    · rw [he]
      exact LogPosition.zero_le _
  have hle : wr'.logPosition ≤ top := by
    rw [htop]
    split_ifs
    · exact le_rfl
    · exact h.next_le
  have hW : w'.store.lastCommittedPosition ≤ wr'.logPosition := by
    rw [h.committed]
    exact hr.le_top.trans hpos
  have hadded : ∀ p ∈ w'.store.uncommittedTransactionPositions, w'.store.lastCommittedPosition ≤ p ∧ p ≤ top := by
    intro p hp
    rcases h.added p hp with hold | rfl | ⟨hidle, rfl⟩
    · rw [h.committed]
      exact ⟨hr.above p hold, (hr.below p hold).trans (hpos.trans hle)⟩
    · exact ⟨hW, hle⟩
    · refine ⟨hW.trans h.next_le, ?_⟩
      rw [htop, hidle]
      exact le_rfl
  exact ⟨fun p hp => (hadded p hp).1, fun p hp => (hadded p hp).2, hW.trans hle, hnext⟩

/-- The step ends the life of the store. -/
def Event.ends : Event → Bool
  | .close _ => true
  | .crash => true
  | _ => false

namespace Life

/-- The position of a running `writeBatch` call, or else the place of the next entry. -/
def top (y : Life) : LogPosition :=
  match y.world.writer with
  | some wr => if wr.busy then wr.logPosition else y.world.store.nextLogPosition
  | none => y.world.store.nextLogPosition

theorem top_idle {y : Life} (h : y.world.busy = false) : y.top = y.world.store.nextLogPosition := by
  unfold top
  cases hw : y.world.writer with
  | none => rfl
  | some wr =>
    rw [World.busy, hw] at h
    exact if_neg (by rw [show wr.busy = false from h]; exact Bool.false_ne_true)

theorem top_busy {y : Life} {wr : Writer} (h : y.world.writer = some wr) (hb : wr.busy = true) :
    y.top = wr.logPosition := by
  rw [top, h]
  exact if_pos hb

/-- The store is right about its files and the position of a running `writeBatch` call, and
nothing is registered below the watermark. -/
structure Ordered (y : Life) : Prop where
  files : FilesOk y.world.store y.world.disk
  writer : ∀ wr ∈ y.world.writer, wr.busy = true → WriterOk y.world.store wr
  rising : Rising y.world.store y.top

/-- What a step has to meet: a `writeBatch` call is not given a position past the end of the
current file, headers land whole and files stay below 4 GiB, no commit gives back the position
of the `writeBatch` call that is running, the watermark is not initialised past a registered
position or the place of the next entry, and no lookup cuts a file short under a running call. -/
def RiseOk (cfg : StoreConfig) (y : Life) : Event → Prop
  | .beginWrite _ => y.world.store.nextLogPosition ≤ y.world.store.appendPoint
  | .writer io => ∀ wr ∈ y.world.writer, io.Ok cfg y.world.store wr
  | .commitFinished position _ => ∀ wr ∈ y.world.writer, wr.busy = true → position ≠ wr.logPosition
  | .commitAborted position => ∀ wr ∈ y.world.writer, wr.busy = true → position ≠ wr.logPosition
  | .getLastCommittedPosition => y.world.store.lastCommittedPosition = ⟨0, 0⟩ →
      ∀ p ∈ y.world.store.nextLogPosition :: y.world.store.uncommittedTransactionPositions.elems,
        (y.world.store.getLastCommittedPosition y.world.disk).lastCommittedPosition ≤ p
  | .getLogFileSize seq io => (io.openCalls seq).headerWrites = (4, 1, 8)
  | .findPosition timestamp io => y.world.busy = true → ∀ e ∈ y.world.store.sequenceFiles.entries,
      e.2.size ≤ (findPositionByTimestamp cfg y.world.store y.world.disk timestamp io).2.sizeOf e.1
  | .load order io => ∀ seq ∈ order, (FilesCalls.openCalls io seq).headerWrites = (4, 1, 8)
  | _ => True

instance (cfg : StoreConfig) (y : Life) : ∀ e : Event, Decidable (RiseOk cfg y e)
  | .beginWrite _ => inferInstanceAs (Decidable (y.world.store.nextLogPosition ≤ y.world.store.appendPoint))
  | .writer io => inferInstanceAs (Decidable (∀ wr ∈ y.world.writer, io.Ok cfg y.world.store wr))
  | .commitFinished position _ =>
    inferInstanceAs (Decidable (∀ wr ∈ y.world.writer, wr.busy = true → position ≠ wr.logPosition))
  | .commitAborted position =>
    inferInstanceAs (Decidable (∀ wr ∈ y.world.writer, wr.busy = true → position ≠ wr.logPosition))
  | .getLastCommittedPosition => inferInstanceAs (Decidable (y.world.store.lastCommittedPosition = ⟨0, 0⟩ →
      ∀ p ∈ y.world.store.nextLogPosition :: y.world.store.uncommittedTransactionPositions.elems,
        (y.world.store.getLastCommittedPosition y.world.disk).lastCommittedPosition ≤ p))
  | .getLogFileSize seq io => inferInstanceAs (Decidable ((io.openCalls seq).headerWrites = (4, 1, 8)))
  | .findPosition timestamp io => inferInstanceAs (Decidable (y.world.busy = true →
      ∀ e ∈ y.world.store.sequenceFiles.entries,
        e.2.size ≤ (findPositionByTimestamp cfg y.world.store y.world.disk timestamp io).2.sizeOf e.1))
  | .load order io =>
    inferInstanceAs (Decidable (∀ seq ∈ order, (FilesCalls.openCalls io seq).headerWrites = (4, 1, 8)))
  | .create => isTrue trivial
  | .flushScan _ => isTrue trivial
  | .flushWrite _ => isTrue trivial
  | .purge _ _ _ => isTrue trivial
  | .close _ => isTrue trivial
  | .crash => isTrue trivial

section
variable {cfg : StoreConfig} {y y' : Life}

/-- The world of an open store moves on, with its watermark not below what it was. -/
def Rises (w w' : World) : Prop := w.store.lastCommittedPosition ≤ w'.store.lastCommittedPosition

theorem ordered_writer {io : WriterCalls} {w' : World} (hi : Ordered y)
    (hok : ∀ wr ∈ y.world.writer, io.Ok cfg y.world.store wr) (h : stepWriter cfg y.world io = some w') :
    Ordered (y.moveTo w') ∧ Rises y.world w' := by
  simp only [stepWriter, Option.bind_eq_some_iff] at h
  obtain ⟨wr, hwr, h⟩ := h
  have hbusy := writerStep_busy h
  have hwok := hi.writer wr hwr hbusy
  have hrise := hi.rising
  rw [top_busy hwr hbusy] at hrise
  obtain ⟨wr', hstep⟩ := writerStep_spec hi.files hwok (hok wr hwr) h
  have hnext := writerStep_next_le hi.rising.next_le hi.files.current_lt h
  have htop : (y.moveTo w').top = if wr'.busy then wr'.logPosition else w'.store.nextLogPosition := by
    rw [top, show (y.moveTo w').world.writer = some wr' from hstep.writer]
    rfl
  refine ⟨⟨hstep.files, fun v hv hb => ?_, htop ▸ hstep.rising hrise hnext⟩, hstep.committed.ge⟩
  obtain rfl : v = wr' := Option.some.inj (hv.symm.trans hstep.writer)
  exact hstep.ok hb

theorem ordered_beginWrite (batch : TransactionLogEntryBatch) (hi : Ordered y) (hidle : y.world.busy = false)
    (hok : y.world.store.nextLogPosition ≤ y.world.store.appendPoint) :
    Ordered (y.moveTo (RocksdbJs.beginWrite y.world batch)) ∧ Rises y.world (RocksdbJs.beginWrite y.world batch) := by
  have hrise := hi.rising
  rw [top_idle hidle] at hrise
  unfold RocksdbJs.beginWrite
  by_cases hc : y.world.store.isClosing = true
  · rw [if_pos hc]
    refine ⟨⟨hi.files, fun wr hwr hb => ?_, hrise⟩, le_rfl⟩
    obtain rfl := Option.some.inj hwr
    cases hb
  · rw [if_neg hc]
    refine ⟨⟨⟨⟨hi.files.size_le, hi.files.closed, hi.files.current_pos, hi.files.current_lt⟩, hi.files.next_zero⟩,
      fun wr hwr _ => ?_, ?_⟩, le_rfl⟩
    · obtain rfl := Option.some.inj hwr
      exact outerLoop_writerOk (SortedVec.mem_insert.mpr (Or.inl rfl)) le_rfl hok fun _ => hok
    · rw [top_busy rfl (outerLoop_busy _ _)]
      refine ⟨fun p hp => ?_, fun p hp => ?_, hrise.le_top, hrise.next_le⟩
      · rcases SortedVec.mem_insert.mp hp with rfl | hp
        · exact hrise.le_top
        · exact hrise.above p hp
      · rcases SortedVec.mem_insert.mp hp with rfl | hp
        · exact le_rfl
        · exact hrise.below p hp

/-- A commit gives its position back: the running call keeps its own. -/
theorem ordered_commit {p : LogPosition} {s' : TransactionLogStore} (hi : Ordered y)
    (hok : ∀ wr ∈ y.world.writer, wr.busy = true → p ≠ wr.logPosition)
    (hs : ∃ samples count, s' = { y.world.store.commitAborted p with
      recentlyCommittedSequencePositions := samples, nextSequencePositionsCount := count }) :
    Ordered (y.withStore s') ∧ Rises y.world { y.world with store := s' } := by
  obtain ⟨samples, count, rfl⟩ := hs
  have hleft : (∃ q ∈ y.world.store.uncommittedTransactionPositions, q ≠ p) ∨
      y.top = y.world.store.nextLogPosition := by
    cases hbusy : y.world.busy with
    | false => exact Or.inr (top_idle hbusy)
    | true =>
      unfold World.busy at hbusy
      cases hwr : y.world.writer with
      | none => rw [hwr] at hbusy; cases hbusy
      | some wr =>
        rw [hwr] at hbusy
        exact Or.inl ⟨wr.logPosition, (hi.writer wr hwr hbusy).mem, (hok wr hwr hbusy).symm⟩
  obtain ⟨hr, hle⟩ := commitAborted_rising (p := p) hi.rising hleft
  refine ⟨⟨⟨⟨hi.files.size_le, hi.files.closed, hi.files.current_pos, hi.files.current_lt⟩, hi.files.next_zero⟩,
    fun wr hwr hb => ?_, ⟨hr.above, hr.below, hr.le_top, hr.next_le⟩⟩, hle⟩
  have hw := hi.writer wr hwr hb
  exact SizesGrow.writerOk (s := y.world.store) (.of_files rfl rfl rfl)
    (SortedVec.mem_erase.mpr ⟨(hok wr hwr hb).symm, hw.mem⟩) hw

/-- A step that changes the files only, and lets what they hold grow. -/
theorem ordered_files {s' : TransactionLogStore} {d' : Disk} (hi : Ordered y) (hf : FilesOk s' d')
    (hg : y.world.busy = true → SizesGrow y.world.store s')
    (hs : ∃ files, s' = { y.world.store with sequenceFiles := files }) :
    Ordered (y.moveTo { y.world with store := s', disk := d' }) ∧
      Rises y.world { y.world with store := s', disk := d' } := by
  obtain ⟨files, rfl⟩ := hs
  refine ⟨⟨hf, fun wr hwr hb => ?_, ⟨hi.rising.above, hi.rising.below, hi.rising.le_top, hi.rising.next_le⟩⟩, le_rfl⟩
  have hbusy : y.world.busy = true := by
    rw [World.busy, show y.world.writer = some wr from hwr]
    exact hb
  have hw := hi.writer wr hwr hb
  exact (hg hbusy).writerOk hw.mem hw

theorem ordered_getLastCommittedPosition (hi : Ordered y) (hok : RiseOk cfg y .getLastCommittedPosition) :
    let s' := y.world.store.getLastCommittedPosition y.world.disk
    Ordered (y.withStore s') ∧ Rises y.world { y.world with store := s' } := by
  intro s'
  have hbelow : y.world.store.lastCommittedPosition ≤ s'.lastCommittedPosition ∧
      (∀ p ∈ y.world.store.uncommittedTransactionPositions, s'.lastCommittedPosition ≤ p) ∧
      s'.lastCommittedPosition ≤ y.top := by
    by_cases hz : y.world.store.lastCommittedPosition = ⟨0, 0⟩
    · have hall := hok hz
      refine ⟨hz ▸ LogPosition.zero_le _, fun p hp => hall p (List.mem_cons_of_mem _ hp), ?_⟩
      unfold top
      cases hwr : y.world.writer with
      | none => exact hall _ List.mem_cons_self
      | some wr =>
        simp only
        split_ifs with hb
        · exact hall _ (List.mem_cons_of_mem _ (hi.writer wr hwr hb).mem)
        · exact hall _ List.mem_cons_self
    · have hsame : s' = y.world.store := if_neg fun h => hz (LogPosition.isZero_iff.mp h)
      rw [hsame]
      exact ⟨le_rfl, hi.rising.above, hi.rising.le_top⟩
  obtain ⟨position, hs⟩ := getLastCommittedPosition_store y.world.store y.world.disk
  have hs' : s' = { y.world.store with lastCommittedPosition := position } := hs
  clear_value s'
  subst hs'
  refine ⟨⟨⟨⟨hi.files.size_le, hi.files.closed, hi.files.current_pos, hi.files.current_lt⟩, hi.files.next_zero⟩,
    fun wr hwr hb => ?_, ⟨hbelow.2.1, hi.rising.below, hbelow.2.2, hi.rising.next_le⟩⟩, hbelow.1⟩
  have hw := hi.writer wr hwr hb
  exact SizesGrow.writerOk (s := y.world.store) (.of_files rfl rfl rfl) hw.mem hw

theorem ordered_findPosition {timestamp : Binary64} {io : ReadCalls} (hi : Ordered y)
    (hok : RiseOk cfg y (.findPosition timestamp io)) :
    let s' := (y.world.store.findPositionByTimestamp cfg y.world.disk timestamp io).2
    Ordered (y.withStore s') ∧ Rises y.world { y.world with store := s' } := by
  obtain ⟨files, hs, -⟩ := findPosition_store cfg y.world.store y.world.disk timestamp io
  have hfiles := findPosition_filesOk cfg timestamp io hi.files
  refine ordered_files hi hfiles (fun hbusy => ⟨fun q => ?_, fun hf' => ?_, by rw [hs], by rw [hs]⟩) ⟨files, hs⟩
  · cases hg : y.world.store.sequenceFiles.get? q with
    | none => rw [sizeOf_none hg]; exact Nat.zero_le _
    | some f =>
      rw [sizeOf_eq hg]
      exact hok hbusy (q, f) (SeqMap.get?_eq_some_iff.mp hg)
  · obtain ⟨f, hf, ho⟩ := findPosition_files hf'
    exact ⟨f, hf, fun h => ho.trans h⟩

theorem ordered_purge (all : Bool) (before : ℕ) (io : FilesCalls) (hi : Ordered y) (hidle : y.world.busy = false) :
    let r := y.world.store.doPurge cfg y.world.disk all before io
    Ordered (y.moveTo { y.world with store := r.1, disk := r.2 }) ∧
      Rises y.world { y.world with store := r.1, disk := r.2 } := by
  have hrise := hi.rising
  rw [top_idle hidle] at hrise
  obtain ⟨hf, hr, hle⟩ := doPurge_rising cfg all before io hi.files hrise
  refine ⟨⟨hf, fun wr hwr hb => ?_, ?_⟩, hle⟩
  · rw [World.busy, show y.world.writer = some wr from hwr] at hidle
    rw [show wr.busy = false from hidle] at hb
    cases hb
  · rw [top_idle]
    · exact hr
    · exact hidle

theorem stepOpen_ordered {e : Event} (hi : Ordered y) (hopen : y.isOpen = true) (hok : RiseOk cfg y e)
    (h : y.stepOpen cfg e = some y') (hend : e.ends = false) :
    Ordered y' ∧ y'.isOpen = true ∧ Rises y.world y'.world := by
  cases e with
  | create => cases h
  | beginWrite batch =>
    simp only [stepOpen] at h
    split_ifs at h with hbusy
    obtain rfl := Option.some.inj h
    obtain ⟨h1, h2⟩ := ordered_beginWrite batch hi (Bool.not_eq_true _ ▸ hbusy) hok
    exact ⟨h1, hopen, h2⟩
  | writer io =>
    simp only [stepOpen, Option.map_eq_some_iff] at h
    obtain ⟨w', hw, rfl⟩ := h
    obtain ⟨h1, h2⟩ := ordered_writer hi hok hw
    exact ⟨h1, hopen, h2⟩
  | commitFinished position seq =>
    obtain rfl := Option.some.inj h
    obtain ⟨h1, h2⟩ := ordered_commit hi hok ⟨_, _, rfl⟩
    exact ⟨h1, hopen, h2⟩
  | commitAborted position =>
    obtain rfl := Option.some.inj h
    obtain ⟨h1, h2⟩ := ordered_commit hi hok ⟨_, _, rfl⟩
    exact ⟨h1, hopen, h2⟩
  | flushScan seq =>
    obtain rfl := Option.some.inj h
    exact ⟨⟨hi.files, hi.writer, hi.rising⟩, hopen, le_rfl⟩
  | flushWrite k =>
    simp only [stepOpen, Option.map_eq_some_iff] at h
    obtain ⟨position, -, rfl⟩ := h
    obtain ⟨stream, written, state, hw⟩ := writeFlushedPosition_cases y.world.store y.world.disk position
    rw [hw]
    refine ⟨⟨⟨⟨hi.files.size_le, hi.files.closed, hi.files.current_pos, hi.files.current_lt⟩, hi.files.next_zero⟩,
      fun wr hwr hb => ?_, ⟨hi.rising.above, hi.rising.below, hi.rising.le_top, hi.rising.next_le⟩⟩, hopen, le_rfl⟩
    have hw := hi.writer wr hwr hb
    exact SizesGrow.writerOk (s := y.world.store) (.of_files rfl rfl rfl) hw.mem hw
  | getLastCommittedPosition =>
    obtain rfl := Option.some.inj h
    obtain ⟨h1, h2⟩ := ordered_getLastCommittedPosition hi hok
    exact ⟨h1, hopen, h2⟩
  | getLogFileSize seq io =>
    obtain rfl := Option.some.inj h
    obtain ⟨hf, hg, hs⟩ := getLogFileSize_filesOk hi.files hok
    obtain ⟨h1, h2⟩ := ordered_files hi hf (fun _ => hg) hs
    exact ⟨h1, hopen, h2⟩
  | findPosition timestamp io =>
    obtain rfl := Option.some.inj h
    obtain ⟨h1, h2⟩ := ordered_findPosition hi hok
    exact ⟨h1, hopen, h2⟩
  | purge all before io =>
    simp only [stepOpen] at h
    split_ifs at h with hbusy
    obtain rfl := Option.some.inj h
    obtain ⟨h1, h2⟩ := ordered_purge all before io hi (Bool.not_eq_true _ ▸ hbusy)
    exact ⟨h1, hopen, h2⟩
  | close io => cases hend
  | crash => cases hend
  | load order io => cases h

/-- A store just made or loaded has published nothing. -/
theorem stepClosed_ordered {e : Event} (hok : RiseOk cfg y e)
    (h : y.stepClosed cfg e = some y') (hopen : y'.isOpen = true) (hnot : y.isOpen = false) : Ordered y' := by
  cases e with
  | create =>
    simp only [stepClosed] at h
    split_ifs at h
    obtain rfl := Option.some.inj h
    refine ⟨⟨⟨fun h => (by cases h), fun h => (by cases h), Nat.one_pos, Nat.lt_succ_self 1⟩, fun _ => rfl⟩,
      fun wr hwr => (by cases hwr), ⟨?_, ?_, LogPosition.zero_le _, Nat.zero_le _⟩⟩
    · exact fun p hp => absurd hp (SortedVec.not_mem_empty p)
    · exact fun p hp => absurd hp (SortedVec.not_mem_empty p)
  | load order io =>
    simp only [stepClosed] at h
    split_ifs at h
    cases hl : TransactionLogStore.load cfg y.world.disk order io with
    | mk s d =>
      rw [hl] at h
      cases s with
      | none =>
        obtain rfl := Option.some.inj h
        rw [show (y.moveTo { disk := d }).isOpen = y.isOpen from rfl, hnot] at hopen
        cases hopen
      | some s =>
        obtain rfl := Option.some.inj h
        have hload := load_loaded hok hl
        refine ⟨hload.toFilesOk, fun wr hwr => (by cases hwr), ⟨?_, ?_, ?_, hload.next_le⟩⟩
        · intro p _
          exact hload.committed ▸ LogPosition.zero_le _
        · exact fun p hp => ((hload.positions p).mp hp).le
        · exact hload.committed ▸ LogPosition.zero_le _
  | beginWrite batch => cases h
  | writer io => cases h
  | commitFinished position seq => cases h
  | commitAborted position => cases h
  | flushScan seq => cases h
  | flushWrite k => cases h
  | getLastCommittedPosition => cases h
  | getLogFileSize seq io => cases h
  | findPosition timestamp io => cases h
  | purge all before io => cases h
  | close io => cases h
  | crash => cases h

theorem step_ordered {e : Event} (hi : y.isOpen = true → Ordered y) (hok : RiseOk cfg y e) (h : step cfg y e = some y')
    (hopen : y'.isOpen = true) : Ordered y' := by
  unfold step at h
  split_ifs at h with ho
  · cases hend : e.ends with
    | false => exact (stepOpen_ordered (hi ho) ho hok h hend).1
    | true =>
      cases e with
      | close io =>
        simp only [stepOpen] at h
        split_ifs at h
        obtain rfl := Option.some.inj h
        cases hopen
      | crash =>
        obtain rfl := Option.some.inj h
        cases hopen
      | _ => cases hend
  · exact stepClosed_ordered hok h hopen (Bool.not_eq_true _ ▸ ho)

/-- Over the life of one store, from any state that steps which all meet the condition have led
to: along further such steps the watermark never falls. -/
theorem watermark_never_falls {es later : List Event} (hrun : Runs.exec (step cfg) {} es = some y)
    (hall : Runs.Along (step cfg) (RiseOk cfg) {} es) (hopen : y.isOpen = true)
    (hrun' : Runs.exec (step cfg) y later = some y') (hall' : Runs.Along (step cfg) (RiseOk cfg) y later)
    (hlife : ∀ e ∈ later, e.ends = false) :
    y.world.store.lastCommittedPosition ≤ y'.world.store.lastCommittedPosition := by
  have hi : y.isOpen = true → Ordered y :=
    Runs.exec_invariant (fun _ _ _ hi ho hs => step_ordered hi ho hs) (fun h => absurd h Bool.false_ne_true) hall hrun
  have hord := hi hopen
  clear hi hrun hall
  induction later generalizing y with
  | nil =>
    obtain rfl : y = y' := by simpa [Runs.exec] using hrun'
    exact le_rfl
  | cons e later ih =>
    obtain ⟨u, hu, hrest⟩ := Runs.exec_cons.mp hrun'
    have hstep : y.stepOpen cfg e = some u := by
      rw [step, if_pos hopen] at hu
      exact hu
    obtain ⟨h1, h2, h3⟩ := stepOpen_ordered hord hopen hall'.1 hstep (hlife e List.mem_cons_self)
    exact le_trans h3 (ih h2 hrest (hall'.2 u hu) (fun e' he' => hlife e' (List.mem_cons_of_mem _ he')) h1)

end

/-- Two batches in one file, the later one committed first. -/
def laterFirst : List Event :=
  .create :: (.beginWrite ⟨⟨5⟩, [oneByteEntry 7], 0⟩ :: List.replicate 8 (.writer { results := [.count 14] })) ++
    (.beginWrite ⟨⟨6⟩, [oneByteEntry 8], 0⟩ :: List.replicate 8 (.writer { results := [.count 14] }))

theorem watermark_never_falls_laterFirst : ∃ y y', Runs.exec (step ⟨200, 0, none⟩) {} laterFirst = some y ∧
    Runs.exec (step ⟨200, 0, none⟩) y [.commitFinished ⟨27, 1⟩ 2, .commitFinished ⟨0, 1⟩ 1] = some y' ∧
    y'.world.store.lastCommittedPosition = ⟨41, 1⟩ ∧
    y.world.store.lastCommittedPosition ≤ y'.world.store.lastCommittedPosition := by
  have hrun := Runs.exec_final (step ⟨200, 0, none⟩) {} laterFirst (by decide +kernel)
  have hrun' := Runs.exec_final (step ⟨200, 0, none⟩) (Runs.final (step ⟨200, 0, none⟩) {} laterFirst)
    [.commitFinished ⟨27, 1⟩ 2, .commitFinished ⟨0, 1⟩ 1] (by decide +kernel)
  refine ⟨_, _, hrun, hrun', by decide +kernel, ?_⟩
  exact watermark_never_falls hrun (by decide +kernel) (by decide +kernel) hrun' (by decide +kernel) (by decide +kernel)

/-- One entry fills the first file and is committed, then a smaller one goes into the second. -/
def fillThenShorter : List Event :=
  .create :: (.beginWrite ⟨⟨5⟩, [⟨List.replicate 20 7, by decide⟩], 0⟩ ::
    List.replicate 8 (.writer { results := [.count 33] })) ++ [.commitFinished ⟨0, 1⟩ 1]

/-- The watermark goes from offset 46 of file 2, where nothing is, back to offset 27. -/
theorem watermark_falls : ∃ y y', Runs.exec (step ⟨40, 0, none⟩) {} fillThenShorter = some y ∧ y.isOpen = true ∧
    Runs.exec (step ⟨40, 0, none⟩) y ((.beginWrite ⟨⟨6⟩, [⟨[8], by decide⟩], 0⟩ ::
      List.replicate 8 (.writer { results := [.count 14] })) ++ [.commitFinished ⟨46, 2⟩ 2]) = some y' ∧
    ¬ y.world.store.lastCommittedPosition ≤ y'.world.store.lastCommittedPosition := by
  refine ⟨_, _, Runs.exec_final _ _ _ ?_, ?_, Runs.exec_final _ _ _ ?_, ?_⟩
  all_goals decide +kernel

end Life

end RocksdbJs
