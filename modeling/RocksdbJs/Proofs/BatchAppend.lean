import RocksdbJs.Sanity.BatchRun

/-! `writeBatch` appends exactly the batch. With a limit above the header's size (or none),
an age limit above zero (or none) and fit decisions that 32-bit sums make as exact ones
would, the call returns, and the log is what it was followed by the batch's records. -/

namespace RocksdbJs

open TransactionLogStore

/-- A file of the log that the call has changed and that is longer than the limit holds one entry. -/
def LongFilesHoldOne (cfg : StoreConfig) (d0 d : Disk) : Prop :=
  0 < cfg.maxFileSize → ∀ seq bytes, d.logs.get? seq = some bytes → cfg.maxFileSize < bytes.length →
    d0.logs.get? seq ≠ some bytes → (fileRecords bytes).length = 1

/-- What the call promises. -/
structure BatchAppended (cfg : StoreConfig) (d0 d : Disk) (batch : TransactionLogEntryBatch) : Prop where
  content : d.content = d0.content ++ batch.records
  whole : ∀ seq bytes, d.logs.get? seq = some bytes → bytes = [] ∨ ∃ timestamp rs, WholeFile bytes timestamp rs
  long : LongFilesHoldOne cfg d0 d

/-- The clock of the whole call stays between `lo` and `hi`. -/
def WriterCalls.Within (lo hi : ℤ) (io : WriterCalls) : Prop :=
  lo ≤ io.now ∧ io.now ≤ hi ∧ lo ≤ io.openCalls.now ∧ io.openCalls.now ≤ hi

/-- Whatever the system calls do, as long as they succeed, and the clock, as long as it moves
by less than the age limit, `writeBatch` returns with the batch appended. -/
def AppendsBatch (cfg : StoreConfig) (w : World) (batch : TransactionLogEntryBatch) : Prop :=
  ∀ (stream : ℕ → WriterCalls) (lo hi : ℤ), hi - lo < max (cfg.thresholdDuration.getD 0) 1 →
    (∀ n, (stream n).Within lo hi) →
    (∀ n w', Runs.exec (stepWriter cfg) (beginWrite w batch) (Runs.upTo stream n) = some w' →
      ∀ wr ∈ w'.writer, (stream n).Succeeds cfg w' wr) →
    ∃ n w' wr, Runs.exec (stepWriter cfg) (beginWrite w batch) (Runs.upTo stream n) = some w' ∧ w'.writer = some wr ∧
      wr.pc = .returned ∧ BatchAppended cfg w.disk w'.disk batch

/-- Where the entries of file `seq` end; a file still to be made will begin with its header. -/
def fileEnd (d : Disk) (seq : ℕ) : ℕ :=
  if d.bytes seq = [] then TRANSACTION_LOG_FILE_HEADER_SIZE else (d.bytes seq).length

theorem fileEnd_nil {d : Disk} {seq : ℕ} (h : d.bytes seq = []) :
    fileEnd d seq = TRANSACTION_LOG_FILE_HEADER_SIZE := if_pos h

theorem fileEnd_ne {d : Disk} {seq : ℕ} (h : d.bytes seq ≠ []) : fileEnd d seq = (d.bytes seq).length := if_neg h

theorem CurrentOpened.fileEnd {s s' : TransactionLogStore} {d d' : Disk} {f f' : TransactionLogFile} {io : OpenCalls}
    (h : CurrentOpened s d f io s' d' f') :
    RocksdbJs.fileEnd d' s.currentSequenceNumber = RocksdbJs.fileEnd d s.currentSequenceNumber := by
  rcases h.bytes with ⟨hnil, hnew, -⟩ | ⟨hsame, -⟩
  · rw [fileEnd_nil hnil, fileEnd_ne (by rw [hnew]; simp [fileHeader]), hnew, fileHeader_length]
  · rw [RocksdbJs.fileEnd, RocksdbJs.fileEnd, hsame]

/-- What is left of the batch packs exactly, from the current file on and from a new one. -/
def Packs (cfg : StoreConfig) (s : TransactionLogStore) (d : Disk) (es : List TransactionLogEntry) : Prop :=
  packsExactly cfg.maxFileSize (fileEnd d s.currentSequenceNumber) 0 true es = true ∧
    (cfg.thresholdDuration.isSome → packsExactly cfg.maxFileSize TRANSACTION_LOG_FILE_HEADER_SIZE 0 true es = true)

instance (cfg : StoreConfig) (s : TransactionLogStore) (d : Disk) (es : List TransactionLogEntry) :
    Decidable (Packs cfg s d es) := inferInstanceAs (Decidable (_ ∧ (_ → _)))

/-- The same from a new file on only. -/
def PacksNew (cfg : StoreConfig) (es : List TransactionLogEntry) : Prop :=
  packsExactly cfg.maxFileSize TRANSACTION_LOG_FILE_HEADER_SIZE 0 true es = true

structure Packing (cfg : StoreConfig) (d0 : Disk) (w : World) (wr : Writer) : Prop where
  long : LongFilesHoldOne cfg d0 w.disk
  packs : 0 < cfg.maxFileSize → match wr.pc with
    | .getFile => Packs cfg w.store w.disk wr.batch.pending
    | .tryOpen _ => Packs cfg w.store w.disk wr.batch.pending
    | .fixPosition _ => Packs cfg w.store w.disk wr.batch.pending
    | .checkAge _ => Packs cfg w.store w.disk wr.batch.pending
    | .write _ => Packs cfg w.store w.disk wr.batch.pending
    | _ => PacksNew cfg wr.batch.pending

theorem packs_new {cfg : StoreConfig} {s : TransactionLogStore} {d : Disk} {es : List TransactionLogEntry}
    (hnew : d.bytes s.currentSequenceNumber = []) (h : PacksNew cfg es) : Packs cfg s d es :=
  ⟨by rw [fileEnd_nil hnew]; exact h, fun _ => h⟩

/-- The current file can take the next entry at once: it is still to be made or opened, or
holds its header only and is not too old. -/
def Fresh (lo : ℤ) (s : TransactionLogStore) (d : Disk) : Prop :=
  match s.sequenceFiles.get? s.currentSequenceNumber with
  | none => d.bytes s.currentSequenceNumber = []
  | some f =>
    if f.isOpen then (d.bytes s.currentSequenceNumber).length ≤ TRANSACTION_LOG_FILE_HEADER_SIZE ∧
      lo ≤ f.fileLastWriteTime
    else d.bytes s.currentSequenceNumber = []

instance (lo : ℤ) (s : TransactionLogStore) (d : Disk) : Decidable (Fresh lo s d) := by
  unfold Fresh
  cases s.sequenceFiles.get? s.currentSequenceNumber with
  | none => exact inferInstance
  | some f => exact inferInstance

/-- The steps left to the next append, from a current file that takes it. -/
def Writer.rank (wr : Writer) : ℕ :=
  match wr.pc with
  | .setNext _ => if wr.batch.isComplete then 2 else 9
  | .getFile => 8
  | .tryOpen _ => 7
  | .fixPosition _ => 6
  | .rotateInner => 6
  | .checkAge _ => 5
  | .write _ => 4
  | .advance _ _ => 3
  | .finish => 1
  | .returned => 0
  | .threw _ => 0

/-- The measure of the call: the entries left, whether the current file takes one, the place. -/
def effort (lo : ℤ) (w : World) (wr : Writer) : ℕ :=
  100 * wr.batch.pending.length + (if Fresh lo w.store w.disk then 0 else 50) + wr.rank

theorem effort_lt {lo : ℤ} {w w' : World} {wr wr' : Writer} (hb : wr'.batch = wr.batch)
    (hf : Fresh lo w.store w.disk → Fresh lo w'.store w'.disk) (hr : wr'.rank < wr.rank) :
    effort lo w' wr' < effort lo w wr := by
  unfold effort
  rw [hb]
  split_ifs with h1 h2
  · omega
  · omega
  · exact absurd (hf (by assumption)) h1
  · omega

theorem effort_lt_of_fresh {lo : ℤ} {w w' : World} {wr wr' : Writer} (hb : wr'.batch = wr.batch)
    (hf : ¬ Fresh lo w.store w.disk) (hf' : Fresh lo w'.store w'.disk) (hr : wr'.rank ≤ 9) :
    effort lo w' wr' < effort lo w wr := by
  unfold effort
  rw [hb, if_neg hf, if_pos hf']
  omega

theorem rank_le (wr : Writer) : wr.rank ≤ 9 := by
  unfold Writer.rank
  split <;> first | omega | (split_ifs <;> omega)

theorem effort_lt_of_progress {lo : ℤ} {w w' : World} {wr wr' : Writer}
    (hb : wr'.batch.pending.length < wr.batch.pending.length) : effort lo w' wr' < effort lo w wr := by
  have h1 := rank_le wr'
  unfold effort
  split_ifs <;> omega

/-- One step of a call that goes well. -/
def GoesOn (cfg : StoreConfig) (d0 : Disk) (b0 : TransactionLogEntryBatch) (lo : ℤ) (io : WriterCalls) (w : World)
    (wr : Writer) : Prop :=
  ∃ w' wr', writerStep cfg w wr io = some w' ∧ w'.writer = some wr' ∧ Writing cfg d0 b0 w' wr' ∧ Packing cfg d0 w' wr' ∧
    effort lo w' wr' < effort lo w wr

theorem LongFilesHoldOne.congr {cfg : StoreConfig} {d0 d d' : Disk} (h : LongFilesHoldOne cfg d0 d)
    (hl : d'.logs = d.logs) : LongFilesHoldOne cfg d0 d' := by
  intro hmax seq bytes hb
  rw [hl] at hb
  exact h hmax seq bytes hb

theorem fileEnd_congr {d d' : Disk} (hl : d'.logs = d.logs) (seq : ℕ) : fileEnd d' seq = fileEnd d seq := by
  have hb : d'.bytes seq = d.bytes seq := by rw [Disk.bytes, Disk.bytes, hl]
  rw [fileEnd, fileEnd, hb]

theorem bytes_congr {d d' : Disk} (hl : d'.logs = d.logs) (seq : ℕ) : d'.bytes seq = d.bytes seq := by
  rw [Disk.bytes, Disk.bytes, hl]

theorem fresh_congr {lo : ℤ} {s s' : TransactionLogStore} {d d' : Disk} (hf : s'.sequenceFiles = s.sequenceFiles)
    (hc : s'.currentSequenceNumber = s.currentSequenceNumber) (hl : d'.logs = d.logs) :
    Fresh lo s' d' ↔ Fresh lo s d := by
  rw [Fresh, Fresh, hf, hc, bytes_congr hl]

/-- After a rotation the current file is still to be made. -/
theorem fresh_advance (lo : ℤ) {s : TransactionLogStore} {d d' : Disk} (h : LogOk s d) (hl : d'.logs = d.logs) :
    Fresh lo s.advanceSequence d' ∧ d'.bytes s.advanceSequence.currentSequenceNumber = [] := by
  obtain ⟨hf, hd⟩ := h.next_fresh
  have hb : d'.bytes s.nextSequenceNumber = [] := by
    rw [bytes_congr hl]
    exact Disk.bytes_none hd
  refine ⟨?_, hb⟩
  unfold Fresh
  rw [show s.advanceSequence.sequenceFiles.get? s.advanceSequence.currentSequenceNumber = none from hf]
  exact hb

section
variable {cfg : StoreConfig} {d0 : Disk} {b0 : TransactionLogEntryBatch} {w : World} {wr : Writer} {io : WriterCalls}
  {lo hi : ℤ}

theorem Packs.congr {s s' : TransactionLogStore} {d d' : Disk} {es : List TransactionLogEntry} (h : Packs cfg s d es)
    (hc : s'.currentSequenceNumber = s.currentSequenceNumber) (hl : d'.logs = d.logs) : Packs cfg s' d' es := by
  rw [Packs, hc, fileEnd_congr hl]
  exact h

theorem goesOn_getFile (h : Writing cfg d0 b0 w wr) (hp : Packing cfg d0 w wr) (hpc : wr.pc = .getFile) :
    GoesOn cfg d0 b0 lo io w wr := by
  obtain ⟨w', wr', hstep, hq, hw, hpc', hcur, f, hf, hold⟩ := getFile_spec io h hpc
  refine ⟨w', wr', hstep, hq.writer, hw, ⟨hp.long.congr hq.logs, fun hmax => ?_⟩, effort_lt hq.batch ?_ ?_⟩
  · have hpk := hp.packs hmax
    rw [hpc] at hpk
    rw [hpc', hq.batch]
    exact hpk.congr hcur hq.logs
  · intro hfresh
    unfold Fresh at hfresh ⊢
    rw [hcur, hf, bytes_congr hq.logs]
    rcases hold with hold | ⟨hnone, hclosed⟩
    · rwa [hold] at hfresh
    · rw [hnone] at hfresh
      simpa [hclosed] using hfresh
  · simp [Writer.rank, hpc, hpc']

theorem goesOn_tryOpen {seq : ℕ} (h : Writing cfg d0 b0 w wr) (hp : Packing cfg d0 w wr) (hpc : wr.pc = .tryOpen seq)
    (hmaxv : cfg.maxFileSize = 0 ∨ TRANSACTION_LOG_FILE_HEADER_SIZE < cfg.maxFileSize)
    (hio : io.Succeeds cfg w wr) (hin : io.Within lo hi) : GoesOn cfg d0 b0 lo io w wr := by
  obtain ⟨w', wr', hstep, hwr', hbatch, hw, f, hf, hcase⟩ := tryOpen_spec h hpc hio
  have hpk := hp.packs
  rw [hpc] at hpk
  rcases hcase with ⟨hpc', hmax, hfull, hs, hd⟩ | ⟨hpc', hroom, f', hop⟩
  · refine ⟨w', wr', hstep, hwr', hw, ⟨hp.long.congr (by rw [hd]), fun _ => ?_⟩, effort_lt hbatch ?_ ?_⟩
    · rw [hpc', hbatch]
      have h13 := hmaxv.resolve_left hmax.ne'
      have hopen : f.isOpen = true := by
        cases ho : f.isOpen with
        | true => rfl
        | false => rw [h.log.size_closed hf ho] at hfull; omega
      obtain ⟨hsize, hne⟩ := h.log.size_open hf hopen
      have hb : Bounded w.store w.disk := by
        have := h.place
        rw [Writer.Place, hpc] at this
        exact this.2.1
      rw [Nat.mod_eq_of_lt hb] at hsize
      have hpk' := (hpk hmax).1
      rw [fileEnd_ne hne, ← hsize] at hpk'
      rw [PacksNew, ← packsExactly_full hfull (h13.trans_le hfull)]
      exact hpk'
    · rw [hs, hd]
      exact id
    · simp [Writer.rank, hpc, hpc']
  · obtain ⟨files, hs⟩ := hop.store
    have hcur : w'.store.currentSequenceNumber = w.store.currentSequenceNumber := by rw [hs]
    have hend := hop.fileEnd
    refine ⟨w', wr', hstep, hwr', hw, ⟨?_, fun hmax => ?_⟩, effort_lt hbatch ?_ ?_⟩
    · intro hmax q bytes hb hlong hne
      by_cases hq : q = w.store.currentSequenceNumber
      · subst hq
        rcases hop.bytes with ⟨-, hnew, -⟩ | ⟨hsame, hnn, -⟩
        · rw [← Disk.bytes_eq hb, hnew, fileHeader_length] at hlong
          have := hmaxv.resolve_left hmax.ne'
          omega
        · have hold : w.disk.logs.get? w.store.currentSequenceNumber = some bytes := by
            rw [Disk.get?_of_bytes hnn, ← hsame, Disk.bytes_eq hb]
          exact hp.long hmax _ bytes hold hlong hne
      · rw [hop.bytes_ne q hq] at hb
        exact hp.long hmax q bytes hb hlong hne
    · rw [hpc', hbatch, Packs, hcur, hend]
      exact hpk hmax
    · intro hfresh
      unfold Fresh at hfresh ⊢
      rw [hcur, hop.file]
      rw [hf] at hfresh
      simp only [hop.isOpen, if_true]
      rcases hop.bytes with ⟨-, hnew, htime⟩ | ⟨hsame, hnn, hopen, -⟩
      · rw [hnew, fileHeader_length, htime]
        exact ⟨le_rfl, hin.2.2.1⟩
      · cases ho : f.isOpen with
        | true =>
          simp only [ho, if_true] at hfresh
          rw [hsame, hopen ho]
          exact hfresh
        | false =>
          simp only [ho, Bool.false_eq_true, if_false] at hfresh
          exact absurd hfresh hnn
    · simp [Writer.rank, hpc, hpc']

theorem goesOn_rotateInner (h : Writing cfg d0 b0 w wr) (hp : Packing cfg d0 w wr)
    (hpc : wr.pc = .rotateInner)
    (hmaxv : cfg.maxFileSize = 0 ∨ TRANSACTION_LOG_FILE_HEADER_SIZE < cfg.maxFileSize) :
    GoesOn cfg d0 b0 lo io w wr := by
  obtain ⟨w', wr', hstep, hq, hw, hpc', hs⟩ := rotateInner_spec io h hpc
  obtain ⟨hfresh, hnil⟩ := fresh_advance lo h.log hq.logs
  rw [← hs] at hfresh hnil
  have hplace := h.place
  rw [Writer.Place, hpc] at hplace
  obtain ⟨-, hmax, hb, f, hf, hfull⟩ := hplace
  refine ⟨w', wr', hstep, hq.writer, hw, ⟨hp.long.congr hq.logs, fun hmax => ?_⟩,
    effort_lt_of_fresh hq.batch ?_ hfresh (rank_le _)⟩
  · have hpk := hp.packs hmax
    rw [hpc] at hpk
    rw [hpc', hq.batch]
    exact packs_new hnil hpk
  · -- a file that is full is not fresh
    intro hfr
    unfold Fresh at hfr
    rw [hf] at hfr
    have h13 := hmaxv.resolve_left hmax.ne'
    cases ho : f.isOpen with
    | true =>
      obtain ⟨hsize, -⟩ := h.log.size_open hf ho
      rw [Nat.mod_eq_of_lt hb] at hsize
      simp only [ho, if_true] at hfr
      omega
    | false =>
      rw [h.log.size_closed hf ho] at hfull
      omega

theorem goesOn_fixPosition {seq : ℕ} (h : Writing cfg d0 b0 w wr) (hp : Packing cfg d0 w wr)
    (hpc : wr.pc = .fixPosition seq) : GoesOn cfg d0 b0 lo io w wr := by
  obtain ⟨w', wr', hstep, hq, hw, hpc', hfiles, hcur, -⟩ := fixPosition_spec io h hpc
  refine ⟨w', wr', hstep, hq.writer, hw, ⟨hp.long.congr hq.logs, fun hmax => ?_⟩, effort_lt hq.batch ?_ ?_⟩
  · have hpk := hp.packs hmax
    rw [hpc] at hpk
    rw [hpc', hq.batch]
    exact hpk.congr hcur hq.logs
  · exact (fresh_congr hfiles hcur hq.logs).mpr
  · simp [Writer.rank, hpc, hpc']

theorem goesOn_checkAge {seq : ℕ} (h : Writing cfg d0 b0 w wr) (hp : Packing cfg d0 w wr) (hpc : wr.pc = .checkAge seq)
    (hage : ∀ d ∈ cfg.thresholdDuration, hi - lo < d) (hin : io.Within lo hi) : GoesOn cfg d0 b0 lo io w wr := by
  obtain ⟨w', wr', hstep, hq, hw, f, hf, hcase⟩ := checkAge_spec io h hpc
  have hpk := hp.packs
  rw [hpc] at hpk
  rcases hcase with ⟨hold, hpc', hs⟩ | ⟨-, hpc', hs⟩
  · obtain ⟨hfresh, hnil⟩ := fresh_advance lo h.log hq.logs
    rw [← hs] at hfresh hnil
    have hsome : cfg.thresholdDuration.isSome := by
      unfold tooOld at hold
      split at hold
      · cases hold
      · rename_i d hd
        rw [hd]
        rfl
    refine ⟨w', wr', hstep, hq.writer, hw, ⟨hp.long.congr hq.logs, fun hmax => ?_⟩,
      effort_lt_of_fresh hq.batch ?_ hfresh (rank_le _)⟩
    · rw [hpc', hq.batch]
      exact packs_new hnil ((hpk hmax).2 hsome)
    · -- a fresh file was opened within the time the call takes
      intro hfr
      have hplace := h.place
      rw [Writer.Place, hpc] at hplace
      obtain ⟨-, -, hseq, f0, hf0, ho⟩ := hplace
      rw [hseq, hf] at hf0
      obtain rfl := Option.some.inj hf0
      unfold Fresh at hfr
      simp only [hf, ho, if_true] at hfr
      unfold tooOld at hold
      split at hold
      · cases hold
      · rename_i d hd
        have h1 := hage d hd
        have h2 := hin.2.1
        simp only [decide_eq_true_eq] at hold
        omega
  · refine ⟨w', wr', hstep, hq.writer, hw, ⟨hp.long.congr hq.logs, fun hmax => ?_⟩, effort_lt hq.batch ?_ ?_⟩
    · rw [hpc', hq.batch]
      exact (hpk hmax).congr (by rw [hs]) hq.logs
    · exact (fresh_congr (by rw [hs]) (by rw [hs]) hq.logs).mpr
    · simp [Writer.rank, hpc, hpc']

theorem goesOn_advance {seq sizeBefore : ℕ} (h : Writing cfg d0 b0 w wr) (hp : Packing cfg d0 w wr)
    (hpc : wr.pc = .advance seq sizeBefore)
    (hmaxv : cfg.maxFileSize = 0 ∨ TRANSACTION_LOG_FILE_HEADER_SIZE < cfg.maxFileSize) :
    GoesOn cfg d0 b0 lo io w wr := by
  obtain ⟨w', wr', hstep, hq, hw, hpc', hcase⟩ := advance_spec io h hpc
  have hpacking : Packing cfg d0 w' wr' := by
    refine ⟨hp.long.congr hq.logs, fun hmax => ?_⟩
    have hpk := hp.packs hmax
    rw [hpc] at hpk
    rw [hpc', hq.batch]
    exact hpk
  refine ⟨w', wr', hstep, hq.writer, hw, hpacking, ?_⟩
  rcases hcase with hs | ⟨hcomplete, hs⟩
  · obtain ⟨hfresh, -⟩ := fresh_advance lo h.log hq.logs
    rw [← hs] at hfresh
    refine effort_lt_of_fresh hq.batch ?_ hfresh (rank_le _)
    intro hfr
    have hplace := h.place
    rw [Writer.Place, hpc] at hplace
    obtain ⟨rfl, -, hlen⟩ := hplace
    have hlt := hlen hmaxv
    unfold Fresh at hfr
    split at hfr
    · rw [hfr] at hlt
      simp at hlt
    · split_ifs at hfr
      · omega
      · rw [hfr] at hlt
        simp at hlt
  · refine effort_lt hq.batch (fresh_congr (by rw [hs]) (by rw [hs]) hq.logs).mpr ?_
    simp [Writer.rank, hpc, hpc', hq.batch, hcomplete]

theorem goesOn_setNext {seq : ℕ} (h : Writing cfg d0 b0 w wr) (hp : Packing cfg d0 w wr) (hpc : wr.pc = .setNext seq) :
    GoesOn cfg d0 b0 lo io w wr := by
  obtain ⟨w', wr', hstep, hq, hw, hpc', hfiles, hcur⟩ := setNext_spec io h hpc
  have hpk := hp.packs
  rw [hpc] at hpk
  have hplace := h.place
  rw [Writer.Place, hpc] at hplace
  refine ⟨w', wr', hstep, hq.writer, hw, ⟨hp.long.congr hq.logs, fun hmax => ?_⟩,
    effort_lt hq.batch (fresh_congr hfiles hcur hq.logs).mpr ?_⟩
  · cases hc : wr.batch.isComplete with
    | true =>
      rw [hpc', outerLoop_finish hc, hq.batch]
      exact hpk hmax
    | false =>
      rw [hpc', outerLoop_getFile hc, hq.batch]
      refine packs_new ?_ (hpk hmax)
      rw [hcur, bytes_congr hq.logs]
      exact Disk.bytes_none (hplace.2 hc).2.2
  · cases hc : wr.batch.isComplete with
    | true => simp [Writer.rank, hpc, hpc', outerLoop_finish hc, hc]
    | false => simp [Writer.rank, hpc, hpc', outerLoop_getFile hc, hc]

theorem goesOn_finish (h : Writing cfg d0 b0 w wr) (hp : Packing cfg d0 w wr) (hpc : wr.pc = .finish) :
    GoesOn cfg d0 b0 lo io w wr := by
  obtain ⟨w', wr', hstep, hq, hw, hpc', hfiles, hcur⟩ := finish_spec io h hpc
  refine ⟨w', wr', hstep, hq.writer, hw, ⟨hp.long.congr hq.logs, fun hmax => ?_⟩,
    effort_lt hq.batch (fresh_congr hfiles hcur hq.logs).mpr ?_⟩
  · have hpk := hp.packs hmax
    rw [hpc] at hpk
    rw [hpc', hq.batch]
    exact hpk
  · simp [Writer.rank, hpc, hpc']

theorem pending_advanced (b : TransactionLogEntryBatch) (n : ℕ) : (b.advanced n).pending = b.pending.drop n := by
  simp [TransactionLogEntryBatch.advanced, TransactionLogEntryBatch.pending, List.drop_drop, Nat.add_comm]

/-- What one append takes of a batch that packs exactly. -/
theorem numEntriesToWrite_spec {f : TransactionLogFile} {b : TransactionLogEntryBatch} (hmax : 0 < cfg.maxFileSize)
    (h13 : TRANSACTION_LOG_FILE_HEADER_SIZE < cfg.maxFileSize) (hmax32 : cfg.maxFileSize < UINT32_RANGE)
    (hp : packsExactly cfg.maxFileSize f.size 0 true b.pending = true) :
    let n := f.numEntriesToWrite b cfg.maxFileSize
    PacksNew cfg (b.pending.drop n) ∧ (n = 0 ∨ f.size + (b.nextBytes n).length ≤ cfg.maxFileSize ∨
      (f.size ≤ TRANSACTION_LOG_FILE_HEADER_SIZE ∧ n = 1)) := by
  intro n
  by_cases hfull : cfg.maxFileSize ≤ f.size
  · have hn : n = 0 := by
      change f.numEntriesToWrite b cfg.maxFileSize = 0
      rw [TransactionLogFile.numEntriesToWrite, if_pos hmax, if_pos hfull]
    rw [hn, List.drop_zero]
    rw [PacksNew, ← packsExactly_full hfull (h13.trans_le hfull)]
    exact ⟨hp, Or.inl rfl⟩
  · have hn : n = countFitting f.size (cfg.maxFileSize - f.size) 0 true b.pending := by
      change f.numEntriesToWrite b cfg.maxFileSize = _
      rw [TransactionLogFile.numEntriesToWrite, if_pos hmax, if_neg hfull]
    obtain ⟨hrest, htake⟩ := countFitting_spec hmax32 b.pending 0 true (fun _ => rfl) hp
    rw [← hn] at hrest htake
    refine ⟨hrest, ?_⟩
    rw [nextBytes_length]
    rcases htake with h0 | hle | ⟨-, hsize, h1⟩
    · exact Or.inl h0
    · right; left
      omega
    · exact Or.inr (Or.inr ⟨hsize, h1⟩)

theorem goesOn_write {seq : ℕ} (h : Writing cfg d0 b0 w wr) (hp : Packing cfg d0 w wr) (hpc : wr.pc = .write seq)
    (hmaxv : cfg.maxFileSize = 0 ∨ TRANSACTION_LOG_FILE_HEADER_SIZE < cfg.maxFileSize)
    (hmax32 : cfg.maxFileSize < UINT32_RANGE) (hio : io.Succeeds cfg w wr) : GoesOn cfg d0 b0 lo io w wr := by
  obtain ⟨w', wr', f, hstep, ha, hw, hpc'⟩ := write_spec h hpc hio
  have hpk := hp.packs
  rw [hpc] at hpk
  have hplace := h.place
  rw [Writer.Place, hpc] at hplace
  obtain ⟨hinc, hb, hseq, f0, hf0, ho⟩ := hplace
  rw [hseq, ha.file] at hf0
  obtain rfl := Option.some.inj hf0
  obtain ⟨-, hne⟩ := h.log.size_open ha.file ho
  have hend : fileEnd w.disk w.store.currentSequenceNumber = f.size := by rw [fileEnd_ne hne, ha.size]
  have hspec := fun hmax : 0 < cfg.maxFileSize =>
    numEntriesToWrite_spec hmax (hmaxv.resolve_left hmax.ne') hmax32 (hend ▸ (hpk hmax).1)
  set n := f.numEntriesToWrite wr.batch cfg.maxFileSize with hn
  refine ⟨w', wr', hstep, ha.writer, hw, ⟨?_, fun hmax => ?_⟩, ?_⟩
  · intro hmax q bytes hbytes hlong hne'
    by_cases hq : q = w.store.currentSequenceNumber
    · subst hq
      have hbytes' : bytes = w.disk.bytes w.store.currentSequenceNumber ++ wr.batch.nextBytes n := by
        rw [← Disk.bytes_eq hbytes, ha.bytes]
      have hget := Disk.get?_of_bytes hne
      obtain ⟨ts, rs, hwhole⟩ := (h.log.whole hget).resolve_left hne
      rcases (hspec hmax).2 with h0 | hle | ⟨hsmall, h1⟩
      · rw [h0, nextBytes_zero, List.append_nil] at hbytes'
        rw [hbytes'] at hlong hne' ⊢
        exact hp.long hmax _ _ hget hlong hne'
      · rw [hbytes', List.length_append, ← ha.size] at hlong
        omega
      · -- the one entry of a file that held only its header
        have hrs : rs = [] := by
          have hlen := hwhole.length
          have hge := frames_length_ge rs
          rw [← ha.size] at hlen
          exact List.length_eq_zero_iff.mp (by omega)
        have hfits : ∀ r ∈ wr.batch.nextRecords n, r.Fits := fun r hr =>
          records_fit wr.batch r (List.mem_of_mem_drop (List.mem_of_mem_take hr))
        rw [hbytes', TransactionLogEntryBatch.nextBytes, (hwhole.append hfits).records, hrs, List.nil_append, h1,
          TransactionLogEntryBatch.nextRecords, List.length_take, List.length_drop, records_length]
        rw [TransactionLogEntryBatch.isComplete, decide_eq_false_iff_not] at hinc
        omega
    · rw [ha.get?_ne q hq] at hbytes
      exact hp.long hmax q bytes hbytes hlong hne'
  · rw [hpc', ha.batch, pending_advanced]
    exact (hspec hmax).1
  · by_cases h0 : n = 0
    · have hbatch : wr'.batch = wr.batch := by
        rw [ha.batch, ← hn, h0]
        rfl
      refine effort_lt hbatch ?_ (by simp [Writer.rank, hpc, hpc'])
      intro hfr
      unfold Fresh at hfr
      simp only [ha.file, ho, if_true] at hfr
      rw [← ha.size] at hfr
      exact absurd h0 (numEntriesToWrite_ne_zero hmaxv hinc hfr.1)
    · apply effort_lt_of_progress
      rw [ha.batch, pending_advanced, List.length_drop]
      rw [TransactionLogEntryBatch.isComplete, decide_eq_false_iff_not] at hinc
      have hlen : wr.batch.pending.length = wr.batch.entries.length - wr.batch.currentEntryIndex := by
        rw [TransactionLogEntryBatch.pending, List.length_drop]
      omega

theorem goesOn (h : Writing cfg d0 b0 w wr) (hp : Packing cfg d0 w wr) (hpc : wr.pc ≠ .returned)
    (hmaxv : cfg.maxFileSize = 0 ∨ TRANSACTION_LOG_FILE_HEADER_SIZE < cfg.maxFileSize)
    (hmax32 : cfg.maxFileSize < UINT32_RANGE) (hage : ∀ d ∈ cfg.thresholdDuration, hi - lo < d) (hin : io.Within lo hi)
    (hio : io.Succeeds cfg w wr) : GoesOn cfg d0 b0 lo io w wr := by
  cases hc : wr.pc with
  | getFile => exact goesOn_getFile h hp hc
  | tryOpen seq => exact goesOn_tryOpen h hp hc hmaxv hio hin
  | rotateInner => exact goesOn_rotateInner h hp hc hmaxv
  | fixPosition seq => exact goesOn_fixPosition h hp hc
  | checkAge seq => exact goesOn_checkAge h hp hc hage hin
  | write seq => exact goesOn_write h hp hc hmaxv hmax32 hio
  | advance seq sizeBefore => exact goesOn_advance h hp hc hmaxv
  | setNext seq => exact goesOn_setNext h hp hc
  | finish => exact goesOn_finish h hp hc
  | returned => exact absurd hc hpc
  | threw e =>
    have hplace := h.place
    rw [Writer.Place, hc] at hplace
    exact hplace.elim

/-- The store is open and right about its files, which are whole, and its current file is
below 4 GiB. -/
structure Ready (w : World) : Prop where
  log : LogOk w.store w.disk
  bounded : Bounded w.store w.disk
  notClosing : w.store.isClosing = false

/-- A batch as a transaction hands it over: with entries, none of them written. -/
structure Unwritten (batch : TransactionLogEntryBatch) : Prop where
  entries : batch.entries ≠ []
  cursor : batch.currentEntryIndex = 0

theorem Unwritten.isComplete {batch : TransactionLogEntryBatch} (h : Unwritten batch) : batch.isComplete = false := by
  have := List.length_pos_iff.mpr h.entries
  rw [TransactionLogEntryBatch.isComplete, decide_eq_false_iff_not, h.cursor]
  omega

theorem Unwritten.pending {batch : TransactionLogEntryBatch} (h : Unwritten batch) : batch.pending = batch.entries := by
  rw [TransactionLogEntryBatch.pending, h.cursor, List.drop_zero]

/-- The first state of the call. -/
theorem beginWrite_writing {batch : TransactionLogEntryBatch} (cfg : StoreConfig) (hw : Ready w)
    (hb : Unwritten batch) :
    ∃ wr, (beginWrite w batch).writer = some wr ∧ wr.pc = .getFile ∧ wr.batch = batch ∧
      (beginWrite w batch).disk = w.disk ∧ (beginWrite w batch).store.sequenceFiles = w.store.sequenceFiles ∧
      (beginWrite w batch).store.currentSequenceNumber = w.store.currentSequenceNumber ∧
      Writing cfg w.disk batch (beginWrite w batch) wr := by
  refine ⟨⟨.getFile, batch, w.store.nextLogPosition⟩, ?_⟩
  unfold beginWrite
  simp only [hw.notClosing, Bool.false_eq_true, if_false, outerLoop_getFile hb.isComplete]
  refine ⟨trivial, trivial, trivial, trivial, rfl, rfl, hw.log.congr rfl rfl rfl, rfl, rfl, ?_,
    hb.isComplete, hw.bounded⟩
  simp [hb.cursor]

theorem appendsBatch_of_packs {batch : TransactionLogEntryBatch} (hw : Ready w) (hb : Unwritten batch)
    (hmax32 : cfg.maxFileSize < UINT32_RANGE)
    (hmaxv : cfg.maxFileSize = 0 ∨ TRANSACTION_LOG_FILE_HEADER_SIZE < cfg.maxFileSize)
    (hage : ∀ d ∈ cfg.thresholdDuration, 0 < d)
    (hpacks : 0 < cfg.maxFileSize → Packs cfg w.store w.disk batch.entries) : AppendsBatch cfg w batch := by
  intro stream lo hi hclock hin hsucc
  obtain ⟨wr0, hwr0, hpc0, hb0, hd0, hfiles0, hcur0, hwriting⟩ := beginWrite_writing cfg hw hb
  have hstart : Packing cfg w.disk (beginWrite w batch) wr0 := by
    refine ⟨?_, fun hmax => ?_⟩
    · rw [hd0]
      exact fun _ seq bytes hget _ hne => absurd hget hne
    · rw [hpc0, hb0, hb.pending]
      exact (hpacks hmax).congr hcur0 (by rw [hd0])
  have hage' : ∀ d ∈ cfg.thresholdDuration, hi - lo < d := by
    intro d hd
    have := hage d hd
    rw [show cfg.thresholdDuration = some d from hd, Option.getD_some] at hclock
    omega
  obtain ⟨n, w', hrun, ⟨wr', hwr', hwriting', hpacking'⟩, wr1, hwr1, hret⟩ :=
    Runs.exec_terminates (I := fun w' => ∃ wr, w'.writer = some wr ∧ Writing cfg w.disk batch w' wr ∧
      Packing cfg w.disk w' wr)
      (D := fun w' => ∃ wr, w'.writer = some wr ∧ wr.pc = .returned)
      (C := fun w' io => io.Within lo hi ∧ ∀ wr ∈ w'.writer, io.Succeeds cfg w' wr)
      (fun w' => (w'.writer.map (effort lo w')).getD 0)
      (by
        rintro w1 io ⟨wr1, hwr1, hg1, hp1⟩ hnd ⟨hin1, hs1⟩
        obtain ⟨w2, wr2, hstep, hwr2, hg2, hp2, hlt⟩ :=
          goesOn hg1 hp1 (fun hc => hnd ⟨wr1, hwr1, hc⟩) hmaxv hmax32 hage'
          hin1 (hs1 wr1 hwr1)
        refine ⟨w2, by rw [stepWriter, hwr1]; exact hstep, ⟨wr2, hwr2, hg2, hp2⟩, ?_⟩
        rw [hwr1, hwr2]
        exact hlt)
      ⟨wr0, hwr0, hwriting, hstart⟩ (fun n t ht _ => ⟨hin n, hsucc n t ht⟩)
  obtain rfl : wr' = wr1 := Option.some.inj (hwr'.symm.trans hwr1)
  refine ⟨n, w', wr', hrun, hwr', hret, ?_, fun seq bytes hb => hwriting'.log.whole hb, hpacking'.long⟩
  have hplace := hwriting'.place
  rw [Writer.Place, hret] at hplace
  have hcontent := hwriting'.content
  rw [List.take_of_length_le] at hcontent
  · exact hcontent
  · rw [records_length, ← hwriting'.entries]
    simpa [TransactionLogEntryBatch.isComplete] using hplace

end

end RocksdbJs
