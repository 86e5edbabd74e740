import RocksdbJs.Proofs.BatchAppend

/-! The conditions of `appendsBatch_of_packs` are needed. With a limit of thirteen bytes a new
file is full before its first entry, with an age limit of zero it is too old at once, and
either way the call rotates for ever; where a 32-bit sum lets an entry in that does not fit,
the file ends up longer than the limit with more than one entry. -/

namespace RocksdbJs

open TransactionLogStore

section Ample

theorem advanceIovecs_chunk : ∀ (k : ℕ) (iovecs : List Bytes), (∀ b ∈ iovecs, b ≠ []) →
    advanceIovecs (iovecs.take k).flatten.length iovecs = iovecs.drop k := by
  intro k
  induction k with
  | zero => intro iovecs _; cases iovecs <;> rfl
  | succ k ih =>
    intro iovecs h
    cases iovecs with
    | nil => rfl
    | cons iov iovecs =>
      have hpos : 0 < iov.length := List.length_pos_iff.mpr (h iov List.mem_cons_self)
      rw [List.take_succ_cons, List.flatten_cons, List.length_append, List.drop_succ_cons, advanceIovecs,
        if_neg (by omega), if_pos (by omega), Nat.add_sub_cancel_left]
      exact ih iovecs fun b hb => h b (List.mem_cons_of_mem _ hb)

/-- Enough calls that each take all they are offered write everything. -/
theorem writeBatchToFile_ample (K : ℕ) : ∀ (m : ℕ) (iovecs : List Bytes) (total : ℕ), iovecs.length ≤ m →
    (∀ b ∈ iovecs, b ≠ []) → iovecs.flatten.length ≤ K →
    failsEarly (List.replicate m (.count K)) iovecs = false ∧
      (writeBatchToFile (List.replicate m (.count K)) iovecs total).2 ≠ .blocked := by
  intro m
  induction m with
  | zero =>
    intro iovecs total hlen _ _
    obtain rfl := List.length_eq_zero_iff.mp (Nat.le_zero.mp hlen)
    exact ⟨rfl, by simp [writeBatchToFile]⟩
  | succ m ih =>
    intro iovecs total hlen hne hK
    cases iovecs with
    | nil => exact ⟨rfl, by simp [List.replicate_succ, writeBatchToFile]⟩
    | cons iov iovecs =>
      have hle : ((iov :: iovecs).take IOV_MAX).flatten.length ≤ K :=
        ((offered_front (iov :: iovecs)).length_le).trans hK
      have hw : min K ((iov :: iovecs).take IOV_MAX).flatten.length = ((iov :: iovecs).take IOV_MAX).flatten.length :=
        min_eq_right hle
      have hpos : ((iov :: iovecs).take IOV_MAX).flatten.length ≠ 0 := by
        have := List.length_pos_iff.mpr (hne iov List.mem_cons_self)
        simp only [IOV_MAX, List.take_succ_cons, List.flatten_cons, List.length_append]
        omega
      have hchunk := advanceIovecs_chunk IOV_MAX (iov :: iovecs) hne
      have hdrop : ((iov :: iovecs).drop IOV_MAX).length ≤ m := by
        rw [List.length_drop]
        simp only [IOV_MAX]
        omega
      have hflat : ((iov :: iovecs).drop IOV_MAX).flatten.length ≤ K := by
        rw [← hchunk, advanceIovecs_flatten, List.length_drop]
        omega
      have hrest := ih ((iov :: iovecs).drop IOV_MAX)
        (total + ((iov :: iovecs).take IOV_MAX).flatten.length) hdrop
        (fun b hb => hne b (List.mem_of_mem_drop hb)) hflat
      constructor
      · simp only [List.replicate_succ, failsEarly, List.isEmpty_cons, Bool.false_eq_true, if_false,
          hw, if_neg hpos, hchunk]
        exact hrest.1
      · simp only [List.replicate_succ, writeBatchToFile, List.isEmpty_cons, Bool.false_eq_true,
          if_false, hw, if_neg hpos,
          hchunk]
        exact hrest.2

/-- System calls that always succeed, on a clock that stands at `now`; a file already there
was last written at `mtime`. -/
def steadyCalls (batch : TransactionLogEntryBatch) (now mtime : ℤ) : WriterCalls where
  openCalls := { now := now, mtime := some mtime }
  now := now
  results := List.replicate batch.entries.length (.count (totalSize batch.entries))

theorem totalSize_take_drop (es : List TransactionLogEntry) (i n : ℕ) :
    totalSize ((es.drop i).take n) ≤ totalSize es := by
  unfold totalSize
  exact List.Sublist.sum_le_sum (((List.take_sublist _ _).trans (List.drop_sublist _ _)).map _) fun _ _ => Nat.zero_le _

theorem steadyCalls_succeed (cfg : StoreConfig) (w : World) {wr : Writer} {batch : TransactionLogEntryBatch}
    (h : wr.batch.entries = batch.entries) (now mtime : ℤ) : (steadyCalls batch now mtime).Succeeds cfg w wr := by
  unfold WriterCalls.Succeeds
  split
  · exact ⟨rfl, rfl, rfl, rfl⟩
  · intro f _
    apply writeBatchToFile_ample
    · rw [toWrite, List.length_map, TransactionLogEntryBatch.nextRecords, List.length_take,
        List.length_drop, records_length,
        ← h]
      omega
    · intro b hb
      obtain ⟨r, -, rfl⟩ := List.mem_map.mp hb
      intro hnil
      have := r.frame_length
      rw [hnil, List.length_nil, TRANSACTION_LOG_ENTRY_HEADER_SIZE] at this
      omega
    · rw [toWrite_flatten, nextBytes_length, ← h]
      exact totalSize_take_drop _ _ _
  · trivial

end Ample

section
variable {cfg : StoreConfig} {w : World} {batch : TransactionLogEntryBatch}

/-- How a call is shown not to append its batch: an invariant of the run with steady calls
that no good end meets. -/
theorem not_appendsBatch {I : World → Writer → Prop} (now mtime : ℤ) (hw : Ready w) (hb : Unwritten batch)
    (h0 : ∀ wr, (beginWrite w batch).writer = some wr → wr.pc = .getFile → wr.batch = batch → I (beginWrite w batch) wr)
    (hstep : ∀ w1 wr1, Writing cfg w.disk batch w1 wr1 → I w1 wr1 → wr1.pc ≠ .returned →
      ∃ w2 wr2, writerStep cfg w1 wr1 (steadyCalls batch now mtime) = some w2 ∧ w2.writer = some wr2 ∧
        Writing cfg w.disk batch w2 wr2 ∧ I w2 wr2)
    (hend : ∀ w1 wr1, Writing cfg w.disk batch w1 wr1 → I w1 wr1 → wr1.pc = .returned →
      ¬ BatchAppended cfg w.disk w1.disk batch) : ¬ AppendsBatch cfg w batch := by
  intro happ
  obtain ⟨wr0, hwr0, hpc0, hb0, -, -, -, hwriting⟩ := beginWrite_writing cfg hw hb
  have hrun : ∀ n w', Runs.exec (stepWriter cfg) (beginWrite w batch)
    (Runs.upTo (fun _ => steadyCalls batch now mtime) n) =
      some w' → ∃ wr, w'.writer = some wr ∧ Writing cfg w.disk batch w' wr ∧ I w' wr := by
    intro n w' hn
    refine Runs.exec_const_invariant (I := fun w' => ∃ wr, w'.writer = some wr ∧
      Writing cfg w.disk batch w' wr ∧ I w' wr)
      ?_ ⟨wr0, hwr0, hwriting, h0 wr0 hwr0 hpc0 hb0⟩ hn
    rintro w1 w2 ⟨wr1, hwr1, hg1, hi1⟩ h12
    rw [stepWriter, hwr1, Option.bind_some] at h12
    have hnr : wr1.pc ≠ .returned := by
      intro hr
      simp [writerStep, hr] at h12
    obtain ⟨w2', wr2, h12', hwr2, hg2, hi2⟩ := hstep w1 wr1 hg1 hi1 hnr
    obtain rfl := Option.some.inj (h12.symm.trans h12')
    exact ⟨wr2, hwr2, hg2, hi2⟩
  obtain ⟨n, w', wr', hn, hwr', hret, hgood⟩ := happ (fun _ => steadyCalls batch now mtime) now now (by omega)
    (fun _ => ⟨le_rfl, le_rfl, le_rfl, le_rfl⟩) (by
      intro n w' hn wr hwr
      obtain ⟨wr1, hwr1, hg1, -⟩ := hrun n w' hn
      obtain rfl := Option.some.inj (hwr1.symm.trans hwr)
      exact steadyCalls_succeed cfg w' hg1.entries now mtime)
  obtain ⟨wr1, hwr1, hg1, hi1⟩ := hrun n w' hn
  obtain rfl := Option.some.inj (hwr1.symm.trans hwr')
  exact hend w' wr1 hg1 hi1 hret hgood

/-- With a limit that no file is below, no entry is ever taken. -/
theorem not_appendsBatch_of_tiny (hw : Ready w) (hb : Unwritten batch) (hmax : 0 < cfg.maxFileSize)
    (htiny : cfg.maxFileSize ≤ TRANSACTION_LOG_FILE_HEADER_SIZE) : ¬ AppendsBatch cfg w batch := by
  refine not_appendsBatch (I := fun _ wr => wr.batch = batch) 0 0 hw hb (fun wr _ _ hbatch => hbatch) ?_ ?_
  · intro w1 wr1 hg hbatch hnr
    have hio := steadyCalls_succeed cfg w1 hg.entries 0 0
    cases hpc : wr1.pc with
    | getFile =>
      obtain ⟨w2, wr2, hstep, hq, hg2, -⟩ := getFile_spec (steadyCalls batch 0 0) hg hpc
      exact ⟨w2, wr2, hstep, hq.writer, hg2, hq.batch.trans hbatch⟩
    | tryOpen seq =>
      obtain ⟨w2, wr2, hstep, hwr2, hb2, hg2, -⟩ := tryOpen_spec hg hpc hio
      exact ⟨w2, wr2, hstep, hwr2, hg2, hb2.trans hbatch⟩
    | rotateInner =>
      obtain ⟨w2, wr2, hstep, hq, hg2, -⟩ := rotateInner_spec (steadyCalls batch 0 0) hg hpc
      exact ⟨w2, wr2, hstep, hq.writer, hg2, hq.batch.trans hbatch⟩
    | fixPosition seq =>
      obtain ⟨w2, wr2, hstep, hq, hg2, -⟩ := fixPosition_spec (steadyCalls batch 0 0) hg hpc
      exact ⟨w2, wr2, hstep, hq.writer, hg2, hq.batch.trans hbatch⟩
    | checkAge seq =>
      obtain ⟨w2, wr2, hstep, hq, hg2, -⟩ := checkAge_spec (steadyCalls batch 0 0) hg hpc
      exact ⟨w2, wr2, hstep, hq.writer, hg2, hq.batch.trans hbatch⟩
    | write seq =>
      obtain ⟨w2, wr2, f, hstep, ha, hg2, -⟩ := write_spec hg hpc hio
      refine ⟨w2, wr2, hstep, ha.writer, hg2, ?_⟩
      have hplace := hg.place
      rw [Writer.Place, hpc] at hplace
      obtain ⟨-, -, hseq, f0, hf0, ho⟩ := hplace
      rw [hseq, ha.file] at hf0
      obtain rfl := Option.some.inj hf0
      obtain ⟨-, hne⟩ := hg.log.size_open ha.file ho
      obtain ⟨ts, rs, hwhole⟩ := (hg.log.whole (Disk.get?_of_bytes hne)).resolve_left hne
      have hfull : cfg.maxFileSize ≤ f.size := by
        rw [ha.size, hwhole.length]
        omega
      rw [ha.batch, TransactionLogFile.numEntriesToWrite, if_pos hmax, if_pos hfull]
      exact hbatch
    | advance seq sizeBefore =>
      obtain ⟨w2, wr2, hstep, hq, hg2, -⟩ := advance_spec (steadyCalls batch 0 0) hg hpc
      exact ⟨w2, wr2, hstep, hq.writer, hg2, hq.batch.trans hbatch⟩
    | setNext seq =>
      obtain ⟨w2, wr2, hstep, hq, hg2, -⟩ := setNext_spec (steadyCalls batch 0 0) hg hpc
      exact ⟨w2, wr2, hstep, hq.writer, hg2, hq.batch.trans hbatch⟩
    | finish =>
      obtain ⟨w2, wr2, hstep, hq, hg2, -⟩ := finish_spec (steadyCalls batch 0 0) hg hpc
      exact ⟨w2, wr2, hstep, hq.writer, hg2, hq.batch.trans hbatch⟩
    | returned => exact absurd hpc hnr
    | threw e =>
      have hplace := hg.place
      rw [Writer.Place, hpc] at hplace
      exact hplace.elim
  · intro w1 wr1 hg hbatch hret
    have hplace := hg.place
    rw [Writer.Place, hret, hbatch, hb.isComplete] at hplace
    cases hplace

/-- The places before an append. -/
def WriterPc.early : WriterPc → Bool
  | .getFile => true
  | .tryOpen _ => true
  | .rotateInner => true
  | .fixPosition _ => true
  | .checkAge _ => true
  | _ => false

/-- An open current file was last written at or before `now`. -/
def WrittenBy (now : ℤ) (s : TransactionLogStore) : Prop :=
  ∀ f, s.sequenceFiles.get? s.currentSequenceNumber = some f → f.isOpen = true → f.fileLastWriteTime ≤ now

theorem writtenBy_advance {s : TransactionLogStore} {d : Disk} (h : LogOk s d) (now : ℤ) :
    WrittenBy now s.advanceSequence := by
  intro f hf
  have hnone := h.next_fresh.1
  rw [show s.advanceSequence.sequenceFiles.get? s.advanceSequence.currentSequenceNumber = none from hnone] at hf
  cases hf

/-- With an age limit that has passed at once, no file is young enough. -/
theorem not_appendsBatch_of_aged {d : ℤ} (hw : Ready w) (hb : Unwritten batch) (hage : cfg.thresholdDuration = some d)
    (hd : d ≤ 0) : ¬ AppendsBatch cfg w batch := by
  obtain ⟨now, hnow⟩ : ∃ now, WrittenBy now w.store := by
    cases hf : w.store.sequenceFiles.get? w.store.currentSequenceNumber with
    | none => exact ⟨0, fun f h => by rw [hf] at h; cases h⟩
    | some f =>
      refine ⟨f.fileLastWriteTime, fun g h _ => ?_⟩
      obtain rfl := Option.some.inj (hf.symm.trans h)
      exact le_rfl
  refine not_appendsBatch (I := fun w1 wr => wr.pc.early = true ∧ WrittenBy now w1.store) now now hw hb ?_ ?_ ?_
  · intro wr hwr hpc _
    obtain ⟨wr0, hwr0, -, -, -, hfiles, hcur, -⟩ := beginWrite_writing cfg hw hb
    refine ⟨by rw [hpc]; rfl, fun f hf ho => ?_⟩
    rw [hfiles, hcur] at hf
    exact hnow f hf ho
  · rintro w1 wr1 hg ⟨hearly, hby⟩ -
    cases hpc : wr1.pc with
    | getFile =>
      obtain ⟨w2, wr2, hstep, hq, hg2, hpc2, hcur, f, hf, hold⟩ := getFile_spec (steadyCalls batch now now) hg hpc
      refine ⟨w2, wr2, hstep, hq.writer, hg2, by rw [hpc2]; rfl, fun g hg' ho => ?_⟩
      rw [hcur, hf] at hg'
      obtain rfl := Option.some.inj hg'
      rcases hold with hold | ⟨-, hclosed⟩
      · exact hby f hold ho
      · rw [hclosed] at ho
        cases ho
    | tryOpen seq =>
      obtain ⟨w2, wr2, hstep, hwr2, -, hg2, f, hf, hcase⟩ :=
        tryOpen_spec hg hpc (steadyCalls_succeed cfg w1 hg.entries now now)
      refine ⟨w2, wr2, hstep, hwr2, hg2, ?_⟩
      rcases hcase with ⟨hpc2, -, -, hs, -⟩ | ⟨hpc2, -, f', hop⟩
      · exact ⟨by rw [hpc2]; rfl, hs ▸ hby⟩
      · refine ⟨by rw [hpc2]; rfl, fun g hg' ho => ?_⟩
        obtain ⟨files, hs⟩ := hop.store
        have hcur : w2.store.currentSequenceNumber = w1.store.currentSequenceNumber := by rw [hs]
        rw [hcur, hop.file] at hg'
        obtain rfl := Option.some.inj hg'
        rcases hop.bytes with ⟨-, -, htime⟩ | ⟨-, -, hsame, htime⟩
        · exact htime.le
        · cases hfo : f.isOpen with
          | true => exact hsame hfo ▸ hby f hf hfo
          | false => exact (htime hfo).le
    | rotateInner =>
      obtain ⟨w2, wr2, hstep, hq, hg2, hpc2, hs⟩ := rotateInner_spec (steadyCalls batch now now) hg hpc
      exact ⟨w2, wr2, hstep, hq.writer, hg2, by rw [hpc2]; rfl, hs ▸ writtenBy_advance hg.log now⟩
    | fixPosition seq =>
      obtain ⟨w2, wr2, hstep, hq, hg2, hpc2, hfiles, hcur, -⟩ := fixPosition_spec (steadyCalls batch now now) hg hpc
      refine ⟨w2, wr2, hstep, hq.writer, hg2, by rw [hpc2]; rfl, fun g hg' ho => ?_⟩
      rw [hfiles, hcur] at hg'
      exact hby g hg' ho
    | checkAge seq =>
      obtain ⟨w2, wr2, hstep, hq, hg2, f, hf, hcase⟩ := checkAge_spec (steadyCalls batch now now) hg hpc
      refine ⟨w2, wr2, hstep, hq.writer, hg2, ?_⟩
      rcases hcase with ⟨-, hpc2, hs⟩ | ⟨hyoung, -, -⟩
      · exact ⟨by rw [hpc2]; rfl, hs ▸ writtenBy_advance hg.log now⟩
      · have hplace := hg.place
        rw [Writer.Place, hpc] at hplace
        obtain ⟨-, -, hseq, f0, hf0, ho⟩ := hplace
        rw [hseq, hf] at hf0
        obtain rfl := Option.some.inj hf0
        have hle := hby f hf ho
        simp only [tooOld, hage, decide_eq_false_iff_not] at hyoung
        have hnow' : (steadyCalls batch now now).now = now := rfl
        omega
    | write seq => rw [hpc] at hearly; cases hearly
    | advance seq sizeBefore => rw [hpc] at hearly; cases hearly
    | setNext seq => rw [hpc] at hearly; cases hearly
    | finish => rw [hpc] at hearly; cases hearly
    | returned => rw [hpc] at hearly; cases hearly
    | threw e => rw [hpc] at hearly; cases hearly
  · rintro w1 wr1 - ⟨hearly, -⟩ hret
    rw [hret] at hearly
    cases hearly

/-- Where the entries do not pack exactly, the fit loop takes too much or leaves entries that
do not pack exactly either. -/
theorem countFitting_inexact {maxFileSize size : ℕ} (hmax : maxFileSize < UINT32_RANGE) :
    ∀ (es : List TransactionLogEntry) (total : ℕ) (first : Bool), (first = true → total = 0) →
      packsExactly maxFileSize size total first es = false →
      let n := countFitting size (maxFileSize - size) total first es
      packsExactly maxFileSize TRANSACTION_LOG_FILE_HEADER_SIZE 0 true (es.drop n) = false ∨
        (n ≠ 0 ∧ maxFileSize - size < total + totalSize (es.take n) ∧
          (first = true → size ≤ TRANSACTION_LOG_FILE_HEADER_SIZE → 2 ≤ n)) := by
  intro es
  induction es with
  | nil => intro total first _ hp; cases hp
  | cons e es ih =>
    intro total first hfirst hp
    rw [packsExactly] at hp
    by_cases hno : (TRANSACTION_LOG_FILE_HEADER_SIZE < size ∨ !first) ∧ maxFileSize - size < total + e.size
    · rw [if_pos hno, Bool.and_eq_false_iff, decide_eq_false_iff_not] at hp
      by_cases hlt : maxFileSize - size < add32 total e.size
      · have hn : countFitting size (maxFileSize - size) total first (e :: es) = 0 := if_pos ⟨hno.1, hlt⟩
        simp only [hn, List.drop_zero, packsExactly_fresh]
        exact Or.inl (hp.resolve_left (not_not.mpr hlt))
      · -- the sum has wrapped, and the entry is let in
        have hn : countFitting size (maxFileSize - size) total first (e :: es) =
            countFitting size (maxFileSize - size) (add32 total e.size) false es + 1 := by
          rw [countFitting, if_neg fun h => hlt h.2]
        simp only [hn, List.take_succ_cons, totalSize, List.map_cons, List.sum_cons]
        refine Or.inr ⟨Nat.succ_ne_zero _, by omega, fun hf hs => ?_⟩
        rcases hno.1 with h | h
        · omega
        · rw [hf] at h
          cases h
    · rw [if_neg hno] at hp
      have hsum : add32 total e.size = total + e.size ∧ ¬ ((TRANSACTION_LOG_FILE_HEADER_SIZE < size ∨ !first) ∧
          maxFileSize - size < add32 total e.size) := fits_exactly hmax hfirst hno
      have hn : countFitting size (maxFileSize - size) total first (e :: es) =
          countFitting size (maxFileSize - size) (total + e.size) false es + 1 := by
        rw [countFitting, if_neg hsum.2, hsum.1]
      simp only [hn, List.drop_succ_cons, List.take_succ_cons, totalSize, List.map_cons, List.sum_cons]
      rcases ih (total + e.size) false (by simp) hp with hrest | ⟨h0, hlt, -⟩
      · exact Or.inl hrest
      · refine Or.inr ⟨Nat.succ_ne_zero _, ?_, fun _ _ => by omega⟩
        simp only [totalSize] at hlt
        omega

/-- Some file has grown longer than the limit and holds more than one entry. -/
def Overfull (cfg : StoreConfig) (d0 d : Disk) : Prop :=
  ∃ seq, cfg.maxFileSize < (d.bytes seq).length ∧ (d0.bytes seq).length < (d.bytes seq).length ∧
    2 ≤ (fileRecords (d.bytes seq)).length

/-- Every file is at least as long as before, and holds as many records. -/
def Extends (d d' : Disk) : Prop :=
  ∀ seq, (d.bytes seq).length ≤ (d'.bytes seq).length ∧
    (fileRecords (d.bytes seq)).length ≤ (fileRecords (d'.bytes seq)).length

theorem extends_congr {d d' : Disk} (h : d'.logs = d.logs) : Extends d d' := by
  intro seq
  rw [bytes_congr h]
  exact ⟨le_rfl, le_rfl⟩

theorem Overfull.mono {d0 d d' : Disk} (h : Overfull cfg d0 d) (he : Extends d d') : Overfull cfg d0 d' := by
  obtain ⟨seq, h1, h2, h3⟩ := h
  exact ⟨seq, h1.trans_le (he seq).1, h2.trans_le (he seq).1, h3.trans (he seq).2⟩

theorem Overfull.not_long {d0 d : Disk} (hmax : 0 < cfg.maxFileSize) (h : Overfull cfg d0 d) :
    ¬ LongFilesHoldOne cfg d0 d := by
  obtain ⟨seq, h1, h2, h3⟩ := h
  intro hlong
  have hne : d.bytes seq ≠ [] := by
    intro hnil
    rw [hnil] at h1
    simp at h1
  have hone := hlong hmax seq _ (Disk.get?_of_bytes hne) h1 (fun hd0 => by
    rw [Disk.bytes_eq hd0] at h2
    omega)
  omega

/-- The age test at `now` of a file last written at `t`. -/
def agedAt (cfg : StoreConfig) (now t : ℤ) : Bool :=
  match cfg.thresholdDuration with
  | none => false
  | some d => decide (d ≤ now - t)

/-- How the age test on the current file comes out under steady calls. -/
def WillAge (cfg : StoreConfig) (now mtime : ℤ) (s : TransactionLogStore) (d : Disk) (b : Bool) : Prop :=
  (∀ f, s.sequenceFiles.get? s.currentSequenceNumber = some f → f.isOpen = true →
    agedAt cfg now f.fileLastWriteTime = b) ∧
    ((∀ f, s.sequenceFiles.get? s.currentSequenceNumber = some f → f.isOpen = false) →
      agedAt cfg now (if d.bytes s.currentSequenceNumber = [] then now else mtime) = b)

/-- What is left does not pack exactly, from where the steady calls will put it. -/
def Inexact (cfg : StoreConfig) (now mtime : ℤ) (w : World) (wr : Writer) : Prop :=
  match wr.pc with
  | .getFile => Ahead w wr
  | .tryOpen _ => Ahead w wr
  | .fixPosition _ => Ahead w wr
  | .checkAge _ => Ahead w wr
  | .write _ =>
    packsExactly cfg.maxFileSize (fileEnd w.disk w.store.currentSequenceNumber) 0 true wr.batch.pending = false
  | _ => packsExactly cfg.maxFileSize TRANSACTION_LOG_FILE_HEADER_SIZE 0 true wr.batch.pending = false
where
  Ahead (w : World) (wr : Writer) : Prop :=
    (WillAge cfg now mtime w.store w.disk false ∧
      packsExactly cfg.maxFileSize (fileEnd w.disk w.store.currentSequenceNumber) 0 true wr.batch.pending = false) ∨
    (WillAge cfg now mtime w.store w.disk true ∧
      packsExactly cfg.maxFileSize TRANSACTION_LOG_FILE_HEADER_SIZE 0 true wr.batch.pending = false)

/-- One step of a call whose entries do not pack exactly. -/
def FallsShort (cfg : StoreConfig) (d0 : Disk) (b0 : TransactionLogEntryBatch) (now mtime : ℤ) (w : World)
    (wr : Writer) : Prop :=
  ∃ w' wr', writerStep cfg w wr (steadyCalls b0 now mtime) = some w' ∧ w'.writer = some wr' ∧ Writing cfg d0 b0 w' wr' ∧
    Extends w.disk w'.disk ∧
    (Inexact cfg now mtime w wr → (∀ seq, (d0.bytes seq).length ≤ (w.disk.bytes seq).length) →
      Overfull cfg d0 w'.disk ∨ Inexact cfg now mtime w' wr')

section Inexact
variable {d0 : Disk} {b0 : TransactionLogEntryBatch} {wr : Writer} {now mtime : ℤ}

theorem WillAge.congr {s s' : TransactionLogStore} {d d' : Disk} {b : Bool} (h : WillAge cfg now mtime s d b)
    (hf : s'.sequenceFiles = s.sequenceFiles) (hc : s'.currentSequenceNumber = s.currentSequenceNumber)
    (hl : d'.logs = d.logs) : WillAge cfg now mtime s' d' b := by
  unfold WillAge
  rw [hf, hc, bytes_congr hl]
  exact h

/-- A file still to be made takes the rest as any new file does. -/
theorem ahead_new {w : World} (hnone : w.store.sequenceFiles.get? w.store.currentSequenceNumber = none)
    (hnil : w.disk.bytes w.store.currentSequenceNumber = [])
    (hp : packsExactly cfg.maxFileSize TRANSACTION_LOG_FILE_HEADER_SIZE 0 true wr.batch.pending = false) :
    Inexact.Ahead cfg now mtime w wr := by
  have hage : ∀ b, agedAt cfg now now = b → WillAge cfg now mtime w.store w.disk b := by
    intro b hb
    refine ⟨fun f hf => ?_, fun _ => by rw [if_pos hnil]; exact hb⟩
    rw [hnone] at hf
    cases hf
  cases hb : agedAt cfg now now with
  | false => exact Or.inl ⟨hage _ hb, by rw [fileEnd_nil hnil]; exact hp⟩
  | true => exact Or.inr ⟨hage _ hb, hp⟩

theorem ahead_advance {w w' : World} {wr' : Writer} (h : LogOk w.store w.disk) (hl : w'.disk.logs = w.disk.logs)
    (hs : w'.store = w.store.advanceSequence)
    (hp : packsExactly cfg.maxFileSize TRANSACTION_LOG_FILE_HEADER_SIZE 0 true wr'.batch.pending = false) :
    Inexact.Ahead cfg now mtime w' wr' := by
  obtain ⟨hnone, hd⟩ := h.next_fresh
  refine ahead_new ?_ ?_ hp
  · rw [hs]
    exact hnone
  · rw [hs, bytes_congr hl]
    exact Disk.bytes_none hd

theorem fallsShort_getFile (h : Writing cfg d0 b0 w wr) (hpc : wr.pc = .getFile) :
    FallsShort cfg d0 b0 now mtime w wr := by
  obtain ⟨w', wr', hstep, hq, hw, hpc', hcur, f, hf, hold⟩ := getFile_spec (steadyCalls b0 now mtime) h hpc
  refine ⟨w', wr', hstep, hq.writer, hw, extends_congr hq.logs, fun hi _ => Or.inr ?_⟩
  rw [Inexact, hpc] at hi
  rw [Inexact, hpc']
  have hage : ∀ b, WillAge cfg now mtime w.store w.disk b → WillAge cfg now mtime w'.store w'.disk b := by
    rintro b ⟨hopen, hclosed⟩
    unfold WillAge
    rw [hcur, hf, bytes_congr hq.logs]
    rcases hold with hold | ⟨hnone, hf0⟩
    · rw [hold] at hopen hclosed
      exact ⟨hopen, hclosed⟩
    · refine ⟨fun g hg ho => ?_, fun _ => hclosed fun g hg => ?_⟩
      · obtain rfl := Option.some.inj hg
        rw [hf0] at ho
        cases ho
      · rw [hnone] at hg
        cases hg
  rcases hi with ⟨ha, hp⟩ | ⟨ha, hp⟩
  · exact Or.inl ⟨hage _ ha, by rw [hcur, hq.batch, fileEnd_congr hq.logs]; exact hp⟩
  · exact Or.inr ⟨hage _ ha, by rw [hq.batch]; exact hp⟩

theorem extends_opened {s s' : TransactionLogStore} {d d' : Disk} {f f' : TransactionLogFile} {io : OpenCalls}
    (h : CurrentOpened s d f io s' d' f') : Extends d d' := by
  intro q
  by_cases hq : q = s.currentSequenceNumber
  · subst hq
    rcases h.bytes with ⟨hnil, -, -⟩ | ⟨hsame, -⟩
    · rw [hnil]
      exact ⟨Nat.zero_le _, Nat.zero_le _⟩
    · rw [hsame]
      exact ⟨le_rfl, le_rfl⟩
  · rw [Disk.bytes, Disk.bytes, h.bytes_ne q hq]
    exact ⟨le_rfl, le_rfl⟩

/-- Opening the current file under steady calls leaves its age test as foreseen. -/
theorem willAge_opened {s s' : TransactionLogStore} {d d' : Disk} {f f' : TransactionLogFile} {b : Bool}
    (hlog : LogOk s d) (hf : s.sequenceFiles.get? s.currentSequenceNumber = some f)
    (h : CurrentOpened s d f (steadyCalls b0 now mtime).openCalls s' d' f') (ha : WillAge cfg now mtime s d b) :
    WillAge cfg now mtime s' d' b := by
  obtain ⟨files, hs⟩ := h.store
  have hcur : s'.currentSequenceNumber = s.currentSequenceNumber := by rw [hs]
  obtain ⟨hopen, hclosed⟩ := ha
  have hstill : f.isOpen = false → ∀ g, s.sequenceFiles.get? s.currentSequenceNumber = some g → g.isOpen = false := by
    intro ho g hg
    obtain rfl := Option.some.inj (hf.symm.trans hg)
    exact ho
  unfold WillAge
  rw [hcur, h.file]
  refine ⟨fun g hg _ => ?_, fun hall => ?_⟩
  · obtain rfl := Option.some.inj hg
    rcases h.bytes with ⟨hnil, -, htime⟩ | ⟨-, hne, hsame, htime⟩
    · have ho : f.isOpen = false := by
        cases ho : f.isOpen with
        | false => rfl
        | true => exact absurd hnil (hlog.size_open hf ho).2
      have hb := hclosed (hstill ho)
      rw [if_pos hnil] at hb
      rw [htime]
      exact hb
    · cases ho : f.isOpen with
      | true => exact (hsame ho) ▸ hopen f hf ho
      | false =>
        have hb := hclosed (hstill ho)
        rw [if_neg hne] at hb
        rw [htime ho]
        exact hb
  · have := hall f' rfl
    rw [h.isOpen] at this
    cases this

theorem fallsShort_tryOpen {seq : ℕ} (h : Writing cfg d0 b0 w wr) (hpc : wr.pc = .tryOpen seq)
    (h13 : TRANSACTION_LOG_FILE_HEADER_SIZE < cfg.maxFileSize) : FallsShort cfg d0 b0 now mtime w wr := by
  obtain ⟨w', wr', hstep, hwr', hbatch, hw, f, hf, hcase⟩ :=
    tryOpen_spec h hpc (steadyCalls_succeed cfg w h.entries now mtime)
  rcases hcase with ⟨hpc', hmax, hfull, hs, hd⟩ | ⟨hpc', -, f', hop⟩
  · refine ⟨w', wr', hstep, hwr', hw, extends_congr (by rw [hd]), fun hi _ => Or.inr ?_⟩
    rw [Inexact, hpc] at hi
    rw [Inexact, hpc', hbatch]
    rcases hi with ⟨-, hp⟩ | ⟨-, hp⟩
    · have hopen : f.isOpen = true := by
        cases ho : f.isOpen with
        | true => rfl
        | false => rw [h.log.size_closed hf ho] at hfull; omega
      obtain ⟨hsize, hne⟩ := h.log.size_open hf hopen
      have hb : Bounded w.store w.disk := by
        have hplace := h.place
        rw [Writer.Place, hpc] at hplace
        exact hplace.2.1
      rw [Nat.mod_eq_of_lt hb] at hsize
      rw [fileEnd_ne hne, ← hsize, packsExactly_full hfull (h13.trans_le hfull)] at hp
      exact hp
    · exact hp
  · refine ⟨w', wr', hstep, hwr', hw, extends_opened hop, fun hi _ => Or.inr ?_⟩
    rw [Inexact, hpc] at hi
    rw [Inexact, hpc']
    obtain ⟨files, hs⟩ := hop.store
    have hcur : w'.store.currentSequenceNumber = w.store.currentSequenceNumber := by rw [hs]
    rcases hi with ⟨ha, hp⟩ | ⟨ha, hp⟩
    · exact Or.inl ⟨willAge_opened h.log hf hop ha, by rw [hcur, hbatch, hop.fileEnd]; exact hp⟩
    · exact Or.inr ⟨willAge_opened h.log hf hop ha, by rw [hbatch]; exact hp⟩

theorem fallsShort_rotateInner (h : Writing cfg d0 b0 w wr) (hpc : wr.pc = .rotateInner) :
    FallsShort cfg d0 b0 now mtime w wr := by
  obtain ⟨w', wr', hstep, hq, hw, hpc', hs⟩ := rotateInner_spec (steadyCalls b0 now mtime) h hpc
  refine ⟨w', wr', hstep, hq.writer, hw, extends_congr hq.logs, fun hi _ => Or.inr ?_⟩
  rw [Inexact, hpc] at hi
  rw [Inexact, hpc']
  exact ahead_advance h.log hq.logs hs (by rw [hq.batch]; exact hi)

theorem fallsShort_fixPosition {seq : ℕ} (h : Writing cfg d0 b0 w wr) (hpc : wr.pc = .fixPosition seq) :
    FallsShort cfg d0 b0 now mtime w wr := by
  obtain ⟨w', wr', hstep, hq, hw, hpc', hfiles, hcur, -⟩ := fixPosition_spec (steadyCalls b0 now mtime) h hpc
  refine ⟨w', wr', hstep, hq.writer, hw, extends_congr hq.logs, fun hi _ => Or.inr ?_⟩
  rw [Inexact, hpc] at hi
  rw [Inexact, hpc']
  rcases hi with ⟨ha, hp⟩ | ⟨ha, hp⟩
  · exact Or.inl ⟨ha.congr hfiles hcur hq.logs, by rw [hcur, hq.batch, fileEnd_congr hq.logs]; exact hp⟩
  · exact Or.inr ⟨ha.congr hfiles hcur hq.logs, by rw [hq.batch]; exact hp⟩

theorem fallsShort_checkAge {seq : ℕ} (h : Writing cfg d0 b0 w wr) (hpc : wr.pc = .checkAge seq) :
    FallsShort cfg d0 b0 now mtime w wr := by
  obtain ⟨w', wr', hstep, hq, hw, f, hf, hcase⟩ := checkAge_spec (steadyCalls b0 now mtime) h hpc
  refine ⟨w', wr', hstep, hq.writer, hw, extends_congr hq.logs, fun hi _ => Or.inr ?_⟩
  rw [Inexact, hpc] at hi
  have hplace := h.place
  rw [Writer.Place, hpc] at hplace
  obtain ⟨-, -, hseq, f0, hf0, ho⟩ := hplace
  rw [hseq, hf] at hf0
  obtain rfl := Option.some.inj hf0
  -- the test that `WillAge` foresees is the one made here
  have htest : tooOld cfg f (steadyCalls b0 now mtime).now = agedAt cfg now f.fileLastWriteTime := rfl
  rcases hcase with ⟨hold, hpc', hs⟩ | ⟨hyoung, hpc', hs⟩
  · rw [Inexact, hpc']
    rcases hi with ⟨ha, -⟩ | ⟨-, hp⟩
    · rw [htest, ha.1 f hf ho] at hold
      cases hold
    · exact ahead_advance h.log hq.logs hs (by rw [hq.batch]; exact hp)
  · rw [Inexact, hpc', hs, hq.batch, fileEnd_congr hq.logs]
    rcases hi with ⟨-, hp⟩ | ⟨ha, -⟩
    · exact hp
    · rw [htest, ha.1 f hf ho] at hyoung
      cases hyoung

theorem nextRecords_length {b : TransactionLogEntryBatch} {n : ℕ} (h : n ≤ b.pending.length) :
    (b.nextRecords n).length = n := by
  rw [TransactionLogEntryBatch.pending, List.length_drop] at h
  rw [TransactionLogEntryBatch.nextRecords, List.length_take, List.length_drop, records_length]
  omega

/-- What one append takes of a batch that does not pack exactly. -/
theorem numEntriesToWrite_inexact {f : TransactionLogFile} {b : TransactionLogEntryBatch}
    (h13 : TRANSACTION_LOG_FILE_HEADER_SIZE < cfg.maxFileSize) (hmax32 : cfg.maxFileSize < UINT32_RANGE)
    (hp : packsExactly cfg.maxFileSize f.size 0 true b.pending = false) :
    let n := f.numEntriesToWrite b cfg.maxFileSize
    packsExactly cfg.maxFileSize TRANSACTION_LOG_FILE_HEADER_SIZE 0 true (b.pending.drop n) = false ∨
      (n ≠ 0 ∧ cfg.maxFileSize < f.size + (b.nextBytes n).length ∧
        (f.size ≤ TRANSACTION_LOG_FILE_HEADER_SIZE → 2 ≤ n)) := by
  intro n
  have hmax : 0 < cfg.maxFileSize := (Nat.zero_le _).trans_lt h13
  by_cases hfull : cfg.maxFileSize ≤ f.size
  · left
    have hn : n = 0 := by
      change f.numEntriesToWrite b cfg.maxFileSize = 0
      rw [TransactionLogFile.numEntriesToWrite, if_pos hmax, if_pos hfull]
    rw [hn, List.drop_zero, ← packsExactly_full hfull (h13.trans_le hfull)]
    exact hp
  · have hn : n = countFitting f.size (cfg.maxFileSize - f.size) 0 true b.pending := by
      change f.numEntriesToWrite b cfg.maxFileSize = _
      rw [TransactionLogFile.numEntriesToWrite, if_pos hmax, if_neg hfull]
    rw [nextBytes_length]
    rcases countFitting_inexact hmax32 b.pending 0 true (fun _ => rfl) hp with hrest | ⟨h0, hlt, htwo⟩
    · rw [← hn] at hrest
      exact Or.inl hrest
    · rw [← hn] at h0 hlt htwo
      exact Or.inr ⟨h0, by omega, htwo rfl⟩

theorem fallsShort_write {seq : ℕ} (h : Writing cfg d0 b0 w wr) (hpc : wr.pc = .write seq)
    (h13 : TRANSACTION_LOG_FILE_HEADER_SIZE < cfg.maxFileSize) (hmax32 : cfg.maxFileSize < UINT32_RANGE) :
    FallsShort cfg d0 b0 now mtime w wr := by
  obtain ⟨w', wr', f, hstep, ha, hw, hpc'⟩ := write_spec h hpc (steadyCalls_succeed cfg w h.entries now mtime)
  have hplace := h.place
  rw [Writer.Place, hpc] at hplace
  obtain ⟨hinc, -, hseq, f0, hf0, ho⟩ := hplace
  rw [hseq, ha.file] at hf0
  obtain rfl := Option.some.inj hf0
  obtain ⟨-, hne⟩ := h.log.size_open ha.file ho
  obtain ⟨ts, rs, hwhole⟩ := (h.log.whole (Disk.get?_of_bytes hne)).resolve_left hne
  set n := f.numEntriesToWrite wr.batch cfg.maxFileSize with hn
  have hfits : ∀ r ∈ wr.batch.nextRecords n, r.Fits := fun r hr =>
    records_fit wr.batch r (List.mem_of_mem_drop (List.mem_of_mem_take hr))
  have hrecords : (fileRecords (w'.disk.bytes w.store.currentSequenceNumber)).length =
      (fileRecords (w.disk.bytes w.store.currentSequenceNumber)).length + (wr.batch.nextRecords n).length := by
    rw [ha.bytes, ← hn, TransactionLogEntryBatch.nextBytes, (hwhole.append hfits).records, hwhole.records,
      List.length_append]
  have hext : Extends w.disk w'.disk := by
    intro q
    by_cases hq : q = w.store.currentSequenceNumber
    · subst hq
      rw [hrecords, ha.bytes, List.length_append]
      omega
    · rw [Disk.bytes, Disk.bytes, ha.get?_ne q hq]
      exact ⟨le_rfl, le_rfl⟩
  refine ⟨w', wr', hstep, ha.writer, hw, hext, fun hi hd0 => ?_⟩
  rw [Inexact, hpc, fileEnd_ne hne, ← ha.size] at hi
  rcases numEntriesToWrite_inexact h13 hmax32 hi with hrest | ⟨h0, hlt, htwo⟩
  · right
    rw [Inexact, hpc', ha.batch, pending_advanced]
    exact hrest
  · left
    have hlen := hwhole.length
    have hge := frames_length_ge rs
    have htaken : (wr.batch.nextRecords n).length = n :=
      nextRecords_length (numEntriesToWrite_le f wr.batch cfg.maxFileSize)
    have hpos := nextBytes_length_pos h0 hinc
    refine ⟨w.store.currentSequenceNumber, ?_, ?_, ?_⟩
    · rw [ha.bytes, List.length_append, ← ha.size]
      exact hlt
    · have := hd0 w.store.currentSequenceNumber
      rw [ha.bytes, List.length_append]
      omega
    · rw [hrecords, hwhole.records, htaken]
      by_cases hsmall : f.size ≤ TRANSACTION_LOG_FILE_HEADER_SIZE
      · exact (htwo hsmall).trans (Nat.le_add_left _ _)
      · -- the file held an entry before
        have hrs : rs ≠ [] := by
          rintro rfl
          rw [← ha.size] at hlen
          simp at hlen
          omega
        have := List.length_pos_iff.mpr hrs
        omega

theorem fallsShort_setNext {seq : ℕ} (h : Writing cfg d0 b0 w wr) (hpc : wr.pc = .setNext seq) :
    FallsShort cfg d0 b0 now mtime w wr := by
  obtain ⟨w', wr', hstep, hq, hw, hpc', hfiles, hcur⟩ := setNext_spec (steadyCalls b0 now mtime) h hpc
  have hplace := h.place
  rw [Writer.Place, hpc] at hplace
  refine ⟨w', wr', hstep, hq.writer, hw, extends_congr hq.logs, fun hi _ => Or.inr ?_⟩
  rw [Inexact, hpc] at hi
  cases hc : wr.batch.isComplete with
  | true =>
    rw [Inexact, hpc', outerLoop_finish hc, hq.batch]
    exact hi
  | false =>
    rw [Inexact, hpc', outerLoop_getFile hc]
    obtain ⟨-, hnone, hd⟩ := hplace.2 hc
    refine ahead_new ?_ ?_ (by rw [hq.batch]; exact hi)
    · rw [hfiles, hcur]
      exact hnone
    · rw [hcur, bytes_congr hq.logs]
      exact Disk.bytes_none hd

theorem fallsShort (now mtime : ℤ) (h : Writing cfg d0 b0 w wr) (hpc : wr.pc ≠ .returned)
    (h13 : TRANSACTION_LOG_FILE_HEADER_SIZE < cfg.maxFileSize) (hmax32 : cfg.maxFileSize < UINT32_RANGE) :
    FallsShort cfg d0 b0 now mtime w wr := by
  cases hc : wr.pc with
  | getFile => exact fallsShort_getFile h hc
  | tryOpen seq => exact fallsShort_tryOpen h hc h13
  | rotateInner => exact fallsShort_rotateInner h hc
  | fixPosition seq => exact fallsShort_fixPosition h hc
  | checkAge seq => exact fallsShort_checkAge h hc
  | write seq => exact fallsShort_write h hc h13 hmax32
  | advance seq sizeBefore =>
    obtain ⟨w', wr', hstep, hq, hw, hpc', -⟩ := advance_spec (steadyCalls b0 now mtime) h hc
    refine ⟨w', wr', hstep, hq.writer, hw, extends_congr hq.logs, fun hi _ => Or.inr ?_⟩
    rw [Inexact, hc] at hi
    rw [Inexact, hpc', hq.batch]
    exact hi
  | setNext seq => exact fallsShort_setNext h hc
  | finish =>
    obtain ⟨w', wr', hstep, hq, hw, hpc', -⟩ := finish_spec (steadyCalls b0 now mtime) h hc
    refine ⟨w', wr', hstep, hq.writer, hw, extends_congr hq.logs, fun hi _ => Or.inr ?_⟩
    rw [Inexact, hc] at hi
    rw [Inexact, hpc', hq.batch]
    exact hi
  | returned => exact absurd hc hpc
  | threw e =>
    have hplace := h.place
    rw [Writer.Place, hc] at hplace
    exact hplace.elim

end Inexact

/-- The call under steady calls, from a state where the entries will not pack exactly. -/
theorem not_appendsBatch_of_ahead (now mtime : ℤ) (hw : Ready w) (hb : Unwritten batch)
    (h13 : TRANSACTION_LOG_FILE_HEADER_SIZE < cfg.maxFileSize) (hmax32 : cfg.maxFileSize < UINT32_RANGE)
    (hahead : ∀ wr : Writer, wr.batch = batch → Inexact.Ahead cfg now mtime w wr) : ¬ AppendsBatch cfg w batch := by
  obtain ⟨wr0, hwr0, -, -, hd0, hfiles0, hcur0, -⟩ := beginWrite_writing cfg hw hb
  refine not_appendsBatch (I := fun w1 wr1 => (∀ seq, (w.disk.bytes seq).length ≤ (w1.disk.bytes seq).length) ∧
    (Overfull cfg w.disk w1.disk ∨ Inexact cfg now mtime w1 wr1)) now mtime hw hb ?_ ?_ ?_
  · intro wr _ hpc hbatch
    refine ⟨fun seq => by rw [hd0], Or.inr ?_⟩
    rw [Inexact, hpc]
    rcases hahead wr hbatch with ⟨ha, hp⟩ | ⟨ha, hp⟩
    · exact Or.inl ⟨ha.congr hfiles0 hcur0 (by rw [hd0]), by rw [hcur0, hd0]; exact hp⟩
    · exact Or.inr ⟨ha.congr hfiles0 hcur0 (by rw [hd0]), hp⟩
  · rintro w1 wr1 hg ⟨hlen, hcase⟩ hnr
    obtain ⟨w2, wr2, hstep, hwr2, hg2, hext, hnext⟩ := fallsShort now mtime hg hnr h13 hmax32
    refine ⟨w2, wr2, hstep, hwr2, hg2, fun seq => (hlen seq).trans (hext seq).1, ?_⟩
    rcases hcase with hover | hinexact
    · exact Or.inl (hover.mono hext)
    · exact hnext hinexact hlen
  · rintro w1 wr1 hg ⟨-, hcase⟩ hret happ
    have hplace := hg.place
    rw [Writer.Place, hret] at hplace
    rcases hcase with hover | hinexact
    · exact hover.not_long ((Nat.zero_le _).trans_lt h13) happ.long
    · -- nothing is left, and nothing packs exactly
      have hnil : wr1.batch.pending = [] := by
        rw [TransactionLogEntryBatch.isComplete, decide_eq_true_eq] at hplace
        exact List.drop_eq_nil_of_le hplace
      rw [Inexact, hret, hnil] at hinexact
      cases hinexact

/-- A time at which the age test on the current file comes out as wanted. -/
theorem exists_willAge (cfg : StoreConfig) (s : TransactionLogStore) (d : Disk) (b : Bool) (age : ℤ)
    (hage : ∀ now, agedAt cfg now (now - age) = b) (hnew : d.bytes s.currentSequenceNumber = [] → agedAt cfg 0 0 = b) :
    ∃ now, WillAge cfg now (now - age) s d b := by
  have hzero : ∀ now, agedAt cfg now now = agedAt cfg 0 0 := by
    intro now
    unfold agedAt
    rw [Int.sub_self, Int.sub_self]
  have hclosed : ∀ now, agedAt cfg now (if d.bytes s.currentSequenceNumber = [] then now else now - age) = b := by
    intro now
    split_ifs with hnil
    · rw [hzero]
      exact hnew hnil
    · exact hage now
  cases hf : s.sequenceFiles.get? s.currentSequenceNumber with
  | none =>
    refine ⟨0, ?_, fun _ => hclosed 0⟩
    intro f h
    rw [hf] at h
    cases h
  | some f =>
    refine ⟨f.fileLastWriteTime + age, fun g hg _ => ?_, fun _ => hclosed _⟩
    obtain rfl := Option.some.inj (hf.symm.trans hg)
    have := hage (f.fileLastWriteTime + age)
    rwa [Int.add_sub_cancel] at this

/-- Where a 32-bit sum lets an entry in that does not fit, the batch is not appended as it should be. -/
theorem not_appendsBatch_of_inexact (hw : Ready w) (hb : Unwritten batch)
    (h13 : TRANSACTION_LOG_FILE_HEADER_SIZE < cfg.maxFileSize) (hmax32 : cfg.maxFileSize < UINT32_RANGE)
    (hage : ∀ d ∈ cfg.thresholdDuration, 0 < d) (hpacks : ¬ Packs cfg w.store w.disk batch.entries) :
    ¬ AppendsBatch cfg w batch := by
  have hyoung : ∀ now, agedAt cfg now now = false := by
    intro now
    unfold agedAt
    split
    · rfl
    · rename_i d hd
      have := hage d hd
      rw [decide_eq_false_iff_not]
      omega
  by_cases hfrom :
      packsExactly cfg.maxFileSize (fileEnd w.disk w.store.currentSequenceNumber) 0 true batch.entries = true
  · -- the entries pack exactly behind the current file's, but not from a new file on
    obtain ⟨hsome, hnew⟩ := Classical.not_imp.mp fun h => hpacks ⟨hfrom, h⟩
    obtain ⟨d, hd⟩ := Option.isSome_iff_exists.mp hsome
    have hne : w.disk.bytes w.store.currentSequenceNumber ≠ [] := by
      intro hnil
      rw [fileEnd_nil hnil] at hfrom
      exact hnew hfrom
    obtain ⟨now, hwill⟩ := exists_willAge cfg w.store w.disk true d
      (fun now => by simp [agedAt, hd]) (fun hnil => absurd hnil hne)
    refine not_appendsBatch_of_ahead now (now - d) hw hb h13 hmax32 fun wr hbatch => Or.inr ⟨hwill, ?_⟩
    rw [hbatch, hb.pending]
    exact Bool.eq_false_of_not_eq_true hnew
  · obtain ⟨now, hwill⟩ := exists_willAge cfg w.store w.disk false 0
      (fun now => by rw [Int.sub_zero]; exact hyoung now) (fun _ => hyoung 0)
    refine not_appendsBatch_of_ahead now (now - 0) hw hb h13 hmax32 fun wr hbatch => Or.inl ⟨hwill, ?_⟩
    rw [hbatch, hb.pending]
    exact Bool.eq_false_of_not_eq_true hfrom

/-- Whatever limits the options let through, `writeBatch` returns with exactly its batch
appended if and only if a new file is below both limits and the 32-bit sums of the fit loop
decide as exact ones would. -/
theorem appendsBatch_iff (hw : Ready w) (hb : Unwritten batch) (hmax32 : cfg.maxFileSize < UINT32_RANGE) :
    AppendsBatch cfg w batch ↔
      (cfg.maxFileSize = 0 ∨ TRANSACTION_LOG_FILE_HEADER_SIZE < cfg.maxFileSize) ∧
        (∀ d ∈ cfg.thresholdDuration, 0 < d) ∧
        (0 < cfg.maxFileSize → Packs cfg w.store w.disk batch.entries) := by
  constructor
  · intro happ
    have hsize : cfg.maxFileSize = 0 ∨ TRANSACTION_LOG_FILE_HEADER_SIZE < cfg.maxFileSize := by
      by_contra hsize
      obtain ⟨hpos, hle⟩ := not_or.mp hsize
      exact not_appendsBatch_of_tiny hw hb (Nat.pos_of_ne_zero hpos) (not_lt.mp hle) happ
    have hage : ∀ d ∈ cfg.thresholdDuration, 0 < d := by
      intro d hd
      by_contra hle
      exact not_appendsBatch_of_aged hw hb hd (not_lt.mp hle) happ
    refine ⟨hsize, hage, fun hmax => ?_⟩
    by_contra hpacks
    exact not_appendsBatch_of_inexact hw hb (hsize.resolve_left hmax.ne') hmax32 hage hpacks happ
  · rintro ⟨hsize, hage, hpacks⟩
    exact appendsBatch_of_packs hw hb hmax32 hsize hage hpacks

end

/-- The first batch of a new log, at time 1. -/
def firstBatch : TransactionLogEntryBatch where
  timestamp := ⟨0x3FF0000000000000⟩
  entries := [oneByteEntry 7, ⟨[8, 9], by decide⟩]

theorem logOk_empty : LogOk {} {} where
  whole := nofun
  version := nofun
  size_open := nofun
  size_closed := nofun
  file_le := nofun
  log_le := nofun
  current_lt := by decide

theorem ready_empty : Ready {} := ⟨logOk_empty, by unfold Bounded; decide, rfl⟩

theorem appendsBatch_empty_log : AppendsBatch { maxFileSize := 200 } {} firstBatch :=
  (appendsBatch_iff ready_empty ⟨by decide, rfl⟩ (by decide)).mpr ⟨Or.inr (by decide), nofun, fun _ => by decide⟩

/-- A limit of thirteen bytes passes the check of `Open`, and no call returns. -/
theorem thirteen_bytes_never_append :
    acceptsTransactionLogMaxSize 13 = true ∧ ¬ AppendsBatch { maxFileSize := 13 } {} firstBatch :=
  ⟨rfl, not_appendsBatch_of_tiny ready_empty ⟨by decide, rfl⟩ (by decide) (by decide)⟩

end RocksdbJs
