import RocksdbJs.Sanity.BatchRun
import RocksdbJs.Sanity.Writer

/-! Where a `writeBatch` call leaves the place of the next entry when every system call succeeds and
no file reaches 4 GiB: behind every entry of the log. -/

namespace RocksdbJs

open TransactionLogStore

/-- The place of the next entry is in the current file, at or behind its end. -/
structure PastEnd (s : TransactionLogStore) (d : Disk) : Prop where
  seq : s.nextLogPosition.logSequenceNumber = s.currentSequenceNumber
  length : (d.bytes s.currentSequenceNumber).length ≤ s.nextLogPosition.positionInLogFile

/-- The store is right about the length of file `seq`. -/
def SizeTold (s : TransactionLogStore) (d : Disk) (seq : ℕ) : Prop :=
  (d.bytes seq).length < UINT32_RANGE ∧ ∀ f, s.sequenceFiles.get? seq = some f → f.size = (d.bytes seq).length

/-- What holds after a write. -/
def Writer.Ends (w : World) (wr : Writer) : Prop :=
  match wr.pc with
  | .advance seq _ => SizeTold w.store w.disk seq
  | .setNext seq => SizeTold w.store w.disk seq ∧
      (seq = w.store.currentSequenceNumber ∨ w.disk.logs.get? w.store.currentSequenceNumber = none)
  | .finish => Bounded w.store w.disk ∧ PastEnd w.store w.disk
  | .returned => Bounded w.store w.disk ∧ PastEnd w.store w.disk
  | _ => True

section
variable {cfg : StoreConfig} {d0 : Disk} {b0 : TransactionLogEntryBatch} {w w' : World}
    {wr wr' : Writer} {io : WriterCalls}

theorem SizeTold.congr {s s' : TransactionLogStore} {d d' : Disk} {seq : ℕ} (h : SizeTold s d seq)
    (hf : s'.sequenceFiles = s.sequenceFiles) (hl : d'.logs = d.logs) : SizeTold s' d' seq := by
  have hb : d'.bytes seq = d.bytes seq := by rw [Disk.bytes, hl]; rfl
  rw [SizeTold, hb, hf]
  exact h

/-- The size that a write records. -/
theorem write_size {seq : ℕ} {f g : TransactionLogFile} (h : Writing cfg d0 b0 w wr)
    (hpc : wr.pc = .write seq) (hio : io.Succeeds cfg w wr)
    (hf : w.store.sequenceFiles.get? w.store.currentSequenceNumber = some f)
    (hstep : writerStep cfg w wr io = some w')
    (hg : w'.store.sequenceFiles.get? w.store.currentSequenceNumber = some g) :
    g.size = add32 f.size (wr.batch.nextBytes (f.numEntriesToWrite wr.batch cfg.maxFileSize)).length := by
  obtain ⟨pc, batch, pos⟩ := wr
  obtain rfl : pc = .write seq := hpc
  obtain ⟨-, hb, rfl, f', hf', ho⟩ := h.place
  obtain rfl := Option.some.inj (hf.symm.trans hf')
  obtain ⟨hsize, -⟩ := h.log.size_open hf ho
  rw [Nat.mod_eq_of_lt hb] at hsize
  obtain ⟨hok, hret⟩ := hio f hf
  obtain ⟨total, hr⟩ := writeEntries_success (w.disk.bytes w.store.currentSequenceNumber)
    (h.log.version hf) (hsize ▸ hb) hok
    (writeEntries_returns hret)
  simp only [writerStep, hf, Option.bind_some, hr, reduceCtorEq, if_false, Option.isSome_none,
    Bool.false_eq_true] at hstep
  obtain rfl := Option.some.inj hstep
  obtain rfl := Option.some.inj ((SeqMap.get?_set_self _ _ _).symm.trans hg)
  rfl

/-- One step of the call, with its log and its end. -/
theorem writing_step (h : Writing cfg d0 b0 w wr) (hend : wr.Ends w) (hio : io.Succeeds cfg w wr)
    (hok : io.Ok cfg w.store wr) (hstep : writerStep cfg w wr io = some w') (hwr' : w'.writer = some wr') :
    Writing cfg d0 b0 w' wr' ∧ wr'.Ends w' := by
  have hsame : ∀ {z : World} {vr : Writer}, writerStep cfg w wr io = some z → z.writer = some vr →
      z = w' ∧ vr = wr' := by
    intro z vr hz hvr
    obtain rfl := Option.some.inj (hz.symm.trans hstep)
    exact ⟨rfl, Option.some.inj (hvr.symm.trans hwr')⟩
  cases hpc : wr.pc with
  | getFile =>
    obtain ⟨z, vr, hz, hq, hw, hnext, -⟩ := getFile_spec io h hpc
    obtain ⟨rfl, rfl⟩ := hsame hz hq.writer
    exact ⟨hw, by rw [Writer.Ends, hnext]; trivial⟩
  | tryOpen seq =>
    obtain ⟨z, vr, hz, hvr, -, hw, f, -, ⟨hnext, -⟩ | ⟨hnext, -⟩⟩ := tryOpen_spec h hpc hio
    all_goals
      obtain ⟨rfl, rfl⟩ := hsame hz hvr
      exact ⟨hw, by rw [Writer.Ends, hnext]; trivial⟩
  | rotateInner =>
    obtain ⟨z, vr, hz, hq, hw, hnext, -⟩ := rotateInner_spec io h hpc
    obtain ⟨rfl, rfl⟩ := hsame hz hq.writer
    exact ⟨hw, by rw [Writer.Ends, hnext]; trivial⟩
  | fixPosition seq =>
    obtain ⟨z, vr, hz, hq, hw, hnext, -⟩ := fixPosition_spec io h hpc
    obtain ⟨rfl, rfl⟩ := hsame hz hq.writer
    exact ⟨hw, by rw [Writer.Ends, hnext]; trivial⟩
  | checkAge seq =>
    obtain ⟨z, vr, hz, hq, hw, f, -, ⟨-, hnext, -⟩ | ⟨-, hnext, -⟩⟩ := checkAge_spec io h hpc
    all_goals
      obtain ⟨rfl, rfl⟩ := hsame hz hq.writer
      exact ⟨hw, by rw [Writer.Ends, hnext]; trivial⟩
  | write seq =>
    obtain ⟨z, vr, f, hz, happ, hw, hnext⟩ := write_spec h hpc hio
    obtain ⟨rfl, rfl⟩ := hsame hz happ.writer
    refine ⟨hw, ?_⟩
    rw [Writer.Ends, hnext]
    have hplace := h.place
    rw [Writer.Place, hpc] at hplace
    obtain ⟨-, hb, rfl, -⟩ := hplace
    -- the new length fits, so its 32-bit sum is exact
    have hlen : f.size + (wr.batch.nextBytes (f.numEntriesToWrite wr.batch cfg.maxFileSize)).length < UINT32_RANGE := by
      rw [WriterCalls.Ok, hpc] at hok
      rw [← toWrite_flatten]
      exact hok f happ.file
    have hbytes : (z.disk.bytes w.store.currentSequenceNumber).length =
        f.size + (wr.batch.nextBytes (f.numEntriesToWrite wr.batch cfg.maxFileSize)).length := by
      rw [happ.bytes, List.length_append, happ.size]
    refine ⟨hbytes ▸ hlen, fun g hg => ?_⟩
    rw [hbytes, write_size h hpc hio happ.file hstep hg, add32_eq hlen]
  | advance seq sizeBefore =>
    obtain ⟨z, vr, hz, hq, hw, hnext, hstore⟩ := advance_spec io h hpc
    obtain ⟨rfl, rfl⟩ := hsame hz hq.writer
    refine ⟨hw, ?_⟩
    rw [Writer.Ends, hnext]
    rw [Writer.Ends, hpc] at hend
    have hplace := h.place
    rw [Writer.Place, hpc] at hplace
    rcases hstore with hs | ⟨-, hs⟩
    · refine ⟨hend.congr (by rw [hs]; rfl) hq.logs, Or.inr ?_⟩
      rw [hs, hq.logs]
      exact h.log.next_fresh.2
    · refine ⟨hend.congr (by rw [hs]) hq.logs, Or.inl ?_⟩
      rw [hs]
      exact hplace.1
  | setNext seq =>
    obtain ⟨z, vr, hz, hq, hw, hnext, -⟩ := setNext_spec io h hpc
    obtain ⟨rfl, rfl⟩ := hsame hz hq.writer
    refine ⟨hw, ?_⟩
    rw [Writer.Ends, hpc] at hend
    obtain ⟨⟨hlen, hsize⟩, hcur⟩ := hend
    have hplace := h.place
    rw [Writer.Place, hpc] at hplace
    obtain ⟨f, hf⟩ := Option.isSome_iff_exists.mp hplace.1
    rw [writerStep, hpc] at hstep
    simp only [hf, Option.bind_some] at hstep
    obtain rfl := Option.some.inj hstep
    -- a new current file is empty, and the old one is as long as the store says
    have hfits : (w.disk.bytes w.store.currentSequenceNumber).length < UINT32_RANGE ∧
        (w.disk.bytes w.store.currentSequenceNumber).length ≤ f.size := by
      rcases hcur with rfl | hnone
      · exact ⟨hlen, (hsize f hf).ge⟩
      · rw [Disk.bytes_none hnone]
        exact ⟨by decide, Nat.zero_le _⟩
    rw [Writer.Ends, hnext]
    cases hc : wr.batch.isComplete with
    | true =>
      rw [outerLoop_finish hc]
      exact ⟨hfits.1, rfl, hfits.2⟩
    | false =>
      rw [outerLoop_getFile hc]
      trivial
  | finish =>
    obtain ⟨z, vr, hz, hq, hw, hnext, -⟩ := finish_spec io h hpc
    obtain ⟨rfl, rfl⟩ := hsame hz hq.writer
    refine ⟨hw, ?_⟩
    rw [writerStep, hpc] at hstep
    obtain rfl := Option.some.inj hstep
    rw [Writer.Ends, hpc] at hend
    rw [Writer.Ends, hnext]
    exact ⟨hend.1, hend.2.seq, hend.2.length⟩
  | returned =>
    rw [writerStep, hpc] at hstep
    cases hstep
  | threw e =>
    rw [writerStep, hpc] at hstep
    cases hstep

end

/-- Where the records of the log begin, in the order of `content`. -/
def Disk.places (d : Disk) : List LogPosition :=
  d.logs.entries.flatMap fun e => entryLocations e.1 TRANSACTION_LOG_FILE_HEADER_SIZE (fileRecords e.2)

theorem entryLocations_length (seq offset : ℕ) (rs : List LogRecord) :
    (entryLocations seq offset rs).length = rs.length := by
  induction rs generalizing offset with
  | nil => rfl
  | cons r rs ih => simp [entryLocations, ih]

theorem places_length (d : Disk) : d.places.length = d.content.length := by
  simp [Disk.places, Disk.content, List.length_flatMap, entryLocations_length]

theorem entryLocations_lt {seq : ℕ} {rs : List LogRecord} {offset : ℕ} {l : LogPosition}
    (h : l ∈ entryLocations seq offset rs) :
    l.logSequenceNumber = seq ∧ l.positionInLogFile < offset + (frames rs).length := by
  induction rs generalizing offset with
  | nil => cases h
  | cons r rs ih =>
    have hframe : 0 < r.frame.length := by
      rw [r.frame_length]
      simp only [TRANSACTION_LOG_ENTRY_HEADER_SIZE]
      omega
    rw [frames_cons, List.length_append]
    rcases List.mem_cons.mp h with rfl | h
    · exact ⟨rfl, by change offset < _; omega⟩
    · obtain ⟨h1, h2⟩ := ih h
      exact ⟨h1, by omega⟩

/-- Every record lies before the place of the next entry. -/
theorem places_lt_next {s : TransactionLogStore} {d : Disk} (h : LogOk s d) (hend : PastEnd s d) :
    ∀ p ∈ d.places, p < s.nextLogPosition := by
  intro p hp
  obtain ⟨⟨seq, bytes⟩, hmem, hp⟩ := List.mem_flatMap.mp hp
  have hget := SeqMap.get?_eq_some_iff.mpr hmem
  obtain ⟨hseq, hlt⟩ := entryLocations_lt hp
  dsimp only at hseq hlt
  have hle := h.log_le hget
  have hlen : TRANSACTION_LOG_FILE_HEADER_SIZE + (frames (fileRecords bytes)).length ≤ bytes.length := by
    rcases h.whole hget with rfl | ⟨ts, rs, hw⟩
    · cases hp
    · rw [hw.records, hw.length]
  rw [LogPosition.lt_iff, hend.seq, hseq]
  rcases Nat.lt_or_eq_of_le hle with hlt' | rfl
  · exact Or.inl hlt'
  · have hend' := hend.length
    rw [Disk.bytes_eq hget] at hend'
    exact Or.inr ⟨rfl, by omega⟩

end RocksdbJs
