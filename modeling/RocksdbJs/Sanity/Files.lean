import RocksdbJs.Sanity.Append
import RocksdbJs.Spec.LogWriter

/-! What the store believes of its files against what the disk holds: no size it
records runs past the file, and the current number is the last one given out. Every
operation below the level of a batch keeps this, provided the header of each new file
lands whole. -/

namespace RocksdbJs

namespace TransactionLogStore

/-- The size the store holds for file `seq`, zero when it has no such file. -/
def sizeOf (s : TransactionLogStore) (seq : ℕ) : ℕ := ((s.sequenceFiles.get? seq).map TransactionLogFile.size).getD 0

/-- The end of the current log file by that size. -/
def appendPoint (s : TransactionLogStore) : LogPosition := ⟨s.sizeOf s.currentSequenceNumber, s.currentSequenceNumber⟩

theorem sizeOf_eq {s : TransactionLogStore} {seq : ℕ} {f : TransactionLogFile}
    (h : s.sequenceFiles.get? seq = some f) : s.sizeOf seq = f.size := by
  rw [sizeOf, h]; rfl

theorem sizeOf_none {s : TransactionLogStore} {seq : ℕ} (h : s.sequenceFiles.get? seq = none) : s.sizeOf seq = 0 := by
  rw [sizeOf, h]; rfl

theorem sizeOf_setFile (s : TransactionLogStore) (seq q : ℕ) (f : TransactionLogFile) :
    (s.setFile seq f).sizeOf q = if q = seq then f.size else s.sizeOf q := by
  unfold sizeOf setFile
  simp only [SeqMap.get?_set]
  split_ifs <;> rfl

end TransactionLogStore

theorem Disk.bytes_set (d : Disk) (seq q : ℕ) (bytes : Bytes) (dir : Bool) :
    ({ d with logs := d.logs.set seq bytes, directory := dir } : Disk).bytes q = if q = seq then bytes
      else d.bytes q := by
  unfold Disk.bytes
  simp only [SeqMap.get?_set]
  split_ifs <;> rfl

/-- A flush writes to `txn.state` and nothing else. -/
theorem writeFlushedPosition_cases (s : TransactionLogStore) (d : Disk) (p : LogPosition) :
    ∃ stream written state, s.writeFlushedPosition d p =
      ({ s with flushedStateFile := stream, lastWrittenFlushedPosition := written }, { d with txnState := state }) := by
  unfold TransactionLogStore.writeFlushedPosition
  split_ifs with heq hopen
  · exact ⟨_, _, _, rfl⟩
  · exact ⟨_, _, _, rfl⟩
  · simp only
    split <;> exact ⟨_, _, _, rfl⟩

theorem writeFlushedPosition_txnState (s : TransactionLogStore) (d : Disk) (p : LogPosition) :
    (s.writeFlushedPosition d p).2.txnState = d.txnState ∨ (s.writeFlushedPosition d p).2.txnState = some p := by
  simp only [TransactionLogStore.writeFlushedPosition]
  by_cases heq : p = s.lastWrittenFlushedPosition
  · rw [if_pos heq]
    exact Or.inl rfl
  · rw [if_neg heq]
    split
    · exact Or.inl rfl
    · exact Or.inr rfl
    · exact Or.inl rfl

/-- The position a flush takes is none, or a sampled one that it covers. -/
theorem latestSequencePosition_spec (s : TransactionLogStore) (n : ℕ) :
    s.latestSequencePosition n = ⟨0, 0⟩ ∨ ∃ sp ∈ s.recentlyCommittedSequencePositions,
      sp.rocksSequenceNumber ≤ n ∧ sp.position = s.latestSequencePosition n := by
  unfold TransactionLogStore.latestSequencePosition
  generalize s.recentlyCommittedSequencePositions = samples
  -- the accumulator of the loop is the start value or one of the samples behind it
  have hloop : ∀ (l : List SequencePosition) (acc : LogPosition),
      let r := l.foldl (fun latest sp =>
        if sp.rocksSequenceNumber ≤ n ∧ latest < sp.position then sp.position else latest) acc
      r = acc ∨ ∃ sp ∈ l, sp.rocksSequenceNumber ≤ n ∧ sp.position = r := by
    intro l
    induction l with
    | nil => exact fun acc => Or.inl rfl
    | cons sp l ih =>
      intro acc
      simp only [List.foldl_cons]
      split_ifs with hc
      · rcases ih sp.position with he | ⟨sp', hm, hle, he⟩
        · exact Or.inr ⟨sp, List.mem_cons_self, hc.1, he.symm⟩
        · exact Or.inr ⟨sp', List.mem_cons_of_mem _ hm, hle, he⟩
      · rcases ih acc with he | ⟨sp', hm, hle, he⟩
        · exact Or.inl he
        · exact Or.inr ⟨sp', List.mem_cons_of_mem _ hm, hle, he⟩
  exact hloop samples ⟨0, 0⟩

/-- A flush is not behind any sample that it covers. -/
theorem le_latestSequencePosition {s : TransactionLogStore} {n : ℕ} {sp : SequencePosition}
    (hm : sp ∈ s.recentlyCommittedSequencePositions) (hn : sp.rocksSequenceNumber ≤ n) :
    sp.position ≤ s.latestSequencePosition n := by
  unfold TransactionLogStore.latestSequencePosition
  generalize s.recentlyCommittedSequencePositions = samples at hm
  set f := fun (latest : LogPosition) (sp : SequencePosition) =>
    if sp.rocksSequenceNumber ≤ n ∧ latest < sp.position then sp.position else latest with hf
  -- the accumulator only grows, and takes in each covered sample
  have hgrow : ∀ acc sp, acc ≤ f acc sp := by
    intro acc sp
    simp only [hf]
    split_ifs with hc
    · exact hc.2.le
    · exact le_rfl
  have hloop : ∀ (l : List SequencePosition) (acc : LogPosition), acc ≤ l.foldl f acc := by
    intro l
    induction l with
    | nil => exact fun acc => le_rfl
    | cons sp l ih => exact fun acc => (hgrow acc sp).trans (ih _)
  generalize (⟨0, 0⟩ : LogPosition) = acc
  induction samples generalizing acc with
  | nil => cases hm
  | cons sp' samples ih =>
    rw [List.foldl_cons]
    rcases List.mem_cons.mp hm with rfl | hm
    · refine le_trans ?_ (hloop samples _)
      simp only [hf]
      split_ifs with hc
      · exact le_rfl
      · exact not_lt.mp fun hlt => hc ⟨hn, hlt⟩
    · exact ih hm _

structure SizesOk (s : TransactionLogStore) (d : Disk) : Prop where
  size_le : ∀ {seq f}, s.sequenceFiles.get? seq = some f → f.size ≤ (d.bytes seq).length
  closed : ∀ {seq f}, s.sequenceFiles.get? seq = some f → f.isOpen = false → f.size = 0
  current_pos : 0 < s.currentSequenceNumber
  current_lt : s.currentSequenceNumber < s.nextSequenceNumber

structure FilesOk (s : TransactionLogStore) (d : Disk) : Prop extends SizesOk s d where
  /-- Before the first entry has a place there is no current file. -/
  next_zero : s.nextLogPosition.logSequenceNumber = 0 → s.sequenceFiles.get? s.currentSequenceNumber = none

/-- A file after `open`, whether it succeeds or not, beside the file before. -/
structure Opened (f : TransactionLogFile) (before : Bytes) (f' : TransactionLogFile) (after : Bytes) : Prop where
  size_mono : f.size ≤ f'.size
  size_le : f'.size ≤ after.length
  closed : f'.isOpen = false → f'.size = 0
  bytes_prefix : before <+: after

theorem headerBytes_length (version : UInt8) (timestamp : Binary64) :
    (TransactionLogFile.headerBytes version timestamp (4, 1, 8)).length = TRANSACTION_LOG_FILE_HEADER_SIZE := by
  simp [TransactionLogFile.headerBytes, writeUint32BE, writeDoubleBE, TRANSACTION_LOG_FILE_HEADER_SIZE]

theorem readHeader_opened {f : TransactionLogFile} {bytes : Bytes} (timestamp : Binary64) {io : OpenCalls}
    (hopen : f.isOpen = true) (hsize : f.size ≤ bytes.length) (hheader : io.headerWrites = (4, 1, 8)) :
    Opened f bytes (f.readHeader bytes timestamp io).2.1 (f.readHeader bytes timestamp io).2.2 := by
  unfold TransactionLogFile.readHeader
  by_cases h0 : f.size = 0
  · simp only [h0, if_true]
    refine ⟨by simp [h0], ?_, by simp [hopen], List.prefix_append _ _⟩
    rw [hheader, List.length_append, headerBytes_length]
    exact Nat.le_add_left _ _
  · simp only [h0, if_false]
    split_ifs
    all_goals exact ⟨le_rfl, hsize, by simp [hopen], List.prefix_refl _⟩

theorem open_opened {f : TransactionLogFile} (disk : Option Bytes) (timestamp : Binary64) {io : OpenCalls}
    (hclosed : f.isOpen = false) (hsize : f.size = 0) (hheader : io.headerWrites = (4, 1, 8)) :
    Opened f (disk.getD []) (f.open disk timestamp io).2.1 ((f.open disk timestamp io).2.2.getD []) := by
  unfold TransactionLogFile.open TransactionLogFile.openFile
  simp only [hclosed, Bool.false_eq_true, if_false]
  split_ifs with h1 h2
  · exact ⟨le_rfl, by simp [hsize], fun _ => hsize, List.prefix_refl _⟩
  · exact ⟨le_rfl, by simp [hsize], by simp, List.prefix_refl _⟩
  · have hmod : (disk.getD []).length % UINT32_RANGE ≤ (disk.getD []).length := Nat.mod_le _ _
    have h := readHeader_opened (f := { f with
        hasAppendedSinceOpen := false, isOpen := true, size := (disk.getD []).length % UINT32_RANGE })
      timestamp rfl hmod hheader
    exact ⟨by rw [hsize]; exact Nat.zero_le _, h.size_le, h.closed, h.bytes_prefix⟩

/-- An `open` that does not throw leaves the file open. -/
theorem open_isOpen {f : TransactionLogFile} {disk : Option Bytes} {timestamp : Binary64} {io : OpenCalls}
    (h : (f.open disk timestamp io).1 = none) : (f.open disk timestamp io).2.1.isOpen = true := by
  unfold TransactionLogFile.open TransactionLogFile.openFile at h ⊢
  by_cases ho : f.isOpen = true
  · simp only [ho, if_true, TransactionLogFile.readHeader] at h ⊢
    split_ifs <;> rfl
  · simp only [ho, if_false, Bool.false_eq_true] at h ⊢
    split_ifs at h ⊢
    simp only [TransactionLogFile.readHeader]
    split_ifs <;> rfl

theorem ensureOpen_isOpen {s : TransactionLogStore} {d : Disk} {seq : ℕ} {f f' : TransactionLogFile} {io : OpenCalls}
    (hf : s.sequenceFiles.get? seq = some f) (h : (s.ensureOpen d seq f io).1 = none)
    (hf' : (s.ensureOpen d seq f io).2.1.sequenceFiles.get? seq = some f') : f'.isOpen = true := by
  unfold TransactionLogStore.ensureOpen at h hf'
  by_cases ho : f.isOpen = true
  · simp only [ho, if_true] at hf'
    obtain rfl : f = f' := Option.some.inj (hf.symm.trans hf')
    exact ho
  · simp only [ho, if_false, Bool.false_eq_true, TransactionLogStore.openLogFile] at h hf'
    obtain rfl := Option.some.inj ((SeqMap.get?_set_self _ _ _).symm.trans hf')
    exact open_isOpen h

/-- What `ensureOpen` can change: the file it opens and that file's bytes. -/
structure FileChange (s : TransactionLogStore) (d : Disk) (seq : ℕ) (s' : TransactionLogStore) (d' : Disk) : Prop where
  store : ∃ files, s' = { s with sequenceFiles := files }
  get?_ne : ∀ q, q ≠ seq → s'.sequenceFiles.get? q = s.sequenceFiles.get? q
  bytes_ne : ∀ q, q ≠ seq → d'.bytes q = d.bytes q
  bytes_prefix : d.bytes seq <+: d'.bytes seq
  txnState : d'.txnState = d.txnState

theorem ensureOpen_change (s : TransactionLogStore) (d : Disk) {seq : ℕ} {f : TransactionLogFile} {io : OpenCalls}
    (hf : s.sequenceFiles.get? seq = some f) (hclosed : f.isOpen = false → f.size = 0)
    (hle : f.size ≤ (d.bytes seq).length) (hheader : io.headerWrites = (4, 1, 8)) :
    FileChange s d seq (s.ensureOpen d seq f io).2.1 (s.ensureOpen d seq f io).2.2 ∧
      ∃ f', (s.ensureOpen d seq f io).2.1.sequenceFiles.get? seq = some f' ∧
        Opened f (d.bytes seq) f' ((s.ensureOpen d seq f io).2.2.bytes seq) := by
  unfold TransactionLogStore.ensureOpen
  by_cases ho : f.isOpen = true
  · simp only [ho, if_true]
    exact ⟨⟨⟨s.sequenceFiles, rfl⟩, fun _ _ => rfl, fun _ _ => rfl, List.prefix_refl _, rfl⟩,
      f, hf, le_rfl, hle, hclosed, List.prefix_refl _⟩
  rw [Bool.not_eq_true] at ho
  have hop := open_opened (d.logs.get? seq) s.latestTimestamp ho (hclosed ho) hheader
  simp only [ho, Bool.false_eq_true, if_false, TransactionLogStore.openLogFile]
  set r := f.open (d.logs.get? seq) s.latestTimestamp io
  have hget : (s.setFile seq r.2.1).sequenceFiles.get? seq = some r.2.1 := SeqMap.get?_set_self _ _ _
  have hne : ∀ q, q ≠ seq → (s.setFile seq r.2.1).sequenceFiles.get? q = s.sequenceFiles.get? q :=
    fun q hq => SeqMap.get?_set_ne _ hq _
  cases hr : r.2.2 with
  | none =>
    rw [hr] at hop
    have hnil : d.bytes seq = [] := List.prefix_nil.mp hop.bytes_prefix
    refine ⟨⟨⟨_, rfl⟩, hne, fun _ _ => rfl, List.prefix_refl _, rfl⟩, r.2.1, hget, hop.size_mono, ?_, hop.closed,
      List.prefix_refl _⟩
    exact hop.size_le.trans (by simp)
  | some bytes =>
    rw [hr] at hop
    simp only
    refine ⟨⟨⟨_, rfl⟩, hne, fun q hq => by rw [Disk.bytes_set, if_neg hq], ?_, rfl⟩, r.2.1, hget, hop.size_mono, ?_,
      hop.closed, ?_⟩
    all_goals rw [Disk.bytes_set, if_pos rfl]
    · exact hop.bytes_prefix
    · exact hop.size_le
    · exact hop.bytes_prefix

/-- The file operations of the store keep what it believes true. -/
theorem FileChange.sizesOk {s s' : TransactionLogStore} {d d' : Disk} {seq : ℕ} {f' : TransactionLogFile}
    (h : SizesOk s d) (hc : FileChange s d seq s' d')
    (hf' : s'.sequenceFiles.get? seq = some f') (hsize : f'.size ≤ (d'.bytes seq).length)
    (hclosed : f'.isOpen = false → f'.size = 0) : SizesOk s' d' := by
  obtain ⟨files, rfl⟩ := hc.store
  refine ⟨?_, ?_, h.current_pos, h.current_lt⟩
  · intro q g hg
    by_cases hq : q = seq
    · subst hq
      obtain rfl : f' = g := Option.some.inj (hf'.symm.trans hg)
      exact hsize
    · rw [hc.bytes_ne q hq]
      exact h.size_le ((hc.get?_ne q hq).symm.trans hg)
  · intro q g hg hcl
    by_cases hq : q = seq
    · subst hq
      obtain rfl : f' = g := Option.some.inj (hf'.symm.trans hg)
      exact hclosed hcl
    · exact h.closed ((hc.get?_ne q hq).symm.trans hg) hcl

theorem FileChange.filesOk {s s' : TransactionLogStore} {d d' : Disk} {seq : ℕ} {f f' : TransactionLogFile}
    (h : FilesOk s d) (hc : FileChange s d seq s' d') (hf : s.sequenceFiles.get? seq = some f)
    (hf' : s'.sequenceFiles.get? seq = some f') (hsize : f'.size ≤ (d'.bytes seq).length)
    (hclosed : f'.isOpen = false → f'.size = 0) : FilesOk s' d' := by
  refine ⟨hc.sizesOk h.toSizesOk hf' hsize hclosed, ?_⟩
  obtain ⟨files, rfl⟩ := hc.store
  intro hz
  have hnone := h.next_zero hz
  have hne : s.currentSequenceNumber ≠ seq := by
    intro he
    rw [he, hf] at hnone
    cases hnone
  exact (hc.get?_ne _ hne).trans hnone

end RocksdbJs
