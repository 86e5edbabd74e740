import RocksdbJs.Sanity.Lifecycle
import RocksdbJs.Sanity.Writer

/-! What a reader's calls do to a store that a `writeBatch` call may be working on. An open only
makes the sizes grow, a lookup only cuts them, and neither touches the registered positions. -/

namespace RocksdbJs

open TransactionLogStore

/-- Files that have only grown. -/
structure SizesGrow (s s' : TransactionLogStore) : Prop where
  size : ∀ q, s.sizeOf q ≤ s'.sizeOf q
  opened : ∀ {q f'}, s'.sequenceFiles.get? q = some f' → ∃ f, s.sequenceFiles.get? q = some f ∧
    (f.isOpen = true → f'.isOpen = true)
  current : s'.currentSequenceNumber = s.currentSequenceNumber
  next : s'.nextLogPosition = s.nextLogPosition

theorem SizesGrow.of_files {s s' : TransactionLogStore} (hf : s'.sequenceFiles = s.sequenceFiles)
    (hc : s'.currentSequenceNumber = s.currentSequenceNumber)
    (hn : s'.nextLogPosition = s.nextLogPosition) : SizesGrow s s' := by
  refine ⟨fun q => ?_, fun {q f'} h => ⟨f', hf ▸ h, id⟩, hc, hn⟩
  rw [TransactionLogStore.sizeOf, TransactionLogStore.sizeOf, hf]

theorem SizesGrow.appendPoint {s s' : TransactionLogStore} (h : SizesGrow s s') : s.appendPoint ≤ s'.appendPoint := by
  rw [TransactionLogStore.appendPoint, TransactionLogStore.appendPoint, h.current, LogPosition.le_iff]
  exact Or.inr ⟨rfl, h.size _⟩

theorem SizesGrow.openAt {s s' : TransactionLogStore} (h : SizesGrow s s') {seq : ℕ} (ho : OpenAt s seq) :
    OpenAt s' seq := by
  intro f' hf'
  obtain ⟨f, hf, hopen⟩ := h.opened hf'
  exact hopen (ho f hf)

theorem SizesGrow.holds {s s' : TransactionLogStore} (h : SizesGrow s s') {seq : ℕ} {p : LogPosition}
    (hp : Holds s seq p) :
    Holds s' seq p := by
  obtain ⟨hcur, hend, hnz⟩ := hp
  exact ⟨hcur.trans h.current.symm, hend.trans h.appendPoint, h.next ▸ hnz⟩

/-- What the writer relies on survives a reader that opens files, and a commit that leaves the
writer's position. -/
theorem SizesGrow.writerOk {s s' : TransactionLogStore} {wr : Writer} (h : SizesGrow s s')
    (hmem : wr.logPosition ∈ s'.uncommittedTransactionPositions) (hw : WriterOk s wr) : WriterOk s' wr := by
  obtain ⟨-, hle, hzero, hat⟩ := hw
  refine ⟨hmem, h.next ▸ hle, fun hz hf => ?_, ?_⟩
  · rw [h.next]
    exact (hzero hz hf).trans h.appendPoint
  unfold Writer.AtPc at hat ⊢
  cases hpc : wr.pc with
  | getFile =>
    rw [hpc] at hat
    exact hat.trans h.appendPoint
  | tryOpen seq =>
    rw [hpc] at hat
    exact h.holds hat
  | rotateInner =>
    rw [hpc] at hat
    rw [h.current]
    exact h.holds hat
  | fixPosition seq =>
    rw [hpc] at hat
    exact ⟨h.holds hat.1, h.openAt hat.2⟩
  | checkAge seq =>
    rw [hpc] at hat
    exact ⟨h.holds hat.1, h.openAt hat.2.1, hat.2.2⟩
  | write seq =>
    rw [hpc] at hat
    exact ⟨h.holds hat.1, h.openAt hat.2.1, hat.2.2⟩
  | advance seq before =>
    rw [hpc] at hat
    exact ⟨h.holds hat.1, hat.2⟩
  | setNext seq =>
    rw [hpc] at hat
    obtain ⟨hend, hseq, hnz, hne⟩ := hat
    refine ⟨hend.trans ?_, h.current ▸ hseq, h.next ▸ hnz, hne⟩
    rw [LogPosition.le_iff]
    exact Or.inr ⟨rfl, h.size seq⟩
  | finish => trivial
  | returned => trivial
  | threw e => trivial

/-- A reader's open leaves the store right about its files. -/
theorem getLogFileSize_filesOk {s : TransactionLogStore} {d : Disk} {seq : ℕ} {io : ReadCalls} (h : FilesOk s d)
    (hio : (io.openCalls seq).headerWrites = (4, 1, 8)) :
    let r := (getLogFileSize s d seq io).2
    FilesOk r.1 r.2 ∧ SizesGrow s r.1 ∧ ∃ files, r.1 = { s with sequenceFiles := files } := by
  rcases getLogFileSize_spec s d seq io with he | ⟨f, hf, he⟩
  · rw [he]
    exact ⟨h, .of_files rfl rfl rfl, _, rfl⟩
  rw [he]
  obtain ⟨hc, f', hf', hop⟩ := ensureOpen_change s d hf (h.closed hf) (h.size_le hf) hio
  refine ⟨hc.filesOk h hf hf' hop.size_le hop.closed, ⟨fun q => ?_, fun hg => ensureOpen_files d _ hf hg, ?_, ?_⟩,
    hc.store⟩
  · by_cases hq : q = seq
    · rw [hq, sizeOf_eq hf, sizeOf_eq hf']
      exact hop.size_mono
    · rw [TransactionLogStore.sizeOf, TransactionLogStore.sizeOf, hc.get?_ne q hq]
  all_goals
    obtain ⟨files, hs⟩ := hc.store
    rw [hs]

/-- The indexing loop can only cut the size. -/
theorem indexLoop_size_le {map : Bytes} : ∀ {fuel : ℕ} {f f' : TransactionLogFile} {b : Bool},
    f.indexLoop map fuel = .ok (f', b) → f'.size ≤ f.size := by
  intro fuel
  induction fuel with
  | zero => intro f f' b h; cases h
  | succ fuel ih =>
    intro f f' b h
    simp only [TransactionLogFile.indexLoop] at h
    split_ifs at h with h1 h2 h3 h4
    · rw [Except.ok.injEq, Prod.mk.injEq] at h
      rw [← h.1]
    · rw [Except.ok.injEq, Prod.mk.injEq] at h
      rw [← h.1]
      exact (not_le.mp h1).le
    · rw [Except.ok.injEq, Prod.mk.injEq] at h
      rw [← h.1]
    all_goals exact (ih h).trans le_rfl

theorem fileFindPosition_size_le (f : TransactionLogFile) (bytes : Bytes) (timestamp : Binary64)
    (mapSize : ℕ) (mmapOk : Bool) :
    (f.findPositionByTimestamp bytes timestamp mapSize mmapOk).1.size ≤ f.size := by
  unfold TransactionLogFile.findPositionByTimestamp
  split
  · exact le_rfl
  · split
    · exact le_rfl
    · rename_i hidx
      have hle := indexLoop_size_le hidx
      split <;> exact hle

theorem findPositionFrom_size_le {cfg : StoreConfig} {d : Disk} {timestamp : Binary64} {io : ReadCalls} :
    ∀ (seq : ℕ) (isCurrent : Bool) (s : TransactionLogStore) (q : ℕ),
      (findPositionFrom cfg d timestamp io seq isCurrent s).2.sizeOf q ≤ s.sizeOf q := by
  intro seq
  induction seq using Nat.strong_induction_on with
  | _ seq ih =>
    intro isCurrent s q
    unfold findPositionFrom
    cases hf : s.sequenceFiles.get? seq with
    | none => exact le_rfl
    | some f =>
      simp only
      set r := f.findPositionByTimestamp (if f.isOpen then d.bytes seq else []) timestamp
        (if isCurrent then cfg.maxFileSize else f.size) (io.mmapOk seq)
      have hset : (s.setFile seq r.1).sizeOf q ≤ s.sizeOf q := by
        rw [sizeOf_setFile]
        split_ifs with hq
        · rw [hq, sizeOf_eq hf]
          exact fileFindPosition_size_le _ _ _ _ _
        · exact le_rfl
      cases hp : r.2 with
      | position p =>
        simp only
        split_ifs
        · exact hset
        · exact hset
        · exact hset
        · cases seq with
          | zero => exact hset
          | succ n => exact (ih n (Nat.lt_succ_self n) _ _ _).trans hset
      | outOfBounds => exact hset
      | spinning => exact hset

theorem findPosition_size_le (cfg : StoreConfig) (s : TransactionLogStore) (d : Disk)
    (timestamp : Binary64) (io : ReadCalls) (q : ℕ) :
    (findPositionByTimestamp cfg s d timestamp io).2.sizeOf q ≤ s.sizeOf q := by
  unfold TransactionLogStore.findPositionByTimestamp
  simp only
  split
  · exact findPositionFrom_size_le _ _ _ _
  · exact findPositionFrom_size_le _ _ _ _

theorem findPosition_filesOk (cfg : StoreConfig) {s : TransactionLogStore} {d : Disk}
    (timestamp : Binary64) (io : ReadCalls) (h : FilesOk s d) :
    FilesOk (findPositionByTimestamp cfg s d timestamp io).2 d := by
  have hsize := findPosition_size_le cfg s d timestamp io
  have hfiles := @findPosition_files cfg s d timestamp io
  obtain ⟨files, hs, -⟩ := findPosition_store cfg s d timestamp io
  have hle : ∀ {q f f'}, (findPositionByTimestamp cfg s d timestamp io).2.sequenceFiles.get? q = some f' →
      s.sequenceFiles.get? q = some f → f'.size ≤ f.size := by
    intro q f f' hf' hf
    have := hsize q
    rwa [sizeOf_eq hf', sizeOf_eq hf] at this
  refine ⟨⟨fun {q f'} hf' => ?_, fun {q f'} hf' hc => ?_, ?_, ?_⟩, fun hz => ?_⟩
  · obtain ⟨f, hf, -⟩ := hfiles hf'
    exact (hle hf' hf).trans (h.size_le hf)
  · obtain ⟨f, hf, ho⟩ := hfiles hf'
    have h0 := h.closed hf (ho ▸ hc)
    have := hle hf' hf
    omega
  · rw [hs]
    exact h.current_pos
  · rw [hs]
    exact h.current_lt
  · cases hg : (findPositionByTimestamp cfg s d timestamp io).2.sequenceFiles.get?
        (findPositionByTimestamp cfg s d timestamp io).2.currentSequenceNumber with
    | none => rfl
    | some f' =>
      obtain ⟨f, hf, -⟩ := hfiles hg
      rw [hs] at hz hf
      rw [h.next_zero hz] at hf
      cases hf

end RocksdbJs
