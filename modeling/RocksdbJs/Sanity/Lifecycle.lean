import RocksdbJs.Sanity.Load
import RocksdbJs.Sanity.WriterMoves
import RocksdbJs.Spec.Lifecycle

/-! The sizes a store holds over its life. As long as no system call fails in a way the code
does not notice, no append stops part-way and no lookup resets a size, the size held for an
open file is its length on disk. -/

namespace RocksdbJs

open TransactionLogStore
open TransactionLogFile (WriteEntriesResult)

/-- An open file's size is its length; a file not open has none. -/
structure Exact (f : TransactionLogFile) (bytes : Bytes) : Prop where
  opened : f.isOpen = true → f.size = bytes.length
  closed : f.isOpen = false → f.size = 0

def SizesExact (s : TransactionLogStore) (d : Disk) : Prop :=
  ∀ ⦃seq f⦄, s.sequenceFiles.get? seq = some f → Exact f (d.bytes seq)

/-- The failures that `open` does not notice, or leaves a file open after, do not happen. -/
def OpenCalls.Exact (io : OpenCalls) : Prop := io.statted = true ∧ io.headerWrites = (4, 1, 8)

instance (io : OpenCalls) : Decidable io.Exact := inferInstanceAs (Decidable (_ ∧ _))

theorem Exact.size_le {f : TransactionLogFile} {bytes : Bytes} (h : Exact f bytes) : f.size ≤ bytes.length := by
  cases ho : f.isOpen with
  | true => exact (h.opened ho).le
  | false =>
    rw [h.closed ho]
    exact Nat.zero_le _

theorem readHeader_exact {f : TransactionLogFile} {bytes : Bytes} (timestamp : Binary64) {io : OpenCalls}
    (hopen : f.isOpen = true) (hsize : f.size = bytes.length) (hio : io.headerWrites = (4, 1, 8)) :
    Exact (f.readHeader bytes timestamp io).2.1 (f.readHeader bytes timestamp io).2.2 := by
  have hno : ∀ {P : Prop}, f.isOpen = false → P := fun h => by rw [hopen] at h; cases h
  unfold TransactionLogFile.readHeader
  by_cases h0 : f.size = 0
  · simp only [h0, if_true]
    refine ⟨fun _ => ?_, hno⟩
    rw [hio, List.length_append, headerBytes_length, ← hsize, h0, Nat.zero_add]
  · simp only [h0, if_false]
    split_ifs
    all_goals exact ⟨fun _ => hsize, hno⟩

theorem open_exact {f : TransactionLogFile} (disk : Option Bytes) (timestamp : Binary64) {io : OpenCalls}
    (hclosed : f.isOpen = false) (hsize : f.size = 0) (hio : io.Exact) (hlen : (disk.getD []).length < UINT32_RANGE) :
    Exact (f.open disk timestamp io).2.1 ((f.open disk timestamp io).2.2.getD []) := by
  unfold TransactionLogFile.open TransactionLogFile.openFile
  simp only [hclosed, hio.1, Bool.false_eq_true, if_false, Bool.not_true]
  split_ifs
  · exact ⟨fun h => absurd h Bool.false_ne_true, fun _ => hsize⟩
  · exact readHeader_exact timestamp rfl (Nat.mod_eq_of_lt hlen) hio.2

/-- A change of one file keeps the sizes exact when the new object is right. -/
theorem FileChange.exact {s s' : TransactionLogStore} {d d' : Disk} {seq : ℕ} {f' : TransactionLogFile}
    (h : SizesExact s d) (hc : FileChange s d seq s' d') (hf' : s'.sequenceFiles.get? seq = some f')
    (hex : Exact f' (d'.bytes seq)) : SizesExact s' d' := by
  intro q g hg
  by_cases hq : q = seq
  · subst hq
    obtain rfl : f' = g := Option.some.inj (hf'.symm.trans hg)
    exact hex
  · rw [hc.bytes_ne q hq]
    exact h ((hc.get?_ne q hq).symm.trans hg)

theorem ensureOpen_exact {s : TransactionLogStore} {d : Disk} {seq : ℕ} {f : TransactionLogFile} {io : OpenCalls}
    (h : SizesExact s d) (hf : s.sequenceFiles.get? seq = some f) (hio : io.Exact)
    (hlen : (d.bytes seq).length < UINT32_RANGE) :
    SizesExact (s.ensureOpen d seq f io).2.1 (s.ensureOpen d seq f io).2.2 := by
  obtain ⟨hc, f', hf', -⟩ := ensureOpen_change s d hf (h hf).closed (h hf).size_le hio.2
  refine hc.exact h hf' ?_
  unfold ensureOpen at hf' ⊢
  cases ho : f.isOpen with
  | true =>
    simp only [ho, if_true] at hf' ⊢
    obtain rfl := Option.some.inj (hf.symm.trans hf')
    exact h hf
  | false =>
    simp only [ho, Bool.false_eq_true, if_false, openLogFile] at hf' ⊢
    obtain rfl := Option.some.inj ((SeqMap.get?_set_self _ _ _).symm.trans hf')
    have hex := open_exact (d.logs.get? seq) s.latestTimestamp ho ((h hf).closed ho) hio hlen
    split
    · rename_i bytes hr
      rw [hr] at hex
      rw [Disk.bytes_set, if_pos rfl]
      exact hex
    · rename_i hr
      -- the file was not opened, so there is no file
      rw [hr] at hex
      have hop := open_opened (d.logs.get? seq) s.latestTimestamp ho ((h hf).closed ho) hio.2
      rw [hr] at hop
      rw [show d.bytes seq = [] from List.prefix_nil.mp hop.bytes_prefix]
      exact hex

theorem setFile_exact {s : TransactionLogStore} {d : Disk} {seq : ℕ} {f : TransactionLogFile} (h : SizesExact s d)
    (hex : Exact f (d.bytes seq)) : SizesExact (s.setFile seq f) d := by
  intro q g hg
  simp only [setFile, SeqMap.get?_set] at hg
  split_ifs at hg with hq
  · obtain rfl := Option.some.inj hg
    exact hq ▸ hex
  · exact h hg

/-- The writer holds an open file wherever it is about to use it. -/
def Writer.FileOpen (s : TransactionLogStore) (wr : Writer) : Prop :=
  match wr.pc with
  | .fixPosition seq => OpenIn s seq
  | .checkAge seq => OpenIn s seq
  | .write seq => OpenIn s seq
  | _ => True
where
  OpenIn (s : TransactionLogStore) (seq : ℕ) : Prop := ∀ f, s.sequenceFiles.get? seq = some f → f.isOpen = true

/-- The calls of a writer's step leave sizes exact: `open` as above, and an append goes
through and leaves the file below 4 GiB. -/
def WriterCalls.Exact (cfg : StoreConfig) (w : World) (wr : Writer) (io : WriterCalls) : Prop :=
  match wr.pc with
  | .tryOpen seq => io.openCalls.Exact ∧ (w.disk.bytes seq).length < UINT32_RANGE
  | .write seq => ∀ f ∈ w.store.sequenceFiles.get? seq,
      failsEarly io.results (toWrite f wr.batch cfg.maxFileSize) = false ∧
        f.size + (toWrite f wr.batch cfg.maxFileSize).flatten.length < UINT32_RANGE
  | _ => True

instance (cfg : StoreConfig) (w : World) (wr : Writer) (io : WriterCalls) : Decidable (io.Exact cfg w wr) :=
  match wr with
  | ⟨.tryOpen seq, _, _⟩ => inferInstanceAs (Decidable (io.openCalls.Exact ∧ (w.disk.bytes seq).length < UINT32_RANGE))
  | ⟨.write seq, batch, _⟩ => inferInstanceAs (Decidable (∀ f ∈ w.store.sequenceFiles.get? seq,
      failsEarly io.results (toWrite f batch cfg.maxFileSize) = false ∧
        f.size + (toWrite f batch cfg.maxFileSize).flatten.length < UINT32_RANGE))
  | ⟨.getFile, _, _⟩ => isTrue trivial
  | ⟨.rotateInner, _, _⟩ => isTrue trivial
  | ⟨.fixPosition _, _, _⟩ => isTrue trivial
  | ⟨.checkAge _, _, _⟩ => isTrue trivial
  | ⟨.advance _ _, _, _⟩ => isTrue trivial
  | ⟨.setNext _, _, _⟩ => isTrue trivial
  | ⟨.finish, _, _⟩ => isTrue trivial
  | ⟨.returned, _, _⟩ => isTrue trivial
  | ⟨.threw _, _, _⟩ => isTrue trivial

theorem writeEntries_exact {f : TransactionLogFile} {bytes : Bytes} {batch : TransactionLogEntryBatch} {maxFileSize : ℕ}
    {results : List WritevResult} (hopen : f.isOpen = true) (hsize : f.size = bytes.length)
    (hreturns : (f.writeEntries bytes batch maxFileSize results).outcome ≠ .blocked)
    (hok : failsEarly results (toWrite f batch maxFileSize) = false)
    (hlt : f.size + (toWrite f batch maxFileSize).flatten.length < UINT32_RANGE) :
    (f.writeEntries bytes batch maxFileSize results).file.isOpen = true ∧
      (f.writeEntries bytes batch maxFileSize results).file.size =
        (f.writeEntries bytes batch maxFileSize results).bytes.length := by
  rcases writeEntries_cases f bytes batch maxFileSize results hreturns with
    ⟨-, hr⟩ | ⟨-, -, hr⟩ | ⟨-, -, hf, -⟩ | ⟨-, -, -, hr⟩
  · rw [hr]
    exact ⟨hopen, hsize⟩
  · rw [hr]
    exact ⟨hopen, hsize⟩
  · rw [hok] at hf
    cases hf
  · rw [hr]
    refine ⟨hopen, ?_⟩
    rw [toWrite_flatten] at hlt
    rw [List.length_append, ← hsize]
    exact Nat.mod_eq_of_lt hlt

theorem outerLoop_fileOpen (s : TransactionLogStore) (b : TransactionLogEntryBatch) (p : LogPosition) :
    Writer.FileOpen s ⟨outerLoop b, b, p⟩ := by
  unfold outerLoop Writer.FileOpen
  cases b.isComplete <;> exact trivial

theorem setFile_exact_set {s : TransactionLogStore} {d : Disk} {seq : ℕ} {f : TransactionLogFile}
    {bytes : Bytes} (h : SizesExact s d) (hex : Exact f bytes) :
    SizesExact (s.setFile seq f) { d with logs := d.logs.set seq bytes } := by
  intro q g hg
  rw [Disk.bytes_set]
  simp only [setFile, SeqMap.get?_set] at hg
  split_ifs at hg ⊢ with hq
  · obtain rfl := Option.some.inj hg
    exact hex
  · exact h hg

/-- Where the writer goes on to the next number it holds no file. -/
theorem WriterRotates.fileOpen {cfg : StoreConfig} {w : World} {wr : Writer} {io : WriterCalls} {pc : WriterPc}
    (h : WriterRotates cfg w wr io pc) (s : TransactionLogStore) : ({ wr with pc } : Writer).FileOpen s := by
  cases h with
  | inner => exact trivial
  | old => exact outerLoop_fileOpen _ _ _
  | outer => exact trivial

theorem WriterTurns.fileOpen {cfg : StoreConfig} {w : World} {wr : Writer} {io : WriterCalls} {pc : WriterPc}
    (h : WriterTurns cfg w wr io pc) (hopen : wr.FileOpen w.store) : ({ wr with pc } : Writer).FileOpen w.store := by
  cases h with
  | full => exact trivial
  | placed seq hpc =>
    rw [Writer.FileOpen, hpc] at hopen
    exact hopen
  | young seq f hpc =>
    rw [Writer.FileOpen, hpc] at hopen
    exact hopen
  | stays => exact trivial

theorem writerStep_exact {cfg : StoreConfig} {w w' : World} {wr : Writer} {io : WriterCalls}
    (h : SizesExact w.store w.disk) (hopen : wr.FileOpen w.store) (hio : io.Exact cfg w wr)
    (hstep : writerStep cfg w wr io = some w') :
    SizesExact w'.store w'.disk ∧ ∀ wr' ∈ w'.writer, wr'.FileOpen w'.store := by
  cases writerStep_move hstep with
  | turn pc hturns => exact ⟨h, forall_mem_some (hturns.fileOpen hopen)⟩
  | rotate pc hrotates => exact ⟨h, forall_mem_some (hrotates.fileOpen _)⟩
  | get hpc =>
    refine ⟨?_, forall_mem_some trivial⟩
    unfold getLogFile
    split
    · exact h
    · exact setFile_exact h ⟨fun ho => absurd ho Bool.false_ne_true, fun _ => rfl⟩
  | opens seq f hpc hf hroom =>
    rw [WriterCalls.Exact, hpc] at hio
    refine ⟨ensureOpen_exact h hf hio.1 hio.2, forall_mem_some ?_⟩
    cases hr : (w.store.ensureOpen w.disk seq f io.openCalls).1 with
    | some e => exact trivial
    | none => exact fun g hg => ensureOpen_isOpen hf hr hg
  | place seq hpc hzero =>
    rw [Writer.FileOpen, hpc] at hopen
    exact ⟨h, forall_mem_some hopen⟩
  | append seq f hpc hf hreturns =>
    rw [Writer.FileOpen, hpc] at hopen
    rw [WriterCalls.Exact, hpc] at hio
    obtain ⟨hok, hlt⟩ := hio f hf
    obtain ⟨ho, hsize⟩ := writeEntries_exact (hopen f hf) ((h hf).opened (hopen f hf)) hreturns hok hlt
    refine ⟨setFile_exact_set h ⟨fun _ => ?_, fun hc => ?_⟩, forall_mem_some ?_⟩
    · rw [WriteEntriesResult.stamped_size, hsize]
    · rw [WriteEntriesResult.stamped_isOpen, ho] at hc
      cases hc
    · unfold Writer.FileOpen WriteEntriesResult.pc
      cases (f.writeEntries (w.disk.bytes seq) wr.batch cfg.maxFileSize io.results).error <;> exact trivial
  | setNext seq f hpc hf => exact ⟨h, forall_mem_some (outerLoop_fileOpen _ _ _)⟩
  | finish hpc => exact ⟨h, forall_mem_some trivial⟩

theorem ensureOpen_txnState (s : TransactionLogStore) (d : Disk) (q : ℕ) (f : TransactionLogFile) (o : OpenCalls) :
    (s.ensureOpen d q f o).2.2.txnState = d.txnState := by
  unfold ensureOpen openLogFile
  split_ifs
  · rfl
  · simp only
    split <;> rfl

theorem ensureOpen_keeps (s : TransactionLogStore) {d : Disk} (seq : ℕ) (f : TransactionLogFile) (o : OpenCalls) {q : ℕ}
    (hq : (d.logs.get? q).isSome) : ((s.ensureOpen d seq f o).2.2.logs.get? q).isSome := by
  unfold ensureOpen openLogFile
  split_ifs
  · exact hq
  · simp only
    split
    · simp only [SeqMap.get?_set]
      split_ifs
      · rfl
      · exact hq
    · exact hq

/-- What a step of the writer leaves as it was. It neither samples nor publishes a position. -/
structure WriterKeeps (w w' : World) (wr : Writer) : Prop where
  txnState : w'.disk.txnState = w.disk.txnState
  isClosing : w'.store.isClosing = w.store.isClosing
  latest : w'.store.latestTimestamp = w.store.latestTimestamp
  samples : w'.store.recentlyCommittedSequencePositions = w.store.recentlyCommittedSequencePositions
  count : w'.store.nextSequencePositionsCount = w.store.nextSequencePositionsCount
  written : w'.store.lastWrittenFlushedPosition = w.store.lastWrittenFlushedPosition
  committed : w'.store.lastCommittedPosition = w.store.lastCommittedPosition
  kept : ∀ q, (w.disk.logs.get? q).isSome → (w'.disk.logs.get? q).isSome
  file : ∀ q, (w'.store.sequenceFiles.get? q).isSome → (w.store.sequenceFiles.get? q).isSome ∨
    (q = w.store.currentSequenceNumber ∧ wr.pc = .getFile)

theorem ensureOpen_store (s : TransactionLogStore) (d : Disk) (seq : ℕ) (f : TransactionLogFile) (o : OpenCalls) :
    ∃ g, (s.ensureOpen d seq f o).2.1 = s ∨ (s.ensureOpen d seq f o).2.1 = s.setFile seq g := by
  unfold ensureOpen
  split_ifs
  · exact ⟨f, Or.inl rfl⟩
  · exact ⟨_, Or.inr rfl⟩

theorem setFile_isSome {s : TransactionLogStore} {seq q : ℕ} {f g : TransactionLogFile}
    (hf : s.sequenceFiles.get? seq = some f) (h : ((s.setFile seq g).sequenceFiles.get? q).isSome) :
    (s.sequenceFiles.get? q).isSome := by
  simp only [setFile, SeqMap.get?_set] at h
  split_ifs at h with hq
  · rw [hq, hf]
    rfl
  · exact h

theorem isSome_setFile (s : TransactionLogStore) (seq : ℕ) (g : TransactionLogFile) {q : ℕ}
    (h : (s.sequenceFiles.get? q).isSome) :
    ((s.setFile seq g).sequenceFiles.get? q).isSome := by
  rw [setFile, SeqMap.get?_set]
  split_ifs
  · rfl
  · exact h

theorem writerStep_frame {cfg : StoreConfig} {w w' : World} {wr : Writer} {io : WriterCalls}
    (h : writerStep cfg w wr io = some w') : WriterKeeps w w' wr := by
  cases writerStep_move h with
  | turn => exact ⟨rfl, rfl, rfl, rfl, rfl, rfl, rfl, fun _ => id, fun _ => Or.inl⟩
  | rotate => exact ⟨rfl, rfl, rfl, rfl, rfl, rfl, rfl, fun _ => id, fun _ => Or.inl⟩
  | get hpc =>
    unfold getLogFile
    split
    · exact ⟨rfl, rfl, rfl, rfl, rfl, rfl, rfl, fun _ => id, fun _ => Or.inl⟩
    · refine ⟨rfl, rfl, rfl, rfl, rfl, rfl, rfl, fun _ => id, fun q hq => ?_⟩
      simp only [SeqMap.get?_set] at hq
      split_ifs at hq with hc
      · exact Or.inr ⟨hc, hpc⟩
      · exact Or.inl hq
  | opens seq f hpc hf hroom =>
    obtain ⟨g, hs | hs⟩ := ensureOpen_store w.store w.disk seq f io.openCalls
    all_goals
      refine ⟨ensureOpen_txnState _ _ _ _ _, ?_, ?_, ?_, ?_, ?_, ?_, fun q => ensureOpen_keeps _ _ _ _, fun q hq => ?_⟩
    all_goals simp only [hs] at *
    all_goals first | rfl | exact Or.inl hq | exact Or.inl (setFile_isSome hf hq)
  | place => exact ⟨rfl, rfl, rfl, rfl, rfl, rfl, rfl, fun _ => id, fun _ => Or.inl⟩
  | append seq f hpc hf hreturns =>
    refine ⟨rfl, rfl, rfl, rfl, rfl, rfl, rfl, fun q hq => ?_, fun q hq => Or.inl (setFile_isSome hf hq)⟩
    simp only [SeqMap.get?_set]
    split_ifs
    · rfl
    · exact hq
  | setNext => exact ⟨rfl, rfl, rfl, rfl, rfl, rfl, rfl, fun _ => id, fun _ => Or.inl⟩
  | finish => exact ⟨rfl, rfl, rfl, rfl, rfl, rfl, rfl, fun _ => id, fun _ => Or.inl⟩

section Read

theorem Writer.FileOpen.mono {s s' : TransactionLogStore} {wr : Writer} (h : wr.FileOpen s)
    (hfiles : ∀ q f', s'.sequenceFiles.get? q = some f' →
      ∃ f, s.sequenceFiles.get? q = some f ∧ (f.isOpen = true → f'.isOpen = true)) : wr.FileOpen s' := by
  have hin : ∀ seq, Writer.FileOpen.OpenIn s seq → Writer.FileOpen.OpenIn s' seq := by
    intro seq hs f' hf'
    obtain ⟨f, hf, hopen⟩ := hfiles seq f' hf'
    exact hopen (hs f hf)
  unfold Writer.FileOpen at h ⊢
  split <;> first | trivial | skip
  all_goals
    rename_i hpc
    rw [hpc] at h
    exact hin _ h

theorem not_busy_fileOpen {w : World} (h : w.busy = false) (s : TransactionLogStore) :
    ∀ wr ∈ w.writer, wr.FileOpen s := by
  intro wr hwr
  rw [World.busy, show w.writer = some wr from hwr, Option.map_some, Option.getD_some, Writer.busy] at h
  unfold Writer.FileOpen
  split <;> first | trivial | skip
  all_goals
    rename_i hpc
    rw [hpc] at h
    cases h

/-- Opening a file leaves every other one as it was, and those that are open stay so. -/
theorem ensureOpen_files {s : TransactionLogStore} (d : Disk) {seq q : ℕ} {f g : TransactionLogFile} (io : OpenCalls)
    (hf : s.sequenceFiles.get? seq = some f) (hg : (s.ensureOpen d seq f io).2.1.sequenceFiles.get? q = some g) :
    ∃ g', s.sequenceFiles.get? q = some g' ∧ (g'.isOpen = true → g.isOpen = true) := by
  unfold ensureOpen at hg
  cases ho : f.isOpen with
  | true =>
    rw [if_pos ho] at hg
    exact ⟨g, hg, id⟩
  | false =>
    rw [if_neg (by rw [ho]; exact Bool.false_ne_true)] at hg
    simp only [openLogFile, setFile, SeqMap.get?_set] at hg
    split_ifs at hg with hq
    · refine ⟨f, hq ▸ hf, fun h1 => ?_⟩
      rw [ho] at h1
      cases h1
    · exact ⟨g, hg, id⟩

theorem getLogFileSize_spec (s : TransactionLogStore) (d : Disk) (seq : ℕ) (io : ReadCalls) :
    (getLogFileSize s d seq io).2 = (s, d) ∨ ∃ f, s.sequenceFiles.get? seq = some f ∧
      (getLogFileSize s d seq io).2 = (s.ensureOpen d seq f (io.openCalls seq)).2 := by
  unfold getLogFileSize
  cases hf : s.sequenceFiles.get? seq with
  | none => exact Or.inl rfl
  | some f =>
    refine Or.inr ⟨f, rfl, ?_⟩
    simp only
    split <;> rfl

theorem getLastCommittedPosition_store (s : TransactionLogStore) (d : Disk) :
    ∃ position, s.getLastCommittedPosition d = { s with lastCommittedPosition := position } := by
  unfold TransactionLogStore.getLastCommittedPosition
  by_cases hz : s.lastCommittedPosition.isZero = true
  · exact ⟨_, if_pos hz⟩
  · exact ⟨s.lastCommittedPosition, if_neg hz⟩

end Read

section Find

theorem indexLoop_isOpen {map : Bytes} : ∀ {fuel : ℕ} {f f' : TransactionLogFile} {b : Bool},
    f.indexLoop map fuel = .ok (f', b) → f'.isOpen = f.isOpen := by
  intro fuel
  induction fuel with
  | zero => intro f f' b h; cases h
  | succ fuel ih =>
    intro f f' b h
    simp only [TransactionLogFile.indexLoop] at h
    split_ifs at h
    all_goals first
      | exact (ih h).trans rfl
      | (rw [Except.ok.injEq, Prod.mk.injEq] at h; obtain ⟨rfl, -⟩ := h; rfl)

theorem findPosition_isOpen (f : TransactionLogFile) (bytes : Bytes) (timestamp : Binary64) (mapSize : ℕ)
    (mmapOk : Bool) :
    (f.findPositionByTimestamp bytes timestamp mapSize mmapOk).1.isOpen = f.isOpen := by
  unfold TransactionLogFile.findPositionByTimestamp
  split
  · rfl
  · split
    · rfl
    · rename_i hidx
      split <;> exact indexLoop_isOpen hidx

/-- A lookup leaves every file as open as it was. -/
theorem findPositionFrom_files {cfg : StoreConfig} {d : Disk} {timestamp : Binary64} {io : ReadCalls} :
    ∀ {seq : ℕ} {isCurrent : Bool} {s : TransactionLogStore} {q : ℕ} {f' : TransactionLogFile},
      (findPositionFrom cfg d timestamp io seq isCurrent s).2.sequenceFiles.get? q = some f' →
      ∃ f, s.sequenceFiles.get? q = some f ∧ f'.isOpen = f.isOpen := by
  intro seq
  induction seq using Nat.strong_induction_on with
  | _ seq ih =>
    intro isCurrent s q f' h
    unfold findPositionFrom at h
    cases hg : s.sequenceFiles.get? seq with
    | none =>
      simp only [hg] at h
      exact ⟨f', h, rfl⟩
    | some g =>
      simp only [hg] at h
      set r := g.findPositionByTimestamp (if g.isOpen then d.bytes seq else []) timestamp
        (if isCurrent then cfg.maxFileSize else g.size) (io.mmapOk seq) with hr
      have hset : ∀ {q f'}, (s.setFile seq r.1).sequenceFiles.get? q = some f' →
          ∃ f, s.sequenceFiles.get? q = some f ∧ f'.isOpen = f.isOpen := by
        intro q f' h
        simp only [setFile, SeqMap.get?_set] at h
        split_ifs at h with hq
        · obtain rfl := Option.some.inj h
          exact ⟨g, hq ▸ hg, findPosition_isOpen _ _ _ _ _⟩
        · exact ⟨f', h, rfl⟩
      cases hp : r.2 with
      | position p =>
        simp only [hp] at h
        split_ifs at h
        · exact hset h
        · exact hset h
        · exact hset h
        · cases seq with
          | zero => exact hset h
          | succ n =>
            obtain ⟨f1, hf1, ho1⟩ := ih n (Nat.lt_succ_self n) h
            obtain ⟨f, hf, ho⟩ := hset hf1
            exact ⟨f, hf, ho1.trans ho⟩
      | outOfBounds =>
        simp only [hp] at h
        exact hset h
      | spinning =>
        simp only [hp] at h
        exact hset h

theorem findPosition_files {cfg : StoreConfig} {s : TransactionLogStore} {d : Disk} {timestamp : Binary64}
    {io : ReadCalls} {q : ℕ} {f' : TransactionLogFile}
    (h : (findPositionByTimestamp cfg s d timestamp io).2.sequenceFiles.get? q = some f') :
    ∃ f, s.sequenceFiles.get? q = some f ∧ f'.isOpen = f.isOpen := by
  simp only [findPositionByTimestamp] at h
  split at h
  · exact findPositionFrom_files h
  · exact findPositionFrom_files h

/-- A lookup touches nothing but the files' objects, and keeps them all. -/
theorem findPositionFrom_store (cfg : StoreConfig) (d : Disk) (timestamp : Binary64) (io : ReadCalls) :
    ∀ (seq : ℕ) (isCurrent : Bool) (s : TransactionLogStore),
      ∃ files, (findPositionFrom cfg d timestamp io seq isCurrent s).2 = { s with sequenceFiles := files } ∧
        ∀ q, (s.sequenceFiles.get? q).isSome → (files.get? q).isSome := by
  intro seq
  induction seq using Nat.strong_induction_on with
  | _ seq ih =>
    intro isCurrent s
    unfold findPositionFrom
    cases hg : s.sequenceFiles.get? seq with
    | none => exact ⟨s.sequenceFiles, rfl, fun _ hq => hq⟩
    | some g =>
      simp only
      generalize g.findPositionByTimestamp (if g.isOpen then d.bytes seq else []) timestamp
        (if isCurrent then cfg.maxFileSize else g.size) (io.mmapOk seq) = r
      obtain ⟨f, outcome⟩ := r
      have hset : ∀ q, (s.sequenceFiles.get? q).isSome → ((s.setFile seq f).sequenceFiles.get? q).isSome :=
        fun q hq => isSome_setFile s seq f hq
      cases outcome with
      | position p =>
        simp only
        split_ifs
        · exact ⟨_, rfl, hset⟩
        · exact ⟨_, rfl, hset⟩
        · exact ⟨_, rfl, hset⟩
        · cases seq with
          | zero => exact ⟨_, rfl, hset⟩
          | succ n =>
            obtain ⟨files, hs, hfiles⟩ := ih n (Nat.lt_succ_self n) false (s.setFile (n + 1) f)
            exact ⟨files, hs, fun q hq => hfiles q (hset q hq)⟩
      | outOfBounds => exact ⟨_, rfl, hset⟩
      | spinning => exact ⟨_, rfl, hset⟩

theorem findPosition_store (cfg : StoreConfig) (s : TransactionLogStore) (d : Disk) (timestamp : Binary64)
    (io : ReadCalls) :
    ∃ files, (findPositionByTimestamp cfg s d timestamp io).2 = { s with sequenceFiles := files } ∧
      ∀ q, (s.sequenceFiles.get? q).isSome → (files.get? q).isSome := by
  unfold TransactionLogStore.findPositionByTimestamp
  simp only
  split
  · exact findPositionFrom_store _ _ _ _ _ _ _
  · exact findPositionFrom_store _ _ _ _ _ _ _

/-- A lookup that resets no size leaves them exact. -/
theorem findPosition_exact {cfg : StoreConfig} {s : TransactionLogStore} {d : Disk} {timestamp : Binary64}
    {io : ReadCalls} (h : SizesExact s d)
    (hsize : ∀ q f, s.sequenceFiles.get? q = some f →
      (findPositionByTimestamp cfg s d timestamp io).2.sizeOf q = f.size) :
    SizesExact (findPositionByTimestamp cfg s d timestamp io).2 d := by
  intro q f' hf'
  obtain ⟨f, hf, ho⟩ := findPosition_files hf'
  have hsz : f'.size = f.size := (sizeOf_eq hf').symm.trans (hsize q f hf)
  exact ⟨fun h1 => hsz.trans ((h hf).opened (ho ▸ h1)), fun h1 => hsz.trans ((h hf).closed (ho ▸ h1))⟩

end Find

section Purge
variable {cfg : StoreConfig} {s : TransactionLogStore} {d : Disk} {all : Bool} {before : ℕ} {io : FilesCalls}

theorem foldl_erase_get? {α : Type*} (l : List ℕ) (m : SeqMap α) (q : ℕ) :
    (l.foldl SeqMap.erase m).get? q = if q ∈ l then none else m.get? q := by
  induction l generalizing m with
  | nil => simp
  | cons k l ih =>
    rw [List.foldl_cons, ih, SeqMap.get?_erase]
    by_cases h1 : q ∈ l
    · simp [h1]
    · by_cases h2 : q = k <;> simp [h1, h2]

theorem forgetFile_files (s : TransactionLogStore) (seq : ℕ) :
    (s.forgetFile seq).sequenceFiles = s.sequenceFiles.erase seq := by
  unfold forgetFile
  split_ifs <;> rfl

theorem foldl_forgetFile_files (l : List ℕ) (s : TransactionLogStore) :
    (l.foldl forgetFile s).sequenceFiles = l.foldl SeqMap.erase s.sequenceFiles := by
  induction l generalizing s with
  | nil => rfl
  | cons k l ih => rw [List.foldl_cons, List.foldl_cons, ih, forgetFile_files]

/-- A file that `doPurge` removes is registered, and by its size entirely flushed. -/
theorem mem_purgedSequences {seq : ℕ} (h : seq ∈ purgedSequences cfg s d all before io) :
    ∃ f, s.sequenceFiles.get? seq = some f ∧ entirelyFlushed (getLastFlushedPosition d) seq f = true := by
  obtain ⟨e, he, rfl⟩ := List.mem_map.mp h
  obtain ⟨hmem, hcond⟩ := List.mem_filter.mp he
  simp only [Bool.and_eq_true] at hcond
  exact ⟨e.2, SeqMap.get?_eq_some_iff.mpr hmem, hcond.1.1.2⟩

/-- What `doPurge` leaves of the map and of the files. -/
theorem doPurge_cases (cfg : StoreConfig) (s : TransactionLogStore) (d : Disk) (all : Bool) (before : ℕ)
    (io : FilesCalls) :
    let removed := purgedSequences cfg s d all before io
    let r := doPurge cfg s d all before io
    (∀ q, r.1.sequenceFiles.get? q = if q ∈ removed then none else s.sequenceFiles.get? q) ∧
      ((∀ q, r.2.logs.get? q = if q ∈ removed then none else d.logs.get? q) ∨
        (r.2.logs = SeqMap.empty ∧ ∀ q, r.1.sequenceFiles.get? q = none)) := by
  intro removed r
  have hfiles : ∀ q, (removed.foldl forgetFile s).sequenceFiles.get? q =
      if q ∈ removed then none else s.sequenceFiles.get? q := by
    intro q
    rw [foldl_forgetFile_files, foldl_erase_get?]
  have hr : r = doPurge cfg s d all before io := rfl
  unfold doPurge at hr
  by_cases hempty : (removed.foldl forgetFile s).sequenceFiles.entries.isEmpty ∧ removed ≠ []
  · rw [if_pos hempty] at hr
    rw [hr]
    refine ⟨hfiles, Or.inr ⟨rfl, fun q => ?_⟩⟩
    change (List.lookup q (removed.foldl forgetFile s).sequenceFiles.entries) = none
    rw [List.isEmpty_iff.mp hempty.1]
    rfl
  · rw [if_neg hempty] at hr
    rw [hr]
    exact ⟨hfiles, Or.inl fun q => foldl_erase_get? _ _ _⟩

theorem doPurge_exact (h : SizesExact s d) :
    SizesExact (doPurge cfg s d all before io).1 (doPurge cfg s d all before io).2 := by
  obtain ⟨hfiles, hdisk⟩ := doPurge_cases cfg s d all before io
  intro q f hf
  rw [hfiles] at hf
  split_ifs at hf with hq
  rcases hdisk with hlogs | ⟨-, hnone⟩
  · have hb : (doPurge cfg s d all before io).2.bytes q = d.bytes q := by
      rw [Disk.bytes, hlogs, if_neg hq, Disk.bytes]
    rw [hb]
    exact h hf
  · have := hnone q
    rw [hfiles, if_neg hq, hf] at this
    cases this

/-- `doClose` forgets the files first, so its purge removes nothing. -/
theorem doClose_disk (cfg : StoreConfig) (s : TransactionLogStore) (d : Disk) (io : FilesCalls) :
    (doClose cfg s d io).2 = d ∧ (doClose cfg s d io).1.sequenceFiles = SeqMap.empty := by
  unfold doClose doPurge purgedSequences
  simp [SeqMap.empty]

end Purge

section Load
variable {cfg : StoreConfig} {io : FilesCalls}

theorem open_length {f : TransactionLogFile} (disk : Option Bytes) (timestamp : Binary64) {o : OpenCalls}
    (hclosed : f.isOpen = false) (hio : o.Exact) (hlen : (disk.getD []).length < UINT32_RANGE) :
    ((f.open disk timestamp o).2.2.getD []).length < UINT32_RANGE := by
  unfold TransactionLogFile.open TransactionLogFile.openFile
  simp only [hclosed, hio.1, Bool.false_eq_true, if_false, Bool.not_true]
  split_ifs
  · exact hlen
  · simp only [TransactionLogFile.readHeader, Option.getD_some]
    rw [Nat.mod_eq_of_lt hlen]
    split_ifs with h0
    · rw [hio.2, List.length_append, h0, headerBytes_length]
      decide
    all_goals exact hlen

/-- Opening a file leaves all files below 4 GiB. -/
theorem ensureOpen_length (s : TransactionLogStore) {d : Disk} (seq : ℕ) (f : TransactionLogFile) {o : OpenCalls}
    (hio : o.Exact) (hlen : ∀ q, (d.bytes q).length < UINT32_RANGE) (q : ℕ) :
    ((s.ensureOpen d seq f o).2.2.bytes q).length < UINT32_RANGE := by
  unfold ensureOpen openLogFile
  cases ho : f.isOpen with
  | true => simpa only [if_true] using hlen q
  | false =>
    simp only [Bool.false_eq_true, if_false]
    have hop := open_length (d.logs.get? seq) s.latestTimestamp ho hio (hlen seq)
    split
    · rename_i bytes hr
      rw [hr] at hop
      rw [Disk.bytes_set]
      split_ifs
      · exact hop
      · exact hlen q
    · exact hlen q

/-- The scan so far: sizes are exact, a registered file is none that the scan removes, and all
files are below 4 GiB. -/
structure ScanExact (cfg : StoreConfig) (io : FilesCalls) (sd : TransactionLogStore × Disk) : Prop where
  sizes : SizesExact sd.1 sd.2
  kept : ∀ {seq f}, sd.1.sequenceFiles.get? seq = some f → expired cfg io seq = false ∧ (io.openCalls seq).Exact
  below : ∀ q, (sd.2.bytes q).length < UINT32_RANGE

theorem registerLogFile_exact {s : TransactionLogStore} {d : Disk} (h : SizesExact s d)
    (hlen : ∀ q, (d.bytes q).length < UINT32_RANGE) {seq : ℕ} (hio : (io.openCalls seq).Exact) :
    SizesExact (s.registerLogFile d seq io).1 (s.registerLogFile d seq io).2 ∧
      ∀ q, ((s.registerLogFile d seq io).2.bytes q).length < UINT32_RANGE := by
  unfold registerLogFile
  set f : TransactionLogFile := { sequenceNumber := seq, fileLastWriteTime := (io.mtime seq).getD io.now }
  have h1 : SizesExact (s.setFile seq f) d := setFile_exact h ⟨fun ho => absurd ho Bool.false_ne_true, fun _ => rfl⟩
  have hf : (s.setFile seq f).sequenceFiles.get? seq = some f := SeqMap.get?_set_self _ _ _
  by_cases hcur : (s.setFile seq f).currentSequenceNumber ≤ seq
  · simp only [if_pos hcur]
    have h2 := ensureOpen_exact h1 hf hio (hlen seq)
    have h3 := ensureOpen_length (s.setFile seq f) seq f hio hlen
    cases hr : ((s.setFile seq f).ensureOpen d seq f (io.openCalls seq)).1 with
    | some e => exact ⟨h2, h3⟩
    | none => exact ⟨h2, h3⟩
  · simp only [if_neg hcur]
    exact ⟨h1, hlen⟩

theorem loadFile_exact {sd : TransactionLogStore × Disk} {seq : ℕ} (h : ScanExact cfg io sd)
    (hio : (io.openCalls seq).Exact) : ScanExact cfg io (loadFile cfg io sd seq) := by
  unfold loadFile
  split_ifs with hstat hexp hrem
  · exact h
  · have hbytes : ∀ q, ({ sd.2 with logs := sd.2.logs.erase seq } : Disk).bytes q = if q = seq then []
        else sd.2.bytes q := by
      intro q
      simp only [Disk.bytes, SeqMap.get?_erase]
      split_ifs <;> rfl
    refine ⟨fun q f hf => ?_, h.kept, fun q => ?_⟩
    · have hne : q ≠ seq := by
        rintro rfl
        rw [(h.kept hf).1] at hexp
        cases hexp
      rw [hbytes, if_neg hne]
      exact h.sizes hf
    · rw [hbytes]
      split_ifs
      · decide
      · exact h.below q
  · exact h
  · obtain ⟨h1, h2⟩ := registerLogFile_exact h.sizes h.below hio
    refine ⟨h1, fun {q f} hf => ?_, h2⟩
    by_cases hq : q = seq
    · subst hq
      exact ⟨Bool.eq_false_iff.mpr hexp, hio⟩
    · exact h.kept ((registerLogFile_get? hq).symm.trans hf)

theorem scan_exact {order : List ℕ} {sd : TransactionLogStore × Disk} (h : ScanExact cfg io sd)
    (hio : ∀ seq ∈ order, (io.openCalls seq).Exact) : ScanExact cfg io (order.foldl (loadFile cfg io) sd) := by
  induction order generalizing sd with
  | nil => exact h
  | cons seq order ih =>
    exact ih (loadFile_exact h (hio seq List.mem_cons_self)) fun q hq => hio q (List.mem_cons_of_mem _ hq)

theorem recoverTail_exact {f : TransactionLogFile} {bytes : Bytes} (h : Exact f bytes)
    (o : TransactionLogFile.RecoverCalls) :
    Exact (f.recoverTail bytes o).1 (f.recoverTail bytes o).2 := by
  rcases recoverTail_cases f bytes o with hr | ⟨e, he, -, hr⟩
  · rw [hr]
    exact h
  · rw [hr]
    refine ⟨fun ho => ?_, fun ho => ?_⟩
    · rw [List.length_take, ← h.opened ho]
      exact (min_eq_left he.le).symm
    · have := h.closed ho
      omega

theorem load_exact {d d' : Disk} {order : List ℕ} {s : TransactionLogStore}
    (hio : ∀ seq ∈ order, (io.openCalls seq).Exact) (hlen : ∀ q, (d.bytes q).length < UINT32_RANGE)
    (h : load cfg d order io = (some s, d')) : SizesExact s d' := by
  have hscan : ScanExact cfg io (order.foldl (loadFile cfg io) ({}, d)) :=
    scan_exact ⟨fun _ _ hf => (nomatch hf), fun hf => (nomatch hf), hlen⟩ hio
  unfold load at h
  generalize order.foldl (loadFile cfg io) ({}, d) = sd at hscan h
  obtain ⟨s1, d1⟩ := sd
  simp only at h
  cases hf : s1.sequenceFiles.get? s1.currentSequenceNumber with
  | none =>
    simp only [hf, Prod.mk.injEq, Option.some.injEq] at h
    obtain ⟨rfl, rfl⟩ := h
    exact hscan.sizes
  | some f =>
    simp only [hf] at h
    have hex := ensureOpen_exact hscan.sizes hf (hscan.kept hf).2 (hscan.below _)
    obtain ⟨hc, f', hf', -⟩ := ensureOpen_change s1 d1 hf (hscan.sizes hf).closed
      (hscan.sizes hf).size_le (hscan.kept hf).2.2
    generalize s1.ensureOpen d1 s1.currentSequenceNumber f (io.openCalls s1.currentSequenceNumber) = r at hc hf' hex h
    obtain ⟨threw, s2, d2⟩ := r
    cases threw with
    | some e => simp at h
    | none =>
      simp only [hf', Option.getD_some, Prod.mk.injEq, Option.some.injEq] at h
      obtain ⟨rfl, rfl⟩ := h
      have hrec := recoverTail_exact (hex hf') io.recover
      intro q g hg
      rw [Disk.bytes_set]
      simp only [positionInsert, setFile, SeqMap.get?_set] at hg
      split_ifs at hg ⊢
      · obtain rfl := Option.some.inj hg
        exact hrec
      · exact hex hg

/-- What a scan removes was expired. -/
theorem loadFile_keeps {sd : TransactionLogStore × Disk} {seq q : ℕ} (hq : (sd.2.logs.get? q).isSome)
    (hne : q = seq → expired cfg io q = false) : ((loadFile cfg io sd seq).2.logs.get? q).isSome := by
  unfold loadFile
  split_ifs with hstat hexp hrem
  · exact hq
  · simp only [SeqMap.get?_erase]
    rw [if_neg]
    · exact hq
    · intro he
      rw [← he, hne he] at hexp
      cases hexp
  · exact hq
  · simp only [registerLogFile]
    split_ifs
    · split
      · exact ensureOpen_keeps _ _ _ _ hq
      · exact ensureOpen_keeps _ _ _ _ hq
    · exact hq

theorem load_keeps (cfg : StoreConfig) {d : Disk} (order : List ℕ) (io : FilesCalls) {q : ℕ}
    (hq : (d.logs.get? q).isSome) (hne : q ∈ order → expired cfg io q = false) :
    ((load cfg d order io).2.logs.get? q).isSome := by
  have hscan : ∀ (l : List ℕ) (sd : TransactionLogStore × Disk), (∀ seq ∈ l, seq ∈ order) → (sd.2.logs.get? q).isSome →
      ((l.foldl (loadFile cfg io) sd).2.logs.get? q).isSome := by
    intro l
    induction l with
    | nil => exact fun sd _ h => h
    | cons seq l ih =>
      intro sd hsub h
      refine ih _ (fun x hx => hsub x (List.mem_cons_of_mem _ hx)) (loadFile_keeps h ?_)
      rintro rfl
      exact hne (hsub q List.mem_cons_self)
  have h1 := hscan order ({}, d) (fun _ h => h) hq
  unfold load
  generalize order.foldl (loadFile cfg io) ({}, d) = sd at h1
  simp only
  split
  · exact h1
  · split
    · exact ensureOpen_keeps _ _ _ _ h1
    · simp only [SeqMap.get?_set]
      split_ifs
      · rfl
      · exact ensureOpen_keeps _ _ _ _ h1

end Load

namespace Life

/-- What a step has to meet for the sizes. The system calls do not fail unnoticed and no append
stops part-way, and no lookup resets a size. -/
def SizesOk (cfg : StoreConfig) (y : Life) : Event → Prop
  | .writer io => ∀ wr ∈ y.world.writer, io.Exact cfg y.world wr
  | .getLogFileSize seq io => (io.openCalls seq).Exact ∧ (y.world.disk.bytes seq).length < UINT32_RANGE
  | .findPosition timestamp io => ∀ e ∈ y.world.store.sequenceFiles.entries,
      (findPositionByTimestamp cfg y.world.store y.world.disk timestamp io).2.sizeOf e.1 = e.2.size
  | .load order io => ∀ seq ∈ order, (io.openCalls seq).Exact ∧ (y.world.disk.bytes seq).length < UINT32_RANGE
  | _ => True

instance (cfg : StoreConfig) (y : Life) : ∀ e : Event, Decidable (SizesOk cfg y e)
  | .writer io => inferInstanceAs (Decidable (∀ wr ∈ y.world.writer, io.Exact cfg y.world wr))
  | .getLogFileSize seq io =>
    inferInstanceAs (Decidable ((io.openCalls seq).Exact ∧ (y.world.disk.bytes seq).length < UINT32_RANGE))
  | .findPosition timestamp io => inferInstanceAs (Decidable (∀ e ∈ y.world.store.sequenceFiles.entries,
      (findPositionByTimestamp cfg y.world.store y.world.disk timestamp io).2.sizeOf e.1 = e.2.size))
  | .load order io =>
    inferInstanceAs (Decidable (∀ seq ∈ order, (io.openCalls seq).Exact ∧
      (y.world.disk.bytes seq).length < UINT32_RANGE))
  | .create | .beginWrite _ | .commitFinished _ _ | .commitAborted _ | .flushScan _ | .flushWrite _
  | .getLastCommittedPosition
  | .purge _ _ _ | .close _ | .crash => isTrue trivial

/-- An open store is right about the sizes of its files. -/
def RightSizes (y : Life) : Prop :=
  y.isOpen = true → SizesExact y.world.store y.world.disk ∧ ∀ wr ∈ y.world.writer, wr.FileOpen y.world.store

/-- The files of a store that has only moved on otherwise. -/
theorem RightSizes.congr {y : Life} {w : World} (h : y.RightSizes)
    (hfiles : w.store.sequenceFiles = y.world.store.sequenceFiles)
    (hlogs : w.disk.logs = y.world.disk.logs) (hwriter : w.writer = y.world.writer) :
    y.isOpen = true → SizesExact w.store w.disk ∧ ∀ wr ∈ w.writer, wr.FileOpen w.store := by
  intro ho
  obtain ⟨hs, hw⟩ := h ho
  refine ⟨fun q f hf => ?_, fun wr hwr => ?_⟩
  · rw [hfiles] at hf
    rw [Disk.bytes, hlogs]
    exact hs hf
  · rw [hwriter] at hwr
    refine (hw wr hwr).mono fun q f' hf' => ⟨f', ?_, id⟩
    rwa [hfiles] at hf'

theorem beginWrite_files (w : World) (batch : TransactionLogEntryBatch) :
    (RocksdbJs.beginWrite w batch).store.sequenceFiles = w.store.sequenceFiles ∧
      (RocksdbJs.beginWrite w batch).disk = w.disk ∧
      ∀ wr ∈ (RocksdbJs.beginWrite w batch).writer, ∀ s, wr.FileOpen s := by
  unfold RocksdbJs.beginWrite outerLoop
  split_ifs
  all_goals
    refine ⟨rfl, rfl, fun wr hwr s => ?_⟩
    obtain rfl := Option.some.inj hwr
    exact trivial

section
variable {cfg : StoreConfig} {y y' : Life}

theorem stepOpen_rightSizes {e : Event} (hi : y.RightSizes) (hopen : y.isOpen = true) (hok : SizesOk cfg y e)
    (h : y.stepOpen cfg e = some y') : y'.RightSizes := by
  obtain ⟨hs, hw⟩ := hi hopen
  cases e with
  | create => cases h
  | beginWrite batch =>
    simp only [stepOpen] at h
    split_ifs at h
    obtain rfl := Option.some.inj h
    obtain ⟨hfiles, hdisk, hwriter⟩ := beginWrite_files y.world batch
    refine fun _ => ⟨fun q f hf => ?_, fun wr hwr => hwriter wr hwr _⟩
    change (RocksdbJs.beginWrite y.world batch).store.sequenceFiles.get? q = some f at hf
    change RocksdbJs.Exact f ((RocksdbJs.beginWrite y.world batch).disk.bytes q)
    rw [hfiles] at hf
    rw [hdisk]
    exact hs hf
  | writer io =>
    simp only [stepOpen, stepWriter, Option.map_eq_some_iff, Option.bind_eq_some_iff] at h
    obtain ⟨w', ⟨wr, hwr, hstep⟩, rfl⟩ := h
    exact fun _ => writerStep_exact hs (hw wr hwr) (hok wr hwr) hstep
  | commitFinished position seq | commitAborted position =>
    obtain rfl := Option.some.inj h
    exact fun ho => hi.congr rfl rfl rfl ho
  | flushScan seq =>
    obtain rfl := Option.some.inj h
    exact hi
  | flushWrite k =>
    simp only [stepOpen, Option.map_eq_some_iff] at h
    obtain ⟨position, -, rfl⟩ := h
    obtain ⟨stream, written, state, hr⟩ := writeFlushedPosition_cases y.world.store y.world.disk position
    rw [hr]
    exact fun ho => hi.congr rfl rfl rfl ho
  | getLastCommittedPosition =>
    obtain rfl := Option.some.inj h
    obtain ⟨position, hposition⟩ := getLastCommittedPosition_store y.world.store y.world.disk
    rw [hposition]
    exact fun ho => hi.congr rfl rfl rfl ho
  | getLogFileSize seq io =>
    obtain rfl := Option.some.inj h
    rcases getLogFileSize_spec y.world.store y.world.disk seq io with heq | ⟨f, hf, heq⟩
    · refine fun ho => hi.congr ?_ ?_ rfl ho
      all_goals
        simp only [moveTo]
        rw [heq]
    · have hex := ensureOpen_exact hs hf hok.1 hok.2
      have hfiles := fun q g => ensureOpen_files (q := q) (g := g) y.world.disk (io.openCalls seq) hf
      rw [← heq] at hex hfiles
      exact fun _ => ⟨hex, fun wr hwr => (hw wr hwr).mono hfiles⟩
  | findPosition timestamp io =>
    obtain rfl := Option.some.inj h
    have hfiles : ∀ q f', (findPositionByTimestamp cfg y.world.store y.world.disk timestamp
      io).2.sequenceFiles.get? q = some f' →
        ∃ f, y.world.store.sequenceFiles.get? q = some f ∧ f'.isOpen = f.isOpen := fun q f' => findPosition_files
    refine fun _ => ⟨findPosition_exact hs fun q f hf => ?_, fun wr hwr => (hw wr hwr).mono fun q f' hf' => ?_⟩
    · exact hok (q, f) (SeqMap.get?_eq_some_iff.mp hf)
    · obtain ⟨f, hf, ho⟩ := hfiles q f' hf'
      exact ⟨f, hf, fun h1 => ho.trans h1⟩
  | purge all before io =>
    simp only [stepOpen] at h
    split_ifs at h with hbusy
    obtain rfl := Option.some.inj h
    exact fun _ => ⟨doPurge_exact hs, not_busy_fileOpen (w := y.world) (Bool.eq_false_iff.mpr hbusy) _⟩
  | close io =>
    simp only [stepOpen] at h
    split_ifs at h
    obtain rfl := Option.some.inj h
    exact fun ho => absurd ho Bool.false_ne_true
  | crash =>
    obtain rfl := Option.some.inj h
    exact fun ho => absurd ho Bool.false_ne_true
  | load order io => cases h

theorem stepClosed_rightSizes {e : Event} (hclosed : y.isOpen = false) (hok : SizesOk cfg y e)
    (h : y.stepClosed cfg e = some y') : y'.RightSizes := by
  cases e with
  | create =>
    simp only [stepClosed] at h
    split_ifs at h
    obtain rfl := Option.some.inj h
    exact fun _ => ⟨fun _ _ hf => (by cases hf), fun wr hwr => (by cases hwr)⟩
  | load order io =>
    simp only [stepClosed] at h
    split_ifs at h with hperm
    have hlen : ∀ q, (y.world.disk.bytes q).length < UINT32_RANGE := by
      intro q
      cases hq : y.world.disk.logs.get? q with
      | none =>
        rw [Disk.bytes, hq]
        decide
      | some bytes =>
        exact (hok q (hperm.2.mem_iff.mpr (SeqMap.mem_keys_iff.mpr ⟨bytes, hq⟩))).2
    split at h
    · rename_i s d hload
      obtain rfl := Option.some.inj h
      exact fun _ => ⟨load_exact (fun seq hseq => (hok seq hseq).1) hlen hload, fun wr hwr => (by cases hwr)⟩
    · rename_i d hload
      obtain rfl := Option.some.inj h
      exact fun ho => absurd (hclosed.symm.trans ho) Bool.false_ne_true
  | _ => cases h

theorem step_rightSizes {e : Event} (hi : y.RightSizes) (hok : SizesOk cfg y e)
    (h : step cfg y e = some y') : y'.RightSizes := by
  unfold step at h
  split_ifs at h with hopen
  · exact stepOpen_rightSizes hi hopen hok h
  · exact stepClosed_rightSizes (Bool.eq_false_iff.mpr hopen) hok h

end

/-- A batch of one entry, written and committed. -/
def oneBatch : List Event :=
  .beginWrite ⟨⟨5⟩, [oneByteEntry 7], 0⟩ :: List.replicate 8 (.writer { results := [.count 14] }) ++
    [.commitFinished ⟨0, 1⟩ 1]

/-- A batch whose entry is flushed. -/
def flushedBatch : List Event := .create :: oneBatch ++ [.flushScan 1, .flushWrite 0]

end Life

end RocksdbJs
