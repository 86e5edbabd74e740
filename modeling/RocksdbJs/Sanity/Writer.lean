import RocksdbJs.Sanity.Files
import RocksdbJs.Sanity.WriterMoves
import RocksdbJs.Spec.System

/-! One step of `writeBatch`. The writer's registered position stays in the set, at or
below the place of the store's next entry and at or below the end of the current file,
so every entry it appends lies at or after it. This needs three things of a run: the
position handed out on entry is not past that end, the header of a new file lands
whole, and no file outgrows its 32-bit size. -/

namespace RocksdbJs

open TransactionLogStore
open TransactionLogFile (WriteEntriesResult)

/-- The system calls of the step write a new file's header whole and leave the file
they append to below 4 GiB. -/
def WriterCalls.Ok (cfg : StoreConfig) (s : TransactionLogStore) (wr : Writer) (io : WriterCalls) : Prop :=
  match wr.pc with
  | .tryOpen _ => io.openCalls.headerWrites = (4, 1, 8)
  | .write seq => ∀ f ∈ s.sequenceFiles.get? seq,
      f.size + (toWrite f wr.batch cfg.maxFileSize).flatten.length < UINT32_RANGE
  | _ => True

instance (cfg : StoreConfig) (s : TransactionLogStore) (wr : Writer) (io : WriterCalls) : Decidable (io.Ok cfg s wr) :=
  match wr with
  | ⟨.tryOpen _, _, _⟩ => inferInstanceAs (Decidable (io.openCalls.headerWrites = (4, 1, 8)))
  | ⟨.write seq, batch, _⟩ => inferInstanceAs (Decidable (∀ f ∈ s.sequenceFiles.get? seq,
      f.size + (toWrite f batch cfg.maxFileSize).flatten.length < UINT32_RANGE))
  | ⟨.getFile, _, _⟩ => isTrue trivial
  | ⟨.rotateInner, _, _⟩ => isTrue trivial
  | ⟨.fixPosition _, _, _⟩ => isTrue trivial
  | ⟨.checkAge _, _, _⟩ => isTrue trivial
  | ⟨.advance _ _, _, _⟩ => isTrue trivial
  | ⟨.setNext _, _, _⟩ => isTrue trivial
  | ⟨.finish, _, _⟩ => isTrue trivial
  | ⟨.returned, _, _⟩ => isTrue trivial
  | ⟨.threw _, _, _⟩ => isTrue trivial

/-- The registered position lies at or before the end of the current file, which is `seq`. -/
structure Holds (s : TransactionLogStore) (seq : ℕ) (pos : LogPosition) : Prop where
  current : seq = s.currentSequenceNumber
  le_end : pos ≤ s.appendPoint
  next_ne : s.nextLogPosition.logSequenceNumber ≠ 0

def OpenAt (s : TransactionLogStore) (seq : ℕ) : Prop := ∀ f, s.sequenceFiles.get? seq = some f → f.isOpen = true

/-- What holds of the registered position at each place of the writer. -/
def Writer.AtPc (s : TransactionLogStore) (wr : Writer) : Prop :=
  match wr.pc with
  | .getFile => wr.logPosition ≤ s.appendPoint
  | .tryOpen seq => Holds s seq wr.logPosition
  | .rotateInner => Holds s s.currentSequenceNumber wr.logPosition
  | .fixPosition seq => Holds s seq wr.logPosition ∧ OpenAt s seq
  | .checkAge seq => Holds s seq wr.logPosition ∧ OpenAt s seq ∧ wr.logPosition ≠ ⟨0, 0⟩
  | .write seq => Holds s seq wr.logPosition ∧ OpenAt s seq ∧ wr.logPosition ≠ ⟨0, 0⟩
  | .advance seq _ => Holds s seq wr.logPosition ∧ wr.logPosition ≠ ⟨0, 0⟩
  | .setNext seq => wr.logPosition ≤ ⟨s.sizeOf seq, seq⟩ ∧ seq ≤ s.currentSequenceNumber ∧
      s.nextLogPosition.logSequenceNumber ≠ 0 ∧ wr.logPosition ≠ ⟨0, 0⟩
  | _ => True

structure WriterOk (s : TransactionLogStore) (wr : Writer) : Prop where
  mem : wr.logPosition ∈ s.uncommittedTransactionPositions
  le_next : wr.logPosition ≤ s.nextLogPosition
  /-- A position still to be fixed up will be fixed up to one that is not past the end. -/
  zero_next : wr.logPosition = ⟨0, 0⟩ → wr.pc ≠ .finish → s.nextLogPosition ≤ s.appendPoint
  atPc : wr.AtPc s

/-- Everything else that a step of the writer does to the store. -/
structure WriterFrame (w w' : World) (wr wr' : Writer) : Prop where
  writer : w'.writer = some wr'
  committed : w'.store.lastCommittedPosition = w.store.lastCommittedPosition
  samples : w'.store.recentlyCommittedSequencePositions = w.store.recentlyCommittedSequencePositions
  txnState : w'.disk.txnState = w.disk.txnState
  kept : ∀ p ∈ w.store.uncommittedTransactionPositions, p ≠ ⟨0, 0⟩ → p ∈ w'.store.uncommittedTransactionPositions
  added : ∀ p ∈ w'.store.uncommittedTransactionPositions, p ∈ w.store.uncommittedTransactionPositions ∨
    p = wr'.logPosition ∨ (wr'.busy = false ∧ p = w'.store.nextLogPosition)
  position : wr'.logPosition = wr.logPosition ∨ wr.logPosition = ⟨0, 0⟩

theorem appendPoint_lt_advance {s : TransactionLogStore} {d : Disk} (h : FilesOk s d) :
    s.appendPoint < s.advanceSequence.appendPoint := by
  rw [LogPosition.lt_iff]
  exact Or.inl h.current_lt

theorem advanceSequence_filesOk {s : TransactionLogStore} {d : Disk} (h : FilesOk s d)
    (hnext : s.nextLogPosition.logSequenceNumber ≠ 0) : FilesOk s.advanceSequence d :=
  ⟨⟨h.size_le, h.closed, h.current_pos.trans h.current_lt, Nat.lt_succ_self _⟩, fun hz => absurd hz hnext⟩

theorem getLogFile_filesOk {s : TransactionLogStore} {d : Disk} (h : FilesOk s d) (now : ℤ) :
    FilesOk (s.getLogFile d s.currentSequenceNumber now).1 (s.getLogFile d s.currentSequenceNumber now).2 := by
  unfold getLogFile
  cases hf : s.sequenceFiles.get? s.currentSequenceNumber with
  | some f => exact h
  | none =>
    refine ⟨⟨?_, ?_, h.current_pos, h.current_lt⟩, fun hz => absurd hz h.current_pos.ne'⟩
    all_goals
      intro seq g hg
      simp only [SeqMap.get?_set] at hg
      split_ifs at hg with hq
    · obtain rfl := Option.some.inj hg
      exact Nat.zero_le _
    · exact h.size_le hg
    · obtain rfl := Option.some.inj hg
      exact fun _ => rfl
    · exact h.closed hg

/-- What a step of the writer gives, from a state as described. -/
structure WriterStep (w w' : World) (wr wr' : Writer) : Prop extends WriterFrame w w' wr wr' where
  files : FilesOk w'.store w'.disk
  ok : wr'.busy = true → WriterOk w'.store wr'
  next_le : wr'.logPosition ≤ w'.store.nextLogPosition
  locations : ∀ l ∈ wr.appends wr' w.disk, wr.logPosition ≤ l ∧ wr.logPosition ≠ ⟨0, 0⟩

/-- A step that leaves the registered positions alone. -/
theorem WriterFrame.of_eq {w w' : World} {wr wr' : Writer} (hwriter : w'.writer = some wr')
    (hc : w'.store.lastCommittedPosition = w.store.lastCommittedPosition)
    (hs : w'.store.recentlyCommittedSequencePositions = w.store.recentlyCommittedSequencePositions)
    (ht : w'.disk.txnState = w.disk.txnState)
    (hu : w'.store.uncommittedTransactionPositions = w.store.uncommittedTransactionPositions)
    (hp : wr'.logPosition = wr.logPosition) : WriterFrame w w' wr wr' :=
  ⟨hwriter, hc, hs, ht, fun p h _ => by rw [hu]; exact h, fun p h => Or.inl (by rw [← hu]; exact h), Or.inl hp⟩

section
variable {cfg : StoreConfig} {w w' : World} {wr : Writer} {io : WriterCalls}

theorem outerLoop_busy (b : TransactionLogEntryBatch) (p : LogPosition) :
    Writer.busy ⟨outerLoop b, b, p⟩ = true := by
  unfold outerLoop
  split_ifs <;> rfl

theorem writerStep_busy (h : writerStep cfg w wr io = some w') : wr.busy = true := by
  obtain ⟨pc, batch, pos⟩ := wr
  cases pc <;> first | rfl | cases h

/-- The outer loop's test leads to the head of the loop or to its end. -/
theorem outerLoop_writerOk {s : TransactionLogStore} {b : TransactionLogEntryBatch} {p : LogPosition}
    (hmem : p ∈ s.uncommittedTransactionPositions) (hnext : p ≤ s.nextLogPosition) (hend : p ≤ s.appendPoint)
    (hzero : p = ⟨0, 0⟩ → s.nextLogPosition ≤ s.appendPoint) : WriterOk s ⟨outerLoop b, b, p⟩ := by
  refine ⟨hmem, hnext, fun hz _ => hzero hz, ?_⟩
  unfold Writer.AtPc outerLoop
  split_ifs
  · trivial
  · exact hend

/-- Nothing is appended where the writer does not come from a write. -/
theorem appends_nil {wr' : Writer} {d : Disk} (hpc : ∀ seq, wr.pc ≠ .write seq) :
    ∀ l ∈ wr.appends wr' d, wr.logPosition ≤ l ∧ wr.logPosition ≠ ⟨0, 0⟩ := by
  intro l hl
  unfold Writer.appends at hl
  split at hl
  · exact absurd ‹_› (hpc _)
  · cases hl

theorem WriterTurns.step {pc : WriterPc} (hturns : WriterTurns cfg w wr io pc) (hfiles : FilesOk w.store w.disk)
    (hwr : WriterOk w.store wr) : WriterStep w { w with writer := some { wr with pc } } wr { wr with pc } := by
  have hat := hwr.atPc
  refine ⟨.of_eq rfl rfl rfl rfl rfl rfl, hfiles, fun _ => ?_, hwr.le_next, appends_nil ?_⟩
  · cases hturns with
    | full seq f hpc =>
      rw [Writer.AtPc, hpc] at hat
      obtain ⟨rfl, hend, hnz⟩ := hat
      exact ⟨hwr.mem, hwr.le_next, fun hz _ => hwr.zero_next hz (by simp [hpc]), rfl, hend, hnz⟩
    | placed seq hpc hzero =>
      rw [Writer.AtPc, hpc] at hat
      have hne : wr.logPosition ≠ ⟨0, 0⟩ := fun he => by
        rw [LogPosition.isZero_iff.mpr he] at hzero
        cases hzero
      exact ⟨hwr.mem, hwr.le_next, fun hz => absurd hz hne, hat.1, hat.2, hne⟩
    | young seq f hpc =>
      rw [Writer.AtPc, hpc] at hat
      exact ⟨hwr.mem, hwr.le_next, fun hz => absurd hz hat.2.2, hat.1, hat.2.1, hat.2.2⟩
    | stays seq sizeBefore f hpc =>
      rw [Writer.AtPc, hpc] at hat
      obtain ⟨⟨rfl, hend, hnz⟩, hne⟩ := hat
      exact ⟨hwr.mem, hwr.le_next, fun hz => absurd hz hne, hend, le_rfl, hnz, hne⟩
  · cases hturns with
    | full _ _ hpc | placed _ hpc | young _ _ hpc | stays _ _ _ hpc => simp [hpc]

theorem WriterRotates.step {pc : WriterPc} (hrotates : WriterRotates cfg w wr io pc) (hfiles : FilesOk w.store w.disk)
    (hwr : WriterOk w.store wr) :
    WriterStep w { w with store := w.store.advanceSequence, writer := some { wr with pc } } wr { wr with pc } := by
  have hat := hwr.atPc
  have hlt := appendPoint_lt_advance hfiles
  suffices hleft : w.store.nextLogPosition.logSequenceNumber ≠ 0 ∧ WriterOk w.store.advanceSequence { wr with pc } by
    refine ⟨.of_eq rfl rfl rfl rfl rfl rfl, advanceSequence_filesOk hfiles hleft.1, fun _ => hleft.2,
      hwr.le_next, appends_nil ?_⟩
    cases hrotates with
    | inner hpc | old _ _ hpc | outer _ _ _ hpc => simp [hpc]
  cases hrotates with
  | inner hpc =>
    rw [Writer.AtPc, hpc] at hat
    obtain ⟨-, hend, hnz⟩ := hat
    exact ⟨hnz, hwr.mem, hwr.le_next, fun hz _ => (hwr.zero_next hz (by simp [hpc])).trans hlt.le, hend.trans hlt.le⟩
  | old seq f hpc =>
    rw [Writer.AtPc, hpc] at hat
    obtain ⟨⟨rfl, hend, hnz⟩, hopen, hne⟩ := hat
    exact ⟨hnz, outerLoop_writerOk hwr.mem hwr.le_next (hend.trans hlt.le) fun hz => absurd hz hne⟩
  | outer seq sizeBefore f hpc =>
    rw [Writer.AtPc, hpc] at hat
    obtain ⟨⟨rfl, hend, hnz⟩, hne⟩ := hat
    exact ⟨hnz, hwr.mem, hwr.le_next, fun hz => absurd hz hne, hend, hfiles.current_lt.le, hnz, hne⟩

theorem writerStep_getFile (hpc : wr.pc = .getFile) (hfiles : FilesOk w.store w.disk) (hwr : WriterOk w.store wr)
    (hw' : w' = { w with
      store := (w.store.getLogFile w.disk w.store.currentSequenceNumber io.now).1
      disk := (w.store.getLogFile w.disk w.store.currentSequenceNumber io.now).2
      writer := some { wr with pc := .tryOpen w.store.currentSequenceNumber } }) : ∃ wr', WriterStep w w' wr wr' := by
  obtain ⟨pc, batch, pos⟩ := wr
  obtain rfl : pc = .getFile := hpc
  have hend : pos ≤ w.store.appendPoint := hwr.atPc
  have hfiles' := getLogFile_filesOk hfiles io.now
  subst hw'
  refine ⟨⟨.tryOpen w.store.currentSequenceNumber, batch, pos⟩, ?_⟩
  unfold getLogFile at hfiles' ⊢
  cases hf : w.store.sequenceFiles.get? w.store.currentSequenceNumber with
  | some f =>
    rw [hf] at hfiles'
    have hnz : w.store.nextLogPosition.logSequenceNumber ≠ 0 := by
      intro hz
      have hnone := hfiles.next_zero hz
      rw [hf] at hnone
      cases hnone
    refine ⟨.of_eq rfl rfl rfl rfl rfl rfl, hfiles', fun _ => ?_, hwr.le_next, by simp [Writer.appends]⟩
    exact ⟨hwr.mem, hwr.le_next, fun hz _ => hwr.zero_next hz (by simp), rfl, hend, hnz⟩
  | none =>
    rw [hf] at hfiles'
    -- the missing file counts as empty, and becomes the place of the next entry
    have hpt : w.store.appendPoint = ⟨0, w.store.currentSequenceNumber⟩ := by
      rw [appendPoint, sizeOf_none hf]
    rw [hpt] at hend
    have hpt' : ({ w.store with
        sequenceFiles := w.store.sequenceFiles.set w.store.currentSequenceNumber
          { sequenceNumber := w.store.currentSequenceNumber, fileLastWriteTime := io.now }
        nextLogPosition := ⟨0, w.store.currentSequenceNumber⟩ } : TransactionLogStore).appendPoint =
        ⟨0, w.store.currentSequenceNumber⟩ := by
      rw [appendPoint, sizeOf_eq (SeqMap.get?_set_self _ _ _)]
    refine ⟨.of_eq rfl rfl rfl rfl rfl rfl, hfiles', fun _ => ?_, hend, by simp [Writer.appends]⟩
    refine ⟨hwr.mem, hend, fun _ _ => ?_, rfl, ?_, hfiles.current_pos.ne'⟩
    · rw [hpt']
    · rw [hpt']
      exact hend

theorem writerStep_tryOpen {seq : ℕ} {f : TransactionLogFile} (hpc : wr.pc = .tryOpen seq)
    (hfiles : FilesOk w.store w.disk)
    (hwr : WriterOk w.store wr) (hf : w.store.sequenceFiles.get? seq = some f)
    (hio : io.openCalls.headerWrites = (4, 1, 8))
    (hw' : w' = { w with
      store := (w.store.ensureOpen w.disk seq f io.openCalls).2.1
      disk := (w.store.ensureOpen w.disk seq f io.openCalls).2.2
      writer := some { wr with
        pc := if (w.store.ensureOpen w.disk seq f io.openCalls).1.isSome then .rotateInner else .fixPosition seq } }) :
    ∃ wr', WriterStep w w' wr wr' := by
  obtain ⟨pc, batch, pos⟩ := wr
  obtain rfl : pc = .tryOpen seq := hpc
  obtain ⟨rfl, hend, hnz⟩ := hwr.atPc
  subst hw'
  obtain ⟨hc, f', hf', hop⟩ := ensureOpen_change w.store w.disk hf (hfiles.closed hf) (hfiles.size_le hf) hio
  have hfiles' := hc.filesOk hfiles hf hf' hop.size_le hop.closed
  set r := w.store.ensureOpen w.disk w.store.currentSequenceNumber f io.openCalls
  obtain ⟨files, hs⟩ := hc.store
  -- the open can only raise the size that is held
  have hmono : w.store.appendPoint ≤ r.2.1.appendPoint := by
    have hcur : r.2.1.currentSequenceNumber = w.store.currentSequenceNumber := by rw [hs]
    rw [LogPosition.le_iff]
    refine Or.inr ⟨hcur.symm, ?_⟩
    change w.store.sizeOf _ ≤ r.2.1.sizeOf _
    rw [hcur, sizeOf_eq hf, sizeOf_eq hf']
    exact hop.size_mono
  have hnext : r.2.1.nextLogPosition = w.store.nextLogPosition := by rw [hs]
  have hcur : r.2.1.currentSequenceNumber = w.store.currentSequenceNumber := by rw [hs]
  have hmem : r.2.1.uncommittedTransactionPositions = w.store.uncommittedTransactionPositions := by rw [hs]
  refine ⟨⟨if r.1.isSome then .rotateInner else .fixPosition w.store.currentSequenceNumber, batch, pos⟩,
    .of_eq rfl ?_ ?_ hc.txnState hmem rfl, hfiles', fun _ => ?_, ?_, by simp [Writer.appends]⟩
  · change r.2.1.lastCommittedPosition = _
    rw [hs]
  · change r.2.1.recentlyCommittedSequencePositions = _
    rw [hs]
  · refine ⟨?_, ?_, fun hz _ => ?_, ?_⟩
    · change pos ∈ r.2.1.uncommittedTransactionPositions
      rw [hmem]
      exact hwr.mem
    · change pos ≤ r.2.1.nextLogPosition
      rw [hnext]
      exact hwr.le_next
    · change r.2.1.nextLogPosition ≤ _
      rw [hnext]
      exact (hwr.zero_next hz (by simp)).trans hmono
    · have hholds : Holds r.2.1 r.2.1.currentSequenceNumber pos := ⟨rfl, hend.trans hmono, by rwa [← hnext] at hnz⟩
      unfold Writer.AtPc
      split_ifs with hthrew
      · exact hholds
      · refine ⟨by rwa [hcur] at hholds, fun g hg => ?_⟩
        exact ensureOpen_isOpen hf (Option.not_isSome_iff_eq_none.mp hthrew) hg
  · change pos ≤ r.2.1.nextLogPosition
    rw [hnext]
    exact hwr.le_next

theorem writerStep_fixPosition {seq : ℕ} (hpc : wr.pc = .fixPosition seq) (hfiles : FilesOk w.store w.disk)
    (hwr : WriterOk w.store wr) (hzero : wr.logPosition.isZero = true) :
    ∃ wr', WriterStep w { w with
      store := (w.store.positionErase wr.logPosition).positionInsert w.store.nextLogPosition
      writer := some { wr with pc := .checkAge seq, logPosition := w.store.nextLogPosition } } wr wr' := by
  obtain ⟨pc, batch, pos⟩ := wr
  obtain rfl : pc = .fixPosition seq := hpc
  obtain ⟨⟨rfl, hend, hnz⟩, hopen⟩ := hwr.atPc
  obtain rfl : pos = ⟨0, 0⟩ := LogPosition.isZero_iff.mp hzero
  have hle := hwr.zero_next rfl (by simp)
  refine ⟨⟨.checkAge w.store.currentSequenceNumber, batch, w.store.nextLogPosition⟩,
    ⟨rfl, rfl, rfl, rfl, ?_, ?_, Or.inr rfl⟩, ?_, fun _ => ?_, le_rfl, by simp [Writer.appends]⟩
  · intro p hp hne
    simp only [positionInsert, positionErase, SortedVec.mem_insert, SortedVec.mem_erase]
    exact Or.inr ⟨hne, hp⟩
  · intro p hp
    simp only [positionInsert, positionErase, SortedVec.mem_insert, SortedVec.mem_erase] at hp
    rcases hp with rfl | ⟨-, hp⟩
    · exact Or.inr (Or.inl rfl)
    · exact Or.inl hp
  · exact ⟨⟨hfiles.size_le, hfiles.closed, hfiles.current_pos, hfiles.current_lt⟩, hfiles.next_zero⟩
  · refine ⟨?_, le_rfl, fun _ _ => hle, ⟨rfl, hle, hnz⟩, hopen, ?_⟩
    · simp only [positionInsert, SortedVec.mem_insert, true_or]
    · intro hz
      exact hnz (congrArg LogPosition.logSequenceNumber hz)

/-- Every one of the places lies in the file, at or after the first. -/
theorem entryLocations_ge {seq offset : ℕ} {rs : List LogRecord} {l : LogPosition}
    (h : l ∈ entryLocations seq offset rs) : ⟨offset, seq⟩ ≤ l := by
  induction rs generalizing offset with
  | nil => simp [entryLocations] at h
  | cons r rs ih =>
    rcases List.mem_cons.mp h with rfl | h
    · exact le_rfl
    · refine le_trans ?_ (ih h)
      rw [LogPosition.le_iff]
      exact Or.inr ⟨rfl, Nat.le_add_right _ _⟩

/-- The file after a call of `writeEntries` that came to an end: it has grown, on the disk
at least as much as in memory. -/
theorem writeEntries_grows {f : TransactionLogFile} {bytes : Bytes} {batch : TransactionLogEntryBatch}
    {maxFileSize : ℕ} (results : List WritevResult) (hle : f.size ≤ bytes.length)
    (hfit : f.size + (toWrite f batch maxFileSize).flatten.length < UINT32_RANGE)
    (hreturns : (f.writeEntries bytes batch maxFileSize results).outcome ≠ .blocked) :
    let r := f.writeEntries bytes batch maxFileSize results
    f.size ≤ r.file.size ∧ r.file.size ≤ r.bytes.length ∧ r.file.isOpen = f.isOpen ∧ bytes <+: r.bytes := by
  intro r
  rw [toWrite_flatten] at hfit
  rcases writeEntries_cases f bytes batch maxFileSize results hreturns with
    ⟨-, hr⟩ | ⟨-, -, hr⟩ | ⟨-, -, -, part, -, hr⟩ | ⟨-, -, -, hr⟩
  · simp only [r, hr]
    exact ⟨le_rfl, hle, rfl, List.prefix_refl _⟩
  · simp only [r, hr]
    exact ⟨le_rfl, hle, rfl, List.prefix_refl _⟩
  · simp only [r, hr, List.length_append]
    exact ⟨le_rfl, hle.trans (Nat.le_add_right _ _), rfl, List.prefix_append _ _⟩
  · simp only [r, hr, List.length_append, add32, Nat.mod_eq_of_lt hfit]
    exact ⟨Nat.le_add_right _ _, Nat.add_le_add_right hle _, rfl, List.prefix_append _ _⟩

theorem writerStep_write {seq : ℕ} {f : TransactionLogFile} (hpc : wr.pc = .write seq) (hfiles : FilesOk w.store w.disk)
    (hwr : WriterOk w.store wr) (hf : w.store.sequenceFiles.get? seq = some f) (hio : io.Ok cfg w.store wr)
    (hreturns : (f.writeEntries (w.disk.bytes seq) wr.batch cfg.maxFileSize io.results).outcome ≠ .blocked)
    (hw' : w' = { w with
      store := w.store.setFile seq
        ((f.writeEntries (w.disk.bytes seq) wr.batch cfg.maxFileSize io.results).stamped io.now)
      disk := { w.disk with
        logs := w.disk.logs.set seq (f.writeEntries (w.disk.bytes seq) wr.batch cfg.maxFileSize io.results).bytes }
      writer := some { wr with
        batch := (f.writeEntries (w.disk.bytes seq) wr.batch cfg.maxFileSize io.results).batch
        pc := (f.writeEntries (w.disk.bytes seq) wr.batch cfg.maxFileSize io.results).pc seq f.size } }) :
    ∃ wr', WriterStep w w' wr wr' := by
  obtain ⟨pc, batch, pos⟩ := wr
  obtain rfl : pc = .write seq := hpc
  obtain ⟨⟨rfl, hend, hnz⟩, hopened, hne⟩ := hwr.atPc
  have hle := hfiles.size_le hf
  obtain ⟨hmono, hsize, hopen, hfront⟩ := writeEntries_grows io.results hle (hio f hf) hreturns
  set r := f.writeEntries (w.disk.bytes w.store.currentSequenceNumber) batch cfg.maxFileSize io.results
  set f' := r.stamped io.now with hf'
  have hf's : f'.size = r.file.size := r.stamped_size _
  have hf'o : f'.isOpen = f.isOpen := (r.stamped_isOpen _).trans hopen
  subst hw'
  have hpoint : w.store.appendPoint = ⟨f.size, w.store.currentSequenceNumber⟩ := by rw [appendPoint, sizeOf_eq hf]
  have hpoint' : (w.store.setFile w.store.currentSequenceNumber f').appendPoint =
      ⟨f'.size, w.store.currentSequenceNumber⟩ := by
    rw [appendPoint, sizeOf_eq (SeqMap.get?_set_self _ _ _)]
    rfl
  have hend' : pos ≤ ⟨f'.size, w.store.currentSequenceNumber⟩ := by
    rw [hpoint] at hend
    refine hend.trans ?_
    rw [LogPosition.le_iff, hf's]
    exact Or.inr ⟨rfl, hmono⟩
  refine ⟨⟨_, r.batch, pos⟩, .of_eq rfl rfl rfl rfl rfl rfl, ?_, fun hbusy => ?_, hwr.le_next, ?_⟩
  · refine FileChange.filesOk hfiles
      ⟨⟨_, rfl⟩, fun q hq => SeqMap.get?_set_ne _ hq _, fun q hq => ?_, ?_, rfl⟩ hf (SeqMap.get?_set_self _ _ _) ?_ ?_
    · exact (Disk.bytes_set _ _ _ _ _).trans (if_neg hq)
    · rw [Disk.bytes_set, if_pos rfl]
      exact hfront
    · rw [Disk.bytes_set, if_pos rfl, hf's]
      exact hsize
    · intro hclosed
      rw [hf'o, hopened f hf] at hclosed
      cases hclosed
  · refine ⟨hwr.mem, hwr.le_next, fun hz => absurd hz hne, ?_⟩
    unfold Writer.AtPc WriteEntriesResult.pc
    cases hr : r.error with
    | some e => trivial
    | none => exact ⟨⟨rfl, by rwa [hpoint'], hnz⟩, hne⟩
  · intro l hl
    refine ⟨?_, hne⟩
    have hstart : pos ≤ ⟨(w.disk.bytes w.store.currentSequenceNumber).length, w.store.currentSequenceNumber⟩ := by
      rw [hpoint] at hend
      refine hend.trans ?_
      rw [LogPosition.le_iff]
      exact Or.inr ⟨rfl, hle⟩
    exact hstart.trans (entryLocations_ge hl)

theorem writerStep_setNext {seq : ℕ} {f : TransactionLogFile} (hpc : wr.pc = .setNext seq)
    (hfiles : FilesOk w.store w.disk) (hwr : WriterOk w.store wr)
    (hf : w.store.sequenceFiles.get? seq = some f) :
    ∃ wr', WriterStep w { w with
      store := { w.store with nextLogPosition := ⟨f.size, w.store.currentSequenceNumber⟩ }
      writer := some { wr with pc := outerLoop wr.batch } } wr wr' := by
  obtain ⟨pc, batch, pos⟩ := wr
  obtain rfl : pc = .setNext seq := hpc
  obtain ⟨hend, hseq, hnz, hne⟩ := hwr.atPc
  rw [sizeOf_eq hf] at hend
  -- the old file's size beside the current number, which may be the next one
  have hle : pos ≤ ⟨f.size, w.store.currentSequenceNumber⟩ := by
    refine hend.trans ?_
    rw [LogPosition.le_iff]
    change seq < w.store.currentSequenceNumber ∨ seq = w.store.currentSequenceNumber ∧ f.size ≤ f.size
    omega
  have hpoint : pos ≤ w.store.appendPoint := by
    by_cases hcur : seq = w.store.currentSequenceNumber
    · subst hcur
      rwa [appendPoint, sizeOf_eq hf]
    · refine hend.trans ?_
      rw [LogPosition.le_iff]
      exact Or.inl (lt_of_le_of_ne hseq hcur)
  refine ⟨⟨outerLoop batch, batch, pos⟩, .of_eq rfl rfl rfl rfl rfl rfl, ?_, fun _ => ?_, hle, by simp [Writer.appends]⟩
  · exact ⟨⟨hfiles.size_le, hfiles.closed, hfiles.current_pos, hfiles.current_lt⟩,
      fun hz => absurd hz hfiles.current_pos.ne'⟩
  · exact outerLoop_writerOk hwr.mem hle hpoint fun hz => absurd hz hne

theorem writerStep_finish (hpc : wr.pc = .finish) (hfiles : FilesOk w.store w.disk) (hwr : WriterOk w.store wr) :
    ∃ wr', WriterStep w { w with
      store := { w.store.positionInsert w.store.nextLogPosition with
        pendingTransactionCount := w.store.pendingTransactionCount - 1 }
      writer := some { wr with pc := .returned } } wr wr' := by
  obtain ⟨pc, batch, pos⟩ := wr
  obtain rfl : pc = .finish := hpc
  refine ⟨⟨.returned, batch, pos⟩, ⟨rfl, rfl, rfl, rfl, ?_, ?_, Or.inl rfl⟩, ?_, by simp [Writer.busy], hwr.le_next,
    by simp [Writer.appends]⟩
  · intro p hp _
    simp only [positionInsert, SortedVec.mem_insert]
    exact Or.inr hp
  · intro p hp
    simp only [positionInsert, SortedVec.mem_insert] at hp
    rcases hp with rfl | hp
    · exact Or.inr (Or.inr ⟨rfl, rfl⟩)
    · exact Or.inl hp
  · exact ⟨⟨hfiles.size_le, hfiles.closed, hfiles.current_pos, hfiles.current_lt⟩, hfiles.next_zero⟩

theorem writerStep_spec (hfiles : FilesOk w.store w.disk) (hwr : WriterOk w.store wr) (hio : io.Ok cfg w.store wr)
    (h : writerStep cfg w wr io = some w') : ∃ wr', WriterStep w w' wr wr' := by
  cases writerStep_move h with
  | turn pc hturns => exact ⟨_, hturns.step hfiles hwr⟩
  | rotate pc hrotates => exact ⟨_, hrotates.step hfiles hwr⟩
  | get hpc => exact writerStep_getFile hpc hfiles hwr rfl
  | opens seq f hpc hf hroom =>
    rw [WriterCalls.Ok, hpc] at hio
    exact writerStep_tryOpen hpc hfiles hwr hf hio rfl
  | place seq hpc hzero => exact writerStep_fixPosition hpc hfiles hwr hzero
  | append seq f hpc hf hreturns => exact writerStep_write hpc hfiles hwr hf hio hreturns rfl
  | setNext seq f hpc hf => exact writerStep_setNext hpc hfiles hwr hf
  | finish hpc => exact writerStep_finish hpc hfiles hwr

end

end RocksdbJs
