import RocksdbJs.Spec.LogWriter

/-! What one step of a writer can do to the store, the log and the writer itself. Every invariant of a
store with a writer in it is kept by these eight moves. -/

namespace RocksdbJs

open TransactionLogStore

/-- The steps that only go on to another place in the code. -/
inductive WriterTurns (cfg : StoreConfig) (w : World) (wr : Writer) (io : WriterCalls) : WriterPc → Prop
  | full (seq : ℕ) (f : TransactionLogFile) (hpc : wr.pc = .tryOpen seq) (hf : w.store.sequenceFiles.get? seq = some f)
      (hroom : ¬ (cfg.maxFileSize = 0 ∨ f.size < cfg.maxFileSize)) : WriterTurns cfg w wr io .rotateInner
  | placed (seq : ℕ) (hpc : wr.pc = .fixPosition seq) (hzero : wr.logPosition.isZero = false) :
      WriterTurns cfg w wr io (.checkAge seq)
  | young (seq : ℕ) (f : TransactionLogFile) (hpc : wr.pc = .checkAge seq)
      (hf : w.store.sequenceFiles.get? seq = some f) (hold : tooOld cfg f io.now = false) :
      WriterTurns cfg w wr io (.write seq)
  | stays (seq sizeBefore : ℕ) (f : TransactionLogFile) (hpc : wr.pc = .advance seq sizeBefore)
      (hf : w.store.sequenceFiles.get? seq = some f)
      (hroom : ¬ (f.size = sizeBefore ∨ (0 < cfg.maxFileSize ∧ cfg.maxFileSize ≤ f.size) ∨ !wr.batch.isComplete)) :
      WriterTurns cfg w wr io (.setNext seq)

/-- The steps that go on to the next number. -/
inductive WriterRotates (cfg : StoreConfig) (w : World) (wr : Writer) (io : WriterCalls) : WriterPc → Prop
  | inner (hpc : wr.pc = .rotateInner) : WriterRotates cfg w wr io .getFile
  | old (seq : ℕ) (f : TransactionLogFile) (hpc : wr.pc = .checkAge seq) (hf : w.store.sequenceFiles.get? seq = some f)
      (hold : tooOld cfg f io.now = true) : WriterRotates cfg w wr io (outerLoop wr.batch)
  | outer (seq sizeBefore : ℕ) (f : TransactionLogFile) (hpc : wr.pc = .advance seq sizeBefore)
      (hf : w.store.sequenceFiles.get? seq = some f)
      (hfull : f.size = sizeBefore ∨ (0 < cfg.maxFileSize ∧ cfg.maxFileSize ≤ f.size) ∨ !wr.batch.isComplete) :
      WriterRotates cfg w wr io (.setNext seq)

/-- The file as the writer leaves it. -/
def TransactionLogFile.WriteEntriesResult.stamped (r : TransactionLogFile.WriteEntriesResult) (now : ℤ) :
    TransactionLogFile :=
  if r.error.isSome then r.file else { r.file with fileLastWriteTime := now }

@[simp] theorem TransactionLogFile.WriteEntriesResult.stamped_size
    (r : TransactionLogFile.WriteEntriesResult) (now : ℤ) :
    (r.stamped now).size = r.file.size := by
  unfold stamped
  split_ifs <;> rfl

@[simp] theorem TransactionLogFile.WriteEntriesResult.stamped_isOpen
    (r : TransactionLogFile.WriteEntriesResult) (now : ℤ) :
    (r.stamped now).isOpen = r.file.isOpen := by
  unfold stamped
  split_ifs <;> rfl

/-- Where the writer goes on. -/
def TransactionLogFile.WriteEntriesResult.pc (r : TransactionLogFile.WriteEntriesResult)
    (seq sizeBefore : ℕ) : WriterPc :=
  match r.error with
  | some e => .threw e
  | none => .advance seq sizeBefore

inductive WriterMove (cfg : StoreConfig) (w : World) (wr : Writer) (io : WriterCalls) : World → Prop
  | turn (pc : WriterPc) (hturns : WriterTurns cfg w wr io pc) :
      WriterMove cfg w wr io { w with writer := some { wr with pc } }
  | rotate (pc : WriterPc) (hrotates : WriterRotates cfg w wr io pc) :
      WriterMove cfg w wr io { w with store := w.store.advanceSequence, writer := some { wr with pc } }
  | get (hpc : wr.pc = .getFile) :
      WriterMove cfg w wr io { w with
        store := (w.store.getLogFile w.disk w.store.currentSequenceNumber io.now).1
        disk := (w.store.getLogFile w.disk w.store.currentSequenceNumber io.now).2
        writer := some { wr with pc := .tryOpen w.store.currentSequenceNumber } }
  | opens (seq : ℕ) (f : TransactionLogFile) (hpc : wr.pc = .tryOpen seq) (hf : w.store.sequenceFiles.get? seq = some f)
      (hroom : cfg.maxFileSize = 0 ∨ f.size < cfg.maxFileSize) :
      WriterMove cfg w wr io { w with
        store := (w.store.ensureOpen w.disk seq f io.openCalls).2.1
        disk := (w.store.ensureOpen w.disk seq f io.openCalls).2.2
        writer := some { wr with
          pc := if (w.store.ensureOpen w.disk seq f io.openCalls).1.isSome then .rotateInner else .fixPosition seq } }
  | place (seq : ℕ) (hpc : wr.pc = .fixPosition seq) (hzero : wr.logPosition.isZero = true) :
      WriterMove cfg w wr io { w with
        store := (w.store.positionErase wr.logPosition).positionInsert w.store.nextLogPosition
        writer := some { wr with pc := .checkAge seq, logPosition := w.store.nextLogPosition } }
  | append (seq : ℕ) (f : TransactionLogFile) (hpc : wr.pc = .write seq) (hf : w.store.sequenceFiles.get? seq = some f)
      (hreturns : (f.writeEntries (w.disk.bytes seq) wr.batch cfg.maxFileSize io.results).outcome ≠ .blocked) :
      WriterMove cfg w wr io { w with
        store := w.store.setFile seq
          ((f.writeEntries (w.disk.bytes seq) wr.batch cfg.maxFileSize io.results).stamped io.now)
        disk := { w.disk with
          logs := w.disk.logs.set seq (f.writeEntries (w.disk.bytes seq) wr.batch cfg.maxFileSize io.results).bytes }
        writer := some { wr with
          batch := (f.writeEntries (w.disk.bytes seq) wr.batch cfg.maxFileSize io.results).batch
          pc := (f.writeEntries (w.disk.bytes seq) wr.batch cfg.maxFileSize io.results).pc seq f.size } }
  | setNext (seq : ℕ) (f : TransactionLogFile) (hpc : wr.pc = .setNext seq)
      (hf : w.store.sequenceFiles.get? seq = some f) :
      WriterMove cfg w wr io { w with
        store := { w.store with nextLogPosition := ⟨f.size, w.store.currentSequenceNumber⟩ }
        writer := some { wr with pc := outerLoop wr.batch } }
  | finish (hpc : wr.pc = .finish) :
      WriterMove cfg w wr io { w with
        store := { w.store.positionInsert w.store.nextLogPosition with
          pendingTransactionCount := w.store.pendingTransactionCount - 1 }
        writer := some { wr with pc := .returned } }

theorem getLogFile_store (s : TransactionLogStore) (d : Disk) (seq : ℕ) (now : ℤ) :
    ∃ files next, (s.getLogFile d seq now).1 = { s with sequenceFiles := files, nextLogPosition := next } := by
  unfold getLogFile
  split
  · exact ⟨_, _, rfl⟩
  · exact ⟨_, _, rfl⟩

theorem ensureOpen_withFiles (s : TransactionLogStore) (d : Disk) (seq : ℕ) (f : TransactionLogFile) (o : OpenCalls) :
    ∃ files, (s.ensureOpen d seq f o).2.1 = { s with sequenceFiles := files } := by
  unfold ensureOpen
  split_ifs
  · exact ⟨_, rfl⟩
  · exact ⟨_, rfl⟩

theorem forall_mem_some {α : Type} {P : α → Prop} {a : α} (h : P a) : ∀ b ∈ some a, P b :=
  fun _ hb => Option.some.inj hb ▸ h

variable {cfg : StoreConfig} {w w' : World} {wr : Writer} {io : WriterCalls}

theorem writerStep_move (h : writerStep cfg w wr io = some w') : WriterMove cfg w wr io w' := by
  rw [writerStep] at h
  cases hpc : wr.pc with
  | getFile =>
    simp only [hpc, Option.some.injEq] at h
    exact h ▸ .get hpc
  | tryOpen seq =>
    simp only [hpc, Option.bind_eq_some_iff] at h
    obtain ⟨f, hf, h⟩ := h
    by_cases hroom : cfg.maxFileSize = 0 ∨ f.size < cfg.maxFileSize
    · rw [if_pos hroom, Option.some.injEq] at h
      exact h ▸ .opens seq f hpc hf hroom
    · rw [if_neg hroom, Option.some.injEq] at h
      exact h ▸ .turn _ (.full seq f hpc hf hroom)
  | rotateInner =>
    simp only [hpc, Option.some.injEq] at h
    exact h ▸ .rotate _ (.inner hpc)
  | fixPosition seq =>
    simp only [hpc] at h
    split_ifs at h with hzero
    all_goals obtain rfl := Option.some.inj h
    · exact .place seq hpc hzero
    · exact .turn _ (.placed seq hpc (Bool.eq_false_of_not_eq_true hzero))
  | checkAge seq =>
    simp only [hpc, Option.bind_eq_some_iff] at h
    obtain ⟨f, hf, h⟩ := h
    split_ifs at h with hold
    all_goals obtain rfl := Option.some.inj h
    · exact .rotate _ (.old seq f hpc hf hold)
    · exact .turn _ (.young seq f hpc hf (Bool.eq_false_of_not_eq_true hold))
  | write seq =>
    simp only [hpc, Option.bind_eq_some_iff] at h
    obtain ⟨f, hf, h⟩ := h
    by_cases hblocked : (f.writeEntries (w.disk.bytes seq) wr.batch cfg.maxFileSize io.results).outcome = .blocked
    · rw [if_pos hblocked] at h
      cases h
    · rw [if_neg hblocked, Option.some.injEq] at h
      exact h ▸ .append seq f hpc hf hblocked
  | advance seq sizeBefore =>
    simp only [hpc, Option.bind_eq_some_iff] at h
    obtain ⟨f, hf, h⟩ := h
    split_ifs at h with hfull
    all_goals obtain rfl := Option.some.inj h
    · exact .rotate _ (.outer seq sizeBefore f hpc hf hfull)
    · exact .turn _ (.stays seq sizeBefore f hpc hf hfull)
  | setNext seq =>
    simp only [hpc, Option.bind_eq_some_iff, Option.some.injEq] at h
    obtain ⟨f, hf, rfl⟩ := h
    exact .setNext seq f hpc hf
  | finish =>
    simp only [hpc, Option.some.injEq] at h
    exact h ▸ .finish hpc
  | returned =>
    simp only [hpc] at h
    cases h
  | threw e =>
    simp only [hpc] at h
    cases h

end RocksdbJs
