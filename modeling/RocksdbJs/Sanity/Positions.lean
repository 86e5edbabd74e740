import RocksdbJs.Sanity.Load
import RocksdbJs.Sanity.WriterMoves
import RocksdbJs.Spec.Transactions

/-! The positions that `writeBatch` hands out. Nothing is asked of the system calls here: whatever
fails, a call that reaches its first append holds a position with a sequence number, which is
what `TransactionHandle` tells a transaction with a written batch by. -/

namespace RocksdbJs

open TransactionLogStore

/-- The place of the next entry is in a file, unless there has been no current file yet. -/
structure NextOk (s : TransactionLogStore) : Prop where
  current : s.currentSequenceNumber ≠ 0
  next : s.nextSequenceNumber ≠ 0
  zero : s.nextLogPosition.logSequenceNumber = 0 → s.nextLogPosition = ⟨0, 0⟩
  file : (s.sequenceFiles.get? s.currentSequenceNumber).isSome → s.nextLogPosition.logSequenceNumber ≠ 0

theorem NextOk.congr {s s' : TransactionLogStore} (h : NextOk s) (hf : s'.sequenceFiles = s.sequenceFiles)
    (hc : s'.currentSequenceNumber = s.currentSequenceNumber) (hn : s'.nextSequenceNumber = s.nextSequenceNumber)
    (hp : s'.nextLogPosition = s.nextLogPosition) : NextOk s' := by
  refine ⟨?_, ?_, ?_, ?_⟩
  all_goals simp only [hf, hc, hn, hp]
  · exact h.current
  · exact h.next
  · exact h.zero
  · exact h.file

/-- Once the next entry has a place, the files do not matter. -/
theorem NextOk.of_next {s s' : TransactionLogStore} (h : NextOk s) (hne : s.nextLogPosition.logSequenceNumber ≠ 0)
    (hc : s'.currentSequenceNumber = s.currentSequenceNumber) (hn : s'.nextSequenceNumber = s.nextSequenceNumber)
    (hp : s'.nextLogPosition = s.nextLogPosition) : NextOk s' :=
  ⟨hc ▸ h.current, hn ▸ h.next, fun hz => absurd (hp ▸ hz) hne, fun _ => hp ▸ hne⟩

theorem NextOk.advance {s : TransactionLogStore} (h : NextOk s) (hne : s.nextLogPosition.logSequenceNumber ≠ 0) :
    NextOk s.advanceSequence :=
  ⟨h.next, Nat.succ_ne_zero _, fun hz => absurd hz hne, fun _ => hne⟩

theorem getLogFile_nextOk {s : TransactionLogStore} (d : Disk) (h : NextOk s) (now : ℤ) :
    NextOk (s.getLogFile d s.currentSequenceNumber now).1 ∧
      (s.getLogFile d s.currentSequenceNumber now).1.nextLogPosition.logSequenceNumber ≠ 0 := by
  unfold getLogFile
  cases hg : s.sequenceFiles.get? s.currentSequenceNumber with
  | some f =>
    have hne := h.file (by rw [hg]; rfl)
    exact ⟨h, hne⟩
  | none => exact ⟨⟨h.current, h.next, fun hz => absurd hz h.current, fun _ => h.current⟩, h.current⟩

/-- What is known of the position the writer holds, at each place. -/
def Writer.Taken (s : TransactionLogStore) (wr : Writer) : Prop :=
  match wr.pc with
  | .getFile => wr.logPosition.logSequenceNumber = 0 → wr.logPosition = ⟨0, 0⟩
  | .tryOpen _ =>
    (wr.logPosition.logSequenceNumber = 0 → wr.logPosition = ⟨0, 0⟩) ∧ s.nextLogPosition.logSequenceNumber ≠ 0
  | .rotateInner =>
    (wr.logPosition.logSequenceNumber = 0 → wr.logPosition = ⟨0, 0⟩) ∧ s.nextLogPosition.logSequenceNumber ≠ 0
  | .fixPosition _ =>
    (wr.logPosition.logSequenceNumber = 0 → wr.logPosition = ⟨0, 0⟩) ∧ s.nextLogPosition.logSequenceNumber ≠ 0
  | _ => wr.logPosition.logSequenceNumber ≠ 0 ∧ s.nextLogPosition.logSequenceNumber ≠ 0

/-- The loop goes on with a position that is in a file. -/
theorem taken_outerLoop {s : TransactionLogStore} {b : TransactionLogEntryBatch} {p : LogPosition}
    (hp : p.logSequenceNumber ≠ 0) (hne : s.nextLogPosition.logSequenceNumber ≠ 0) :
    (⟨outerLoop b, b, p⟩ : Writer).Taken s := by
  unfold outerLoop
  split_ifs
  · exact ⟨hp, hne⟩
  · exact fun hz => absurd hz hp

/-- The position a call starts with. -/
theorem NextOk.taken {s : TransactionLogStore} (h : NextOk s) {b : TransactionLogEntryBatch}
    (hb : b.isComplete = true → s.nextLogPosition.logSequenceNumber ≠ 0) :
    (⟨outerLoop b, b, s.nextLogPosition⟩ : Writer).Taken s := by
  unfold outerLoop
  split_ifs with hc
  · exact ⟨hb hc, hb hc⟩
  · exact h.zero

/-- What a step of the writer does to the positions and the count of the store. -/
structure WriterMoves (w w' : World) (wr wr' : Writer) : Prop where
  writer : w'.writer = some wr'
  next : NextOk w'.store
  taken : wr'.Taken w'.store
  isClosing : w'.store.isClosing = w.store.isClosing
  count : w'.store.pendingTransactionCount = w.store.pendingTransactionCount - if wr'.pc = .returned then 1 else 0
  next_ne : w.store.nextLogPosition.logSequenceNumber ≠ 0 → w'.store.nextLogPosition.logSequenceNumber ≠ 0
  kept : ∀ p ∈ w.store.uncommittedTransactionPositions, p.logSequenceNumber ≠ 0 →
    p ∈ w'.store.uncommittedTransactionPositions
  mem : wr.logPosition ∈ w.store.uncommittedTransactionPositions →
    wr'.logPosition ∈ w'.store.uncommittedTransactionPositions
  added : ∀ p ∈ w'.store.uncommittedTransactionPositions, p = wr'.logPosition ∨
    (p ∈ w.store.uncommittedTransactionPositions ∧ (p = wr.logPosition → wr'.logPosition = wr.logPosition)) ∨
    (wr'.pc = .returned ∧ p = w'.store.nextLogPosition)

/-- A step that leaves the positions and the count alone. -/
theorem WriterMoves.quiet {w w' : World} {wr wr' : Writer} (hwr : w'.writer = some wr') (hnext : NextOk w'.store)
    (htaken : wr'.Taken w'.store) (hc : w'.store.isClosing = w.store.isClosing)
    (hcount : w'.store.pendingTransactionCount = w.store.pendingTransactionCount) (hpc : wr'.pc ≠ .returned)
    (hne : w.store.nextLogPosition.logSequenceNumber ≠ 0 → w'.store.nextLogPosition.logSequenceNumber ≠ 0)
    (hu : w'.store.uncommittedTransactionPositions = w.store.uncommittedTransactionPositions)
    (hp : wr'.logPosition = wr.logPosition) : WriterMoves w w' wr wr' :=
  ⟨hwr, hnext, htaken, hc, by rw [hcount, if_neg hpc, sub_zero], hne, fun p h _ => by rw [hu]; exact h,
    fun h => by rw [hp, hu]; exact h, fun p h => Or.inr (Or.inl ⟨hu ▸ h, fun _ => hp⟩)⟩

theorem outerLoop_ne_returned (b : TransactionLogEntryBatch) : outerLoop b ≠ .returned := by
  unfold outerLoop
  split_ifs <;> simp

section Step
variable {cfg : StoreConfig} {w w' : World} {wr : Writer} {io : WriterCalls} {pc : WriterPc}

/-- The next position is known when the writer goes on to the next number. -/
theorem WriterRotates.taken (h : WriterRotates cfg w wr io pc) (ht : wr.Taken w.store) :
    w.store.nextLogPosition.logSequenceNumber ≠ 0 ∧ pc ≠ .returned ∧
      ({ wr with pc } : Writer).Taken w.store.advanceSequence := by
  cases h with
  | inner hpc =>
    rw [Writer.Taken, hpc] at ht
    exact ⟨ht.2, by simp, ht.1⟩
  | old seq f hpc hf hold =>
    rw [Writer.Taken, hpc] at ht
    exact ⟨ht.2, outerLoop_ne_returned _, taken_outerLoop ht.1 ht.2⟩
  | outer seq sizeBefore f hpc hf hfull =>
    rw [Writer.Taken, hpc] at ht
    exact ⟨ht.2, by simp, ht⟩

theorem WriterTurns.taken (h : WriterTurns cfg w wr io pc) (ht : wr.Taken w.store) :
    pc ≠ .returned ∧ ({ wr with pc } : Writer).Taken w.store := by
  cases h with
  | full seq f hpc =>
    rw [Writer.Taken, hpc] at ht
    exact ⟨by simp, ht⟩
  | placed seq hpc hzero =>
    rw [Writer.Taken, hpc] at ht
    refine ⟨by simp, fun hz => ?_, ht.2⟩
    rw [LogPosition.isZero_iff.mpr (ht.1 hz)] at hzero
    cases hzero
  | young seq f hpc =>
    rw [Writer.Taken, hpc] at ht
    exact ⟨by simp, ht⟩
  | stays seq sizeBefore f hpc =>
    rw [Writer.Taken, hpc] at ht
    exact ⟨by simp, ht⟩

theorem writerStep_moves (hn : NextOk w.store) (ht : wr.Taken w.store) (hstep : writerStep cfg w wr io = some w') :
    ∃ wr', WriterMoves w w' wr wr' := by
  cases writerStep_move hstep with
  | turn pc hturns =>
    obtain ⟨hpc, htaken⟩ := hturns.taken ht
    exact ⟨_, .quiet rfl hn htaken rfl rfl hpc id rfl rfl⟩
  | rotate pc hrotates =>
    obtain ⟨hne, hpc, htaken⟩ := hrotates.taken ht
    exact ⟨_, .quiet rfl (hn.advance hne) htaken rfl rfl hpc id rfl rfl⟩
  | get hpc =>
    rw [Writer.Taken, hpc] at ht
    obtain ⟨hnext, hne⟩ := getLogFile_nextOk w.disk hn io.now
    obtain ⟨files, next, hs⟩ := getLogFile_store w.store w.disk w.store.currentSequenceNumber io.now
    exact ⟨_, .quiet rfl hnext ⟨ht, hne⟩ (by rw [hs]) (by rw [hs]) (by simp) (fun _ => hne) (by rw [hs]) rfl⟩
  | opens seq f hpc hf hroom =>
    rw [Writer.Taken, hpc] at ht
    obtain ⟨hpos, hne⟩ := ht
    obtain ⟨files, hs⟩ := ensureOpen_withFiles w.store w.disk seq f io.openCalls
    have hne' : (w.store.ensureOpen w.disk seq f io.openCalls).2.1.nextLogPosition.logSequenceNumber ≠ 0 := by
      rw [hs]
      exact hne
    refine ⟨_, .quiet rfl ?_ ?_ (by rw [hs]) (by rw [hs]) ?_ (fun _ => hne') (by rw [hs]) rfl⟩
    · rw [hs]
      exact hn.of_next hne rfl rfl rfl
    · cases (w.store.ensureOpen w.disk seq f io.openCalls).1 with
      | none => exact ⟨hpos, hne'⟩
      | some e => exact ⟨hpos, hne'⟩
    · dsimp only
      split_ifs <;> simp
  | place seq hpc hzero =>
    rw [Writer.Taken, hpc] at ht
    obtain ⟨hpos, hne⟩ := ht
    refine ⟨_, rfl, hn.congr rfl rfl rfl rfl, ⟨hne, hne⟩, rfl, by simp [positionErase, positionInsert], id, ?_, ?_, ?_⟩
    · intro p hp hseq
      have hp0 : p ≠ wr.logPosition := by
        rintro rfl
        rw [LogPosition.isZero_iff.mp hzero] at hseq
        exact hseq rfl
      simp only [positionInsert, positionErase, SortedVec.mem_insert, SortedVec.mem_erase]
      exact Or.inr ⟨hp0, hp⟩
    · intro _
      exact SortedVec.mem_insert.mpr (Or.inl rfl)
    · intro p hp
      rcases SortedVec.mem_insert.mp hp with rfl | hp
      · exact Or.inl rfl
      · obtain ⟨hne', hmem⟩ := SortedVec.mem_erase.mp hp
        exact Or.inr (Or.inl ⟨hmem, fun heq => absurd heq hne'⟩)
  | append seq f hpc hf hreturns =>
    rw [Writer.Taken, hpc] at ht
    obtain ⟨hpos, hne⟩ := ht
    refine ⟨_, .quiet rfl (hn.of_next hne rfl rfl rfl) ?_ rfl rfl ?_ id rfl rfl⟩
    all_goals
      unfold TransactionLogFile.WriteEntriesResult.pc
      cases (f.writeEntries (w.disk.bytes seq) wr.batch cfg.maxFileSize io.results).error
    all_goals first | exact ⟨hpos, hne⟩ | simp
  | setNext seq f hpc hf =>
    rw [Writer.Taken, hpc] at ht
    obtain ⟨hpos, hne⟩ := ht
    have hcur := hn.current
    refine ⟨_, .quiet rfl ⟨hcur, hn.next, fun hz => absurd hz hcur, fun _ => hcur⟩ (taken_outerLoop hpos hcur) rfl rfl
      (outerLoop_ne_returned _) (fun _ => hcur) rfl rfl⟩
  | finish hpc =>
    rw [Writer.Taken, hpc] at ht
    refine ⟨_, rfl, hn.congr rfl rfl rfl rfl, ht, rfl, ?_, id, ?_, ?_, ?_⟩
    · simp
    · intro p hp _
      simp only [positionInsert, SortedVec.mem_insert]
      exact Or.inr hp
    · intro hp
      simp only [positionInsert, SortedVec.mem_insert]
      exact Or.inr hp
    · intro p hp
      rcases SortedVec.mem_insert.mp hp with rfl | hp
      · exact Or.inr (Or.inr ⟨rfl, rfl⟩)
      · exact Or.inr (Or.inl ⟨hp, fun _ => rfl⟩)

end Step

section Load

/-- What the scan of a directory has done to the positions and the count so far. -/
structure Untouched (s : TransactionLogStore) : Prop where
  current : s.currentSequenceNumber ≠ 0
  next : s.nextSequenceNumber ≠ 0
  zero : s.nextLogPosition.logSequenceNumber = 0 → s.nextLogPosition = ⟨0, 0⟩
  count : s.pendingTransactionCount = 0
  isClosing : s.isClosing = false

theorem Untouched.withFiles {s : TransactionLogStore} (h : Untouched s) (files : SeqMap TransactionLogFile) :
    Untouched { s with sequenceFiles := files } :=
  ⟨h.current, h.next, h.zero, h.count, h.isClosing⟩

theorem ensureOpen_untouched {s : TransactionLogStore} (h : Untouched s) (d : Disk) (seq : ℕ) (f : TransactionLogFile)
    (io : OpenCalls) : Untouched (s.ensureOpen d seq f io).2.1 := by
  unfold ensureOpen
  split_ifs
  · exact h
  · exact h.withFiles _

theorem loadFile_untouched {cfg : StoreConfig} {io : FilesCalls} {sd : TransactionLogStore × Disk} (h : Untouched sd.1)
    (seq : ℕ) : Untouched (loadFile cfg io sd seq).1 := by
  unfold loadFile
  split_ifs
  · exact h
  · exact h
  · exact h
  · set f : TransactionLogFile := { sequenceNumber := seq, fileLastWriteTime := (io.mtime seq).getD io.now }
    have h1 : Untouched (sd.1.setFile seq f) := h.withFiles _
    have h2 := ensureOpen_untouched h1 sd.2 seq f (io.openCalls seq)
    simp only [registerLogFile]
    split_ifs with hcur
    · have hseq : seq ≠ 0 := fun h0 => h.current (Nat.le_zero.mp (h0 ▸ hcur))
      split
      · exact h2
      · exact ⟨hseq, (Nat.lt_of_lt_of_le (Nat.succ_pos seq) (le_max_right _ _)).ne', fun hz => absurd hz hseq, h2.count,
          h2.isClosing⟩
    · exact ⟨h.current, (Nat.lt_of_lt_of_le (Nat.succ_pos seq) (le_max_right _ _)).ne', h.zero, h.count, h.isClosing⟩

theorem scan_untouched (cfg : StoreConfig) (io : FilesCalls) (order : List ℕ) {sd : TransactionLogStore × Disk}
    (h : Untouched sd.1) : Untouched (order.foldl (loadFile cfg io) sd).1 := by
  induction order generalizing sd with
  | nil => exact h
  | cons seq order ih => exact ih (loadFile_untouched h seq)

theorem untouched_new : Untouched {} := ⟨by decide, by decide, fun _ => rfl, rfl, rfl⟩

/-- A store that `load` returns has no transactions, and its positions are in files. -/
theorem load_nextOk {cfg : StoreConfig} {d d' : Disk} {order : List ℕ} {io : FilesCalls} {s : TransactionLogStore}
    (h : load cfg d order io = (some s, d')) : NextOk s ∧ s.pendingTransactionCount = 0 ∧ s.isClosing = false := by
  have hscan : Untouched (order.foldl (loadFile cfg io) ({}, d)).1 := scan_untouched cfg io order untouched_new
  unfold load at h
  generalize order.foldl (loadFile cfg io) ({}, d) = sd at hscan h
  simp only at h
  cases hg : sd.1.sequenceFiles.get? sd.1.currentSequenceNumber with
  | none =>
    simp only [hg, Prod.mk.injEq, Option.some.injEq] at h
    obtain ⟨rfl, -⟩ := h
    refine ⟨⟨hscan.current, hscan.next, hscan.zero, fun hsome => ?_⟩, hscan.count, hscan.isClosing⟩
    rw [show (sd.1.positionInsert sd.1.nextLogPosition).sequenceFiles = sd.1.sequenceFiles from rfl,
      show (sd.1.positionInsert sd.1.nextLogPosition).currentSequenceNumber = sd.1.currentSequenceNumber from rfl,
      hg] at hsome
    cases hsome
  | some f =>
    simp only [hg] at h
    have hopen := ensureOpen_untouched hscan sd.2 sd.1.currentSequenceNumber f (io.openCalls sd.1.currentSequenceNumber)
    split at h
    · cases h
    · simp only [Prod.mk.injEq, Option.some.injEq] at h
      obtain ⟨rfl, -⟩ := h
      have hcur := hscan.current
      exact ⟨⟨hopen.current, hopen.next, fun hz => absurd hz hcur, fun _ => hcur⟩, hopen.count, hopen.isClosing⟩

end Load

end RocksdbJs
