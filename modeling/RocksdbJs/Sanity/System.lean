import RocksdbJs.Lib.ListUpdates
import RocksdbJs.Sanity.Writer
import RocksdbJs.Sanity.Load

/-! The invariant of a store under any interleaving of transactions. One position bounds
the registered positions and the watermark from above: the one the running writer
holds, or the place of the next entry when none runs. Entries are only ever appended
at or after it. -/

namespace RocksdbJs

open TransactionLogStore

namespace Sys

/-- What bounds every position the store has given out. -/
def ceiling (y : Sys) : LogPosition :=
  match y.world.writer with
  | some wr => if wr.busy then wr.logPosition else y.world.store.nextLogPosition
  | none => y.world.store.nextLogPosition

theorem ceiling_busy {y : Sys} {wr : Writer} (h : y.world.writer = some wr) (hb : wr.busy = true) :
    y.ceiling = wr.logPosition := by
  rw [ceiling, h]
  exact if_pos hb

theorem ceiling_idle {y : Sys} (h : y.world.busy = false) : y.ceiling = y.world.store.nextLogPosition := by
  unfold ceiling
  cases hw : y.world.writer with
  | none => rfl
  | some wr =>
    rw [World.busy, hw] at h
    exact if_neg (by rw [show wr.busy = false from h]; exact Bool.false_ne_true)

structure Inv (y : Sys) : Prop where
  files : FilesOk y.world.store y.world.disk
  writer : ∀ wr, y.world.writer = some wr → wr.busy = true → WriterOk y.world.store wr ∧
    ∃ x rest, y.txns = x :: rest ∧ x.committedPosition = wr.logPosition ∧ x.decided = false
  registered : ∀ p ∈ y.world.store.uncommittedTransactionPositions, p ≤ y.ceiling
  committed : y.world.store.lastCommittedPosition ≤ y.ceiling
  pending : ∀ x ∈ y.txns, x.decided = false → ∀ l ∈ x.locations,
    x.committedPosition ∈ y.world.store.uncommittedTransactionPositions ∧ x.committedPosition ≠ ⟨0, 0⟩ ∧
      x.committedPosition ≤ l
  watermark : ∀ x ∈ y.txns, x.decided = false → ∀ l ∈ x.locations, y.world.store.lastCommittedPosition ≤ l

/-- No other undecided transaction holds the position that transaction `i` holds. -/
def SoleHolder (y : Sys) (i : ℕ) : Prop :=
  ∀ x ∈ y.txns[i]?, ∀ x' ∈ y.txns.eraseIdx i, x'.decided = false → x'.committedPosition ≠ x.committedPosition

instance (y : Sys) (i : ℕ) : Decidable (y.SoleHolder i) := inferInstanceAs (Decidable (∀ x ∈ y.txns[i]?, _))

/-- What a step has to meet: a `writeBatch` call is not given a position past the end of
the current log file, its files get whole headers and stay below 4 GiB, and a position
is given back only by the one transaction that holds it. -/
def StepOk (cfg : StoreConfig) (y : Sys) : Action → Prop
  | .beginWrite _ => y.world.store.nextLogPosition ≤ y.world.store.appendPoint
  | .writer io => ∀ wr ∈ y.world.writer, io.Ok cfg y.world.store wr
  | .commitFinished i => y.SoleHolder i
  | .commitAborted i => y.SoleHolder i
  | _ => True

instance (cfg : StoreConfig) (y : Sys) : ∀ a : Action, Decidable (StepOk cfg y a)
  | .beginWrite _ => inferInstanceAs (Decidable (y.world.store.nextLogPosition ≤ y.world.store.appendPoint))
  | .writer io => inferInstanceAs (Decidable (∀ wr ∈ y.world.writer, io.Ok cfg y.world.store wr))
  | .commitFinished i => inferInstanceAs (Decidable (y.SoleHolder i))
  | .commitAborted i => inferInstanceAs (Decidable (y.SoleHolder i))
  | .rocksCommit _ _ => isTrue trivial
  | .rocksOther _ => isTrue trivial
  | .getLatestSequenceNumber _ => isTrue trivial
  | .flushScan _ => isTrue trivial
  | .flushWrite _ => isTrue trivial

section
variable {cfg : StoreConfig} {y y' : Sys}

theorem inv_beginWrite {batch : TransactionLogEntryBatch} (hi : Inv y)
    (hok : y.world.store.nextLogPosition ≤ y.world.store.appendPoint)
    (h : step cfg y (.beginWrite batch) = some y') : Inv y' ∧ y.ceiling ≤ y'.ceiling := by
  simp only [step] at h
  split_ifs at h with hbusy
  rw [Option.some.injEq] at h
  obtain ⟨hidle, hclosing⟩ := not_or.mp hbusy
  rw [Bool.not_eq_true] at hidle hclosing
  have hceil := ceiling_idle hidle
  unfold RocksdbJs.beginWrite at h
  rw [hclosing] at h
  simp only [Bool.false_eq_true, if_false] at h
  have hmem : ∀ p, p ∈ (y.world.store.positionInsert y.world.store.nextLogPosition).uncommittedTransactionPositions ↔
      p = y.world.store.nextLogPosition ∨ p ∈ y.world.store.uncommittedTransactionPositions := by
    simp [positionInsert]
  have hceil' : y'.ceiling = y.world.store.nextLogPosition := by
    subst h
    exact ceiling_busy rfl (outerLoop_busy _ _)
  refine ⟨⟨?_, ?_, ?_, ?_, ?_, ?_⟩, (hceil.trans hceil'.symm).le⟩
  · subst h
    exact ⟨⟨hi.files.size_le, hi.files.closed, hi.files.current_pos, hi.files.current_lt⟩, hi.files.next_zero⟩
  · intro wr hwr _
    subst h
    obtain rfl := Option.some.inj hwr
    refine ⟨?_, _, _, rfl, rfl, rfl⟩
    exact outerLoop_writerOk ((hmem _).mpr (Or.inl rfl)) le_rfl hok fun _ => hok
  · intro p hp
    rw [hceil']
    subst h
    rcases (hmem p).mp hp with rfl | hp
    · exact le_rfl
    · exact hceil ▸ hi.registered p hp
  · rw [hceil']
    subst h
    exact hceil ▸ hi.committed
  · intro x hx hd l hl
    subst h
    rcases List.mem_cons.mp hx with rfl | hx
    · simp at hl
    · have hp := hi.pending x hx hd l hl
      exact ⟨(hmem _).mpr (Or.inr hp.1), hp.2⟩
  · intro x hx hd l hl
    subst h
    rcases List.mem_cons.mp hx with rfl | hx
    · simp at hl
    · exact hi.watermark x hx hd l hl

/-- A step of the writer, taken apart. -/
theorem step_writer {io : WriterCalls} (hi : Inv y) (hok : StepOk cfg y (.writer io))
    (h : step cfg y (.writer io) = some y') : ∃ wr wr' x rest,
      y.world.writer = some wr ∧ wr.busy = true ∧ y.txns = x :: rest ∧ x.decided = false ∧
      x.committedPosition = wr.logPosition ∧ WriterOk y.world.store wr ∧ WriterStep y.world y'.world wr wr' ∧
      y' = { y with
        world := y'.world
        txns := { x with
          committedPosition := wr'.logPosition
          locations := x.locations ++ wr.appends wr' y.world.disk } :: rest } := by
  simp only [step] at h
  split at h
  · rename_i wr x rest hwr htxns
    simp only [Option.bind_eq_some_iff, Option.map_eq_some_iff] at h
    obtain ⟨w', hw', wr', hwr', hy'⟩ := h
    have hbusy := writerStep_busy hw'
    obtain ⟨hwok, x', rest', htxns', hpos, hdec⟩ := hi.writer wr hwr hbusy
    rw [htxns, List.cons.injEq] at htxns'
    obtain ⟨rfl, rfl⟩ := htxns'
    obtain ⟨wr'', hstep⟩ := writerStep_spec hi.files hwok (hok wr hwr) hw'
    obtain rfl : wr'' = wr' := Option.some.inj (hstep.writer.symm.trans hwr')
    subst hy'
    exact ⟨wr, wr'', x, rest, hwr, hbusy, htxns, hdec, hpos, hwok, hstep, rfl⟩
  · cases h

theorem inv_writer {io : WriterCalls} (hi : Inv y) (hok : StepOk cfg y (.writer io))
    (h : step cfg y (.writer io) = some y') : Inv y' ∧ y.ceiling ≤ y'.ceiling := by
  obtain ⟨wr, wr', x, rest, hwr, hbusy, htxns, hdec, hpos, hwok, hstep, hy'⟩ := step_writer hi hok h
  have hceil := ceiling_busy hwr hbusy
  have hle : wr.logPosition ≤ wr'.logPosition := by
    rcases hstep.position with he | he
    · rw [he]
    · rw [he]
      exact LogPosition.zero_le _
  have hup : wr'.logPosition ≤ y'.ceiling := by
    unfold ceiling
    rw [hstep.writer]
    simp only
    split_ifs with hb
    · exact le_rfl
    · exact hstep.next_le
  have hmono : y.ceiling ≤ y'.ceiling := hceil.trans_le (hle.trans hup)
  -- a transaction with an entry in the log keeps its position through the fix-up
  have hkeep : ∀ p ∈ y.world.store.uncommittedTransactionPositions, p ≠ ⟨0, 0⟩ →
      p ∈ y'.world.store.uncommittedTransactionPositions := hstep.kept
  have hnew : ∀ l ∈ wr.appends wr' y.world.disk, wr'.logPosition ∈ y'.world.store.uncommittedTransactionPositions ∧
      wr'.logPosition ≠ ⟨0, 0⟩ ∧ wr'.logPosition ≤ l ∧ y.world.store.lastCommittedPosition ≤ l := by
    intro l hl
    obtain ⟨hl, hne⟩ := hstep.locations l hl
    obtain he : wr'.logPosition = wr.logPosition := hstep.position.resolve_right hne
    rw [he]
    exact ⟨hkeep _ hwok.mem hne, hne, hl, (hceil ▸ hi.committed).trans hl⟩
  have hhead : ∀ l ∈ x.locations ++ wr.appends wr' y.world.disk,
      wr'.logPosition ∈ y'.world.store.uncommittedTransactionPositions ∧ wr'.logPosition ≠ ⟨0, 0⟩ ∧
        wr'.logPosition ≤ l ∧ y.world.store.lastCommittedPosition ≤ l := by
    intro l hl
    rcases List.mem_append.mp hl with hl | hl
    · have hx : x ∈ y.txns := by rw [htxns]; exact List.mem_cons_self
      obtain ⟨hm, hne, hpl⟩ := hi.pending x hx hdec l hl
      rw [hpos] at hm hne hpl
      rw [hstep.position.resolve_right hne]
      exact ⟨hkeep _ hm hne, hne, hpl, hi.watermark x hx hdec l hl⟩
    · exact hnew l hl
  have htail : ∀ x' ∈ rest, x' ∈ y.txns := by
    intro x' hx'
    rw [htxns]
    exact List.mem_cons_of_mem _ hx'
  refine ⟨⟨hstep.files, ?_, ?_, ?_, ?_, ?_⟩, hmono⟩
  · intro wr1 hwr1 hb
    obtain rfl : wr' = wr1 := Option.some.inj (hstep.writer.symm.trans hwr1)
    rw [hy']
    exact ⟨hstep.ok hb, _, _, rfl, rfl, hdec⟩
  · intro p hp
    rcases hstep.added p hp with hp | rfl | ⟨hidle, rfl⟩
    · exact (hi.registered p hp).trans hmono
    · exact hup
    · have hi' : y'.world.busy = false := by
        rw [World.busy, hstep.writer]
        exact hidle
      rw [ceiling_idle hi']
  · rw [hstep.committed]
    exact hi.committed.trans hmono
  · intro x' hx' hd l hl
    rw [hy'] at hx'
    rcases List.mem_cons.mp hx' with rfl | hx'
    · obtain ⟨h1, h2, h3, -⟩ := hhead l hl
      exact ⟨h1, h2, h3⟩
    · obtain ⟨h1, h2, h3⟩ := hi.pending x' (htail x' hx') hd l hl
      exact ⟨hkeep _ h1 h2, h2, h3⟩
  · intro x' hx' hd l hl
    rw [hy'] at hx'
    rw [hstep.committed]
    rcases List.mem_cons.mp hx' with rfl | hx'
    · exact (hhead l hl).2.2.2
    · exact hi.watermark x' (htail x' hx') hd l hl

/-- Two stores with the same files and counters. -/
structure SameFiles (s s' : TransactionLogStore) : Prop where
  files : s'.sequenceFiles = s.sequenceFiles
  current : s'.currentSequenceNumber = s.currentSequenceNumber
  nextSeq : s'.nextSequenceNumber = s.nextSequenceNumber
  nextPos : s'.nextLogPosition = s.nextLogPosition

theorem SameFiles.filesOk {s s' : TransactionLogStore} {d d' : Disk} (hs : SameFiles s s') (hd : d'.logs = d.logs)
    (h : FilesOk s d) : FilesOk s' d' := by
  have hbytes : ∀ q, d'.bytes q = d.bytes q := fun q => by rw [Disk.bytes, Disk.bytes, hd]
  refine ⟨⟨?_, ?_, ?_, ?_⟩, ?_⟩
  · intro q f hf
    rw [hbytes]
    exact h.size_le (hs.files ▸ hf)
  · intro q f hf
    exact h.closed (hs.files ▸ hf)
  · rw [hs.current]
    exact h.current_pos
  · rw [hs.current, hs.nextSeq]
    exact h.current_lt
  · intro hz
    rw [hs.files, hs.current]
    exact h.next_zero (hs.nextPos ▸ hz)

theorem SameFiles.writerOk {s s' : TransactionLogStore} {wr : Writer} (hs : SameFiles s s')
    (hmem : wr.logPosition ∈ s'.uncommittedTransactionPositions) (h : WriterOk s wr) : WriterOk s' wr := by
  have hsize : ∀ q, s'.sizeOf q = s.sizeOf q := fun q => by
    simp only [TransactionLogStore.sizeOf, hs.files]
  have hpoint : s'.appendPoint = s.appendPoint := by rw [appendPoint, appendPoint, hs.current, hsize]
  refine ⟨hmem, hs.nextPos ▸ h.le_next, fun hz hf => ?_, ?_⟩
  · rw [hs.nextPos, hpoint]
    exact h.zero_next hz hf
  · have hat := h.atPc
    unfold Writer.AtPc at hat ⊢
    have hholds : ∀ q, Holds s q wr.logPosition → Holds s' q wr.logPosition := fun q hq =>
      ⟨hq.current.trans hs.current.symm, hpoint ▸ hq.le_end, hs.nextPos ▸ hq.next_ne⟩
    have hopen : ∀ q, OpenAt s q → OpenAt s' q := fun q hq f hf => hq f (hs.files ▸ hf)
    split at hat
    · exact hpoint ▸ hat
    · exact hholds _ hat
    · exact hs.current ▸ hholds _ hat
    · exact ⟨hholds _ hat.1, hopen _ hat.2⟩
    · exact ⟨hholds _ hat.1, hopen _ hat.2.1, hat.2.2⟩
    · exact ⟨hholds _ hat.1, hopen _ hat.2.1, hat.2.2⟩
    · exact ⟨hholds _ hat.1, hat.2⟩
    · rw [hsize, hs.current, hs.nextPos]
      exact hat
    · trivial

/-- The transaction `i` whose call has ended is not the one that is being written. -/
theorem ended_spec {i : ℕ} {x : Txn} (h : y.ended i = some x) :
    y.txns[i]? = some x ∧ (i ≠ 0 ∨ y.world.busy = false) := by
  unfold ended at h
  split_ifs at h with hc
  refine ⟨h, ?_⟩
  rw [not_and_or, Bool.not_eq_true] at hc
  exact hc

/-- Either way of deciding a transaction: its position is given back, and the watermark
moves to the least position left. -/
theorem inv_decide {i : ℕ} {x x' : Txn} {s' : TransactionLogStore} (hi : Inv y) (hx : y.ended i = some x)
    (hsole : y.SoleHolder i) (hx' : x'.decided = true) (hs : SameFiles y.world.store s')
    (hU : s'.uncommittedTransactionPositions = y.world.store.uncommittedTransactionPositions.erase x.committedPosition)
    (hW : s'.lastCommittedPosition = s'.fullyCommittedPosition)
    (hy' : y' = { y with world := { y.world with store := s' }, txns := y.txns.set i x' }) :
    Inv y' ∧ y.ceiling ≤ y'.ceiling := by
  obtain ⟨hxi, hend⟩ := ended_spec hx
  have hmem : ∀ p, p ∈ s'.uncommittedTransactionPositions ↔
      p ≠ x.committedPosition ∧ p ∈ y.world.store.uncommittedTransactionPositions := by
    intro p
    rw [hU, SortedVec.mem_erase]
  -- whoever is still undecided keeps its position
  have hother : ∀ x1 ∈ y.txns.set i x', x1.decided = false →
      x1 ∈ y.txns ∧ x1.committedPosition ≠ x.committedPosition := by
    intro x1 hx1 hd
    rcases List.mem_set_cases hx1 with rfl | ⟨j, hj, hget⟩
    · rw [hx'] at hd
      cases hd
    · exact ⟨List.mem_of_getElem? hget, hsole x hxi x1 (List.mem_eraseIdx_iff_getElem?.mpr ⟨j, hj, hget⟩) hd⟩
  have hceil : y'.ceiling = y.ceiling := by
    subst hy'
    unfold ceiling
    rw [hs.nextPos]
  have hwriter : ∀ wr, y.world.writer = some wr → wr.busy = true →
      wr.logPosition ∈ s'.uncommittedTransactionPositions ∧ WriterOk s' wr ∧
        ∃ x1 rest, y.txns.set i x' = x1 :: rest ∧ x1.committedPosition = wr.logPosition ∧ x1.decided = false := by
    intro wr hwr hb
    obtain ⟨hwok, x1, rest, htxns, hpos, hd⟩ := hi.writer wr hwr hb
    have hbusy : y.world.busy = true := by rw [World.busy, hwr]; exact hb
    obtain ⟨k, rfl⟩ : ∃ k, i = k + 1 := Nat.exists_eq_succ_of_ne_zero (hend.resolve_right (by simp [hbusy]))
    have hne : x1.committedPosition ≠ x.committedPosition :=
      hsole x hxi x1 (List.mem_eraseIdx_iff_getElem?.mpr ⟨0, (Nat.succ_ne_zero k).symm, by rw [htxns]; rfl⟩) hd
    have hm : wr.logPosition ∈ s'.uncommittedTransactionPositions := (hmem _).mpr ⟨hpos ▸ hne, hwok.mem⟩
    exact ⟨hm, hs.writerOk hm hwok, x1, rest.set k x', by rw [htxns]; rfl, hpos, hd⟩
  have hW' : s'.lastCommittedPosition ≤ y.ceiling := by
    rw [hW, fullyCommittedPosition]
    cases hfront : s'.uncommittedTransactionPositions.front? with
    | some m => exact hi.registered m ((hmem m).mp (SortedVec.front?_mem hfront)).2
    | none =>
      -- nothing is left, so no writer is running
      have hidle : y.world.busy = false := by
        unfold World.busy
        cases hwr : y.world.writer with
        | none => rfl
        | some wr =>
          cases hb : wr.busy with
          | false => exact hb
          | true => exact absurd (hwriter wr hwr hb).1 (SortedVec.front?_eq_none.mp hfront _)
      rw [ceiling_idle hidle, Option.getD_none, hs.nextPos]
  have hlow : ∀ p ∈ s'.uncommittedTransactionPositions, s'.lastCommittedPosition ≤ p := by
    intro p hp
    rw [hW, fullyCommittedPosition]
    cases hfront : s'.uncommittedTransactionPositions.front? with
    | some m => exact SortedVec.front?_le hfront hp
    | none => exact absurd hp (SortedVec.front?_eq_none.mp hfront p)
  have hpend : ∀ x1 ∈ y.txns.set i x', x1.decided = false → ∀ l ∈ x1.locations,
      x1.committedPosition ∈ s'.uncommittedTransactionPositions ∧ x1.committedPosition ≠ ⟨0, 0⟩ ∧
        x1.committedPosition ≤ l := by
    intro x1 hx1 hd l hl
    obtain ⟨hin, hne⟩ := hother x1 hx1 hd
    obtain ⟨h1, h2, h3⟩ := hi.pending x1 hin hd l hl
    exact ⟨(hmem _).mpr ⟨hne, h1⟩, h2, h3⟩
  refine ⟨⟨?_, ?_, ?_, ?_, ?_, ?_⟩, hceil.ge⟩
  · rw [hy']
    exact hs.filesOk rfl hi.files
  · intro wr hwr hb
    rw [hy'] at hwr ⊢
    exact (hwriter wr hwr hb).2
  · intro p hp
    rw [hceil]
    rw [hy'] at hp
    exact hi.registered p ((hmem p).mp hp).2
  · rw [hceil, hy']
    exact hW'
  · rw [hy']
    exact hpend
  · rw [hy']
    intro x1 hx1 hd l hl
    obtain ⟨h1, -, h3⟩ := hpend x1 hx1 hd l hl
    exact (hlow _ h1).trans h3

/-- A step that changes neither the store's files nor its positions, nor where the
entries of a transaction are or whether it is decided. -/
theorem inv_frame (hi : Inv y) (hs : SameFiles y.world.store y'.world.store)
    (hd : y'.world.disk.logs = y.world.disk.logs) (hwr : y'.world.writer = y.world.writer)
    (hU : y'.world.store.uncommittedTransactionPositions = y.world.store.uncommittedTransactionPositions)
    (hW : y'.world.store.lastCommittedPosition = y.world.store.lastCommittedPosition)
    (htxns : y'.txns = y.txns ∨ ∃ i x x', y.txns[i]? = some x ∧ y'.txns = y.txns.set i x' ∧
      x'.committedPosition = x.committedPosition ∧ x'.locations = x.locations ∧ x'.decided = x.decided) :
    Inv y' ∧ y.ceiling ≤ y'.ceiling := by
  have hceil : y'.ceiling = y.ceiling := by
    unfold ceiling
    rw [hwr, hs.nextPos]
  have hold : ∀ x1 ∈ y'.txns, ∃ x0 ∈ y.txns, x1.committedPosition = x0.committedPosition ∧
      x1.locations = x0.locations ∧ x1.decided = x0.decided := by
    intro x1 hx1
    rcases htxns with htxns | ⟨i, x, x', hx, htxns, h1, h2, h3⟩
    · rw [htxns] at hx1
      exact ⟨x1, hx1, rfl, rfl, rfl⟩
    · rw [htxns] at hx1
      rcases List.mem_set_cases hx1 with rfl | ⟨j, -, hget⟩
      · exact ⟨x, List.mem_of_getElem? hx, h1, h2, h3⟩
      · exact ⟨x1, List.mem_of_getElem? hget, rfl, rfl, rfl⟩
  refine ⟨⟨hs.filesOk hd hi.files, ?_, ?_, ?_, ?_, ?_⟩, hceil.ge⟩
  · intro wr hw hb
    obtain ⟨hwok, x1, rest, ht, hpos, hdec⟩ := hi.writer wr (hwr ▸ hw) hb
    refine ⟨hs.writerOk (by rw [hU]; exact hwok.mem) hwok, ?_⟩
    rcases htxns with htxns | ⟨i, x, x', hx, htxns, h1, -, h3⟩
    · exact ⟨x1, rest, htxns.trans ht, hpos, hdec⟩
    · cases i with
      | zero =>
        obtain rfl : x1 = x := by simpa [ht] using hx
        exact ⟨x', rest, by rw [htxns, ht]; rfl, h1.trans hpos, h3.trans hdec⟩
      | succ k => exact ⟨x1, rest.set k x', by rw [htxns, ht]; rfl, hpos, hdec⟩
  · intro p hp
    rw [hceil]
    exact hi.registered p (hU ▸ hp)
  · rw [hceil, hW]
    exact hi.committed
  · intro x1 hx1 hdec l hl
    obtain ⟨x0, hx0, h1, h2, h3⟩ := hold x1 hx1
    rw [h1, hU]
    exact hi.pending x0 hx0 (h3 ▸ hdec) l (h2 ▸ hl)
  · intro x1 hx1 hdec l hl
    obtain ⟨x0, hx0, -, h2, h3⟩ := hold x1 hx1
    rw [hW]
    exact hi.watermark x0 hx0 (h3 ▸ hdec) l (h2 ▸ hl)

theorem commitAborted_sameFiles (s : TransactionLogStore) (p : LogPosition) : SameFiles s (s.commitAborted p) :=
  ⟨rfl, rfl, rfl, rfl⟩

theorem commitFinished_sameFiles (s : TransactionLogStore) (p : LogPosition) (q : ℕ) :
    SameFiles s (s.commitFinished p q) := ⟨rfl, rfl, rfl, rfl⟩

/-- The flush touches only `txn.state` and what the store knows of it. -/
theorem inv_step {a : Action} (hi : Inv y) (hok : StepOk cfg y a) (h : step cfg y a = some y') :
    Inv y' ∧ y.ceiling ≤ y'.ceiling := by
  cases a with
  | beginWrite batch => exact inv_beginWrite hi hok h
  | writer io => exact inv_writer hi hok h
  | rocksCommit i n =>
    simp only [step, Option.bind_eq_some_iff] at h
    obtain ⟨x, hx, h⟩ := h
    split_ifs at h
    obtain rfl := Option.some.inj h
    exact inv_frame hi ⟨rfl, rfl, rfl, rfl⟩ rfl rfl rfl rfl
      (Or.inr ⟨i, x, _, (ended_spec hx).1, rfl, rfl, rfl, rfl⟩)
  | rocksOther n =>
    obtain rfl := Option.some.inj h
    exact inv_frame hi ⟨rfl, rfl, rfl, rfl⟩ rfl rfl rfl rfl (Or.inl rfl)
  | getLatestSequenceNumber i =>
    simp only [step, Option.bind_eq_some_iff] at h
    obtain ⟨x, hx, h⟩ := h
    split_ifs at h
    obtain rfl := Option.some.inj h
    exact inv_frame hi ⟨rfl, rfl, rfl, rfl⟩ rfl rfl rfl rfl
      (Or.inr ⟨i, x, _, (ended_spec hx).1, rfl, rfl, rfl, rfl⟩)
  | commitFinished i =>
    simp only [step, Option.bind_eq_some_iff] at h
    obtain ⟨x, hx, q, hq, h⟩ := h
    split_ifs at h
    exact inv_decide hi hx hok rfl (commitFinished_sameFiles _ _ _) rfl rfl
      (Option.some.inj h).symm
  | commitAborted i =>
    simp only [step, Option.bind_eq_some_iff] at h
    obtain ⟨x, hx, h⟩ := h
    split_ifs at h
    exact inv_decide hi hx hok rfl (commitAborted_sameFiles _ _) rfl rfl (Option.some.inj h).symm
  | flushScan n =>
    obtain rfl := Option.some.inj h
    exact inv_frame hi ⟨rfl, rfl, rfl, rfl⟩ rfl rfl rfl rfl (Or.inl rfl)
  | flushWrite k =>
    simp only [step, Option.bind_eq_some_iff] at h
    obtain ⟨fl, -, h⟩ := h
    obtain ⟨stream, written, state, hw⟩ := writeFlushedPosition_cases y.world.store y.world.disk fl.2
    rw [hw] at h
    obtain rfl := Option.some.inj h
    exact inv_frame hi ⟨rfl, rfl, rfl, rfl⟩ rfl rfl rfl rfl (Or.inl rfl)

theorem inv_initial (h : Initial cfg y) : Inv y := by
  obtain ⟨htxns, -, -, hwr, hstore⟩ := h
  have hceil : y.ceiling = y.world.store.nextLogPosition := by rw [ceiling, hwr]
  have hfacts : FilesOk y.world.store y.world.disk ∧ y.world.store.lastCommittedPosition = ⟨0, 0⟩ ∧
      ∀ p ∈ y.world.store.uncommittedTransactionPositions, p = y.world.store.nextLogPosition := by
    rcases hstore with ⟨hs, -⟩ | ⟨d, order, io, hio, hload⟩
    · rw [hs]
      refine ⟨⟨⟨fun h => (nomatch h), fun h => (nomatch h), Nat.one_pos, Nat.lt_succ_self 1⟩, fun _ => rfl⟩, rfl, ?_⟩
      exact fun p hp => absurd hp (SortedVec.not_mem_empty p)
    · have hl := load_loaded (fun seq _ => hio seq) hload
      exact ⟨hl.toFilesOk, hl.committed, fun p hp => (hl.positions p).mp hp⟩
  obtain ⟨hfiles, hW, hU⟩ := hfacts
  refine ⟨hfiles, ?_, ?_, ?_, ?_, ?_⟩
  · intro wr hw
    rw [hwr] at hw
    cases hw
  · intro p hp
    rw [hceil, hU p hp]
  · rw [hW]
    exact LogPosition.zero_le _
  all_goals
    intro x hx
    rw [htxns] at hx
    cases hx

end

end Sys

end RocksdbJs
