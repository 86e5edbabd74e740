import RocksdbJs.Sanity.Lifecycle
import RocksdbJs.Spec.LogReader

/-! What the calls of a reader leave alone, and how far an iterator can read. A reader never
moves the watermark, its buffers stand under their own numbers, and an iterator that keeps to
the committed part is in a file before the watermark's, or in that one with a limit at or
before it. -/

namespace RocksdbJs

open TransactionLogStore

namespace Reading

/-- Each buffer stands under the number of its log file. -/
def Keyed (y : Reading) : Prop := ∀ k b, y.log.logBuffers.get? k = some b → b.logId = k

/-- The watermark has not moved, and the buffers stand under their numbers as before. -/
structure Keeps (y y' : Reading) : Prop where
  committed : y'.store.lastCommittedPosition = y.store.lastCommittedPosition
  keyed : y.Keyed → y'.Keyed

theorem Keeps.refl (y : Reading) : Keeps y y := ⟨rfl, id⟩

theorem Keeps.trans {y₁ y₂ y₃ : Reading} (h : Keeps y₁ y₂) (h' : Keeps y₂ y₃) : Keeps y₁ y₃ :=
  ⟨h'.committed.trans h.committed, fun hk => h'.keyed (h.keyed hk)⟩

variable {cfg : StoreConfig} {y : Reading} {io : ReadCalls}

theorem setBuffer_keeps (y : Reading) (b : LogBuffer) : Keeps y (y.setBuffer b) := by
  refine ⟨rfl, fun hk k c hc => ?_⟩
  simp only [setBuffer, SeqMap.get?_set] at hc
  split_ifs at hc with hq
  · rw [hq, ← Option.some.inj hc]
  · exact hk k c hc

/-- A call of the store that touches its files only. -/
theorem keeps_store {s : TransactionLogStore} {d : Disk} (h : s.lastCommittedPosition = y.store.lastCommittedPosition) :
    Keeps y { y with store := s, disk := d } := ⟨h, id⟩

theorem ensureOpen_committed (s : TransactionLogStore) (d : Disk) (seq : ℕ) (f : TransactionLogFile) (o : OpenCalls) :
    (s.ensureOpen d seq f o).2.1.lastCommittedPosition = s.lastCommittedPosition := by
  obtain ⟨g, hs | hs⟩ := ensureOpen_store s d seq f o
  · rw [hs]
  · rw [hs]
    rfl

theorem getLogFileSize_keeps (y : Reading) (logId : ℕ) (io : ReadCalls) : Keeps y (y.getLogFileSize logId io).2 := by
  apply keeps_store
  rcases getLogFileSize_spec y.store y.disk logId io with h | ⟨f, -, h⟩
  · rw [h]
  · rw [h]
    exact ensureOpen_committed _ _ _ _ _

theorem getMemoryMap_committed (cfg : StoreConfig) (s : TransactionLogStore) (d : Disk) (seq : ℕ) (io : ReadCalls) :
    (s.getMemoryMap cfg d seq io).2.1.lastCommittedPosition = s.lastCommittedPosition := by
  unfold TransactionLogStore.getMemoryMap
  cases s.sequenceFiles.get? seq with
  | none => rfl
  | some f =>
    simp only
    split
    · exact ensureOpen_committed _ _ _ _ _
    · exact ensureOpen_committed _ _ _ _ _

theorem lastPositionFrom_keeps (fuel nextLogId : ℕ) (last : ℕ × ℕ) (y : Reading) :
    Keeps y (lastPositionFrom io fuel nextLogId last y).2 := by
  induction fuel generalizing nextLogId last y with
  | zero => exact Keeps.refl y
  | succ fuel ih =>
    have hsize := getLogFileSize_keeps y nextLogId io
    rw [lastPositionFrom]
    rcases hr : y.getLogFileSize nextLogId io with ⟨e | nextSize, y'⟩
    · rw [hr] at hsize
      exact hsize
    · rw [hr] at hsize
      simp only
      split_ifs
      · exact hsize
      · exact hsize.trans (ih _ _ _)

theorem loadLastPosition_keeps (y : Reading) (readUncommitted : Bool) (io : ReadCalls) :
    Keeps y (y.loadLastPosition readUncommitted io).2 := by
  unfold loadLastPosition
  cases readUncommitted with
  | false => exact Keeps.refl y
  | true => exact lastPositionFrom_keeps _ _ _ _

theorem getLogMemoryMap_keeps (cfg : StoreConfig) (y : Reading) (logId : ℕ) (io : ReadCalls) :
    Keeps y (y.getLogMemoryMap cfg logId io).2 := by
  unfold getLogMemoryMap
  have hstore : Keeps y { y with
      store := (y.store.getMemoryMap cfg y.disk logId io).2.1
      disk := (y.store.getMemoryMap cfg y.disk logId io).2.2 } := keeps_store (getMemoryMap_committed _ _ _ _ _)
  split_ifs
  · exact Keeps.refl y
  · split
    · exact Keeps.refl y
    · simp only
      split
      · exact hstore
      · exact hstore
      · exact hstore.trans (setBuffer_keeps _ _)

/-- A mapping is one of the file asked for. -/
theorem getLogMemoryMap_logId {logId : ℕ} {b : LogBuffer} (hk : y.Keyed)
    (h : (y.getLogMemoryMap cfg logId io).1 = .ok (some b)) : b.logId = logId := by
  unfold getLogMemoryMap at h
  split_ifs at h
  · cases h
  · cases hb : y.log.logBuffers.get? logId with
    | some c =>
      rw [hb] at h
      injection h with h
      rw [← Option.some.inj h]
      exact hk _ _ hb
    | none =>
      rw [hb] at h
      simp only at h
      split at h
      · cases h
      · cases h
      · injection h with h
        rw [← Option.some.inj h]

theorem cachedSize_keeps (y : Reading) (b : LogBuffer) (io : ReadCalls) : Keeps y (y.cachedSize b io).2 := by
  unfold cachedSize
  split
  · exact Keeps.refl y
  · have hsize := getLogFileSize_keeps y b.logId io
    split
    · rename_i hr
      rw [hr] at hsize
      exact hsize
    · rename_i hr
      rw [hr] at hsize
      exact hsize.trans (setBuffer_keeps _ _)

end Reading

namespace LogIterator

/-- The iterator is in a file before the one of `position`, or in that one with its limit at or
before it. -/
def Within (it : LogIterator) (position : LogPosition) : Prop :=
  it.logId < position.logSequenceNumber ∨
    it.logId = position.logSequenceNumber ∧ ∀ size ∈ it.size, size ≤ position.positionInLogFile

theorem Within.mono {it : LogIterator} {p q : LogPosition} (h : it.Within p) (hle : p ≤ q) : it.Within q := by
  rcases LogPosition.le_iff.mp hle with hlt | ⟨heq, hoff⟩
  · left
    rcases h with h | ⟨h, -⟩
    · exact h.trans hlt
    · exact h ▸ hlt
  · rcases h with h | ⟨h, hsize⟩
    · exact Or.inl (heq ▸ h)
    · exact Or.inr ⟨h.trans heq, fun size hs => (hsize size hs).trans hoff⟩

/-- The fields that decide `Within` and the mode are the same. -/
structure Same (it it' : LogIterator) : Prop where
  logId : it'.logId = it.logId
  size : it'.size = it.size
  readUncommitted : it'.readUncommitted = it.readUncommitted

theorem Within.congr {it it' : LogIterator} {p : LogPosition} (h : it.Within p) (hs : Same it it') : it'.Within p := by
  unfold Within at h ⊢
  rw [hs.logId, hs.size]
  exact h

end LogIterator

/-- The loop inside one file stays in it, and an entry it yields begins before the limit. -/
theorem scanBuffer_spec (view : Bytes) (size fuel : ℕ) (it : LogIterator) :
    let r := scanBuffer view size fuel it
    LogIterator.Same it r.2 ∧ ∀ entry place, r.1 = .value entry place →
      place.logSequenceNumber = it.logId ∧ place.positionInLogFile < size := by
  induction fuel generalizing it with
  | zero => exact ⟨⟨rfl, rfl, rfl⟩, fun _ _ h => by cases h⟩
  | succ fuel ih =>
    simp only [scanBuffer]
    generalize (if it.readUncommitted = true then view.length else min size view.length) = limit
    split_ifs with h1
    · exact ⟨⟨rfl, rfl, rfl⟩, fun _ _ h => by cases h⟩
    · exact ⟨⟨rfl, rfl, rfl⟩, fun _ _ h => by cases h⟩
    · exact ⟨⟨rfl, rfl, rfl⟩, fun _ _ h => by cases h⟩
    · exact ⟨⟨rfl, rfl, rfl⟩, fun _ _ h => by cases h⟩
    · exact ⟨⟨rfl, rfl, rfl⟩, fun _ _ h => by cases h⟩
    · refine ⟨⟨rfl, rfl, rfl⟩, fun entry place h => ?_⟩
      obtain ⟨-, rfl⟩ := ScanResult.value.inj h
      exact ⟨rfl, not_le.mp h1⟩
    · exact ⟨⟨rfl, rfl, rfl⟩, fun _ _ h => by cases h⟩
    · obtain ⟨hsame, hvalue⟩ := ih { it with
        position := it.position + TRANSACTION_LOG_ENTRY_HEADER_SIZE + readUint32BE view (it.position + 8)
        foundExactStart := (it.matchesRange (readDoubleBE view it.position)).2 }
      exact ⟨⟨hsame.logId, hsame.size, hsame.readUncommitted⟩, hvalue⟩

namespace Reading
variable {cfg : StoreConfig} {y : Reading} {it : LogIterator} {io : ReadCalls}

/-- What is looked for on the way of the loop of `next` from file to file: an iterator that `leaves` its
file so, a file that is entered with such a size, and, if `unmapped`, one that there is no mapping of. -/
structure LoopTrap where
  leaves : Reading → LogIterator → Bool
  enters : Reading → ℕ → ℕ → Bool
  unmapped : Bool

/-- Within the call, the loop of `next` meets the trap. -/
def loopMeets (trap : LoopTrap) (cfg : StoreConfig) (io : ReadCalls) : ℕ → Reading → LogIterator → Bool
  | 0, _, _ => false
  | fuel + 1, y, it =>
    match it.size with
    | none => false
    | some size =>
      match scanBuffer (y.view it.logId) size ((y.view it.logId).length + 1) it with
      | (.passed, it) =>
        if it.logId < y.store.lastCommittedPosition.logSequenceNumber then
          trap.leaves y it ||
            match y.getLogMemoryMap cfg (it.logId + 1) io with
            | (.ok (some b), y) =>
              match y.cachedSize b io with
              | (.ok size, y') =>
                trap.enters y b.logId size || loopMeets trap cfg io fuel y'
                  { it with logId := b.logId, size := some size, position := TRANSACTION_LOG_FILE_HEADER_SIZE }
              | _ => trap.unmapped
            | _ => trap.unmapped
        else false
      | _ => false

/-- The same for a whole call, whose head may first move the iterator. -/
def callMeets (trap : LoopTrap) (cfg : StoreConfig) (y : Reading) (it : LogIterator) (io : ReadCalls) : Bool :=
  match y.nextHead cfg it io with
  | (.error _, _, _) => trap.unmapped
  | (.ok (), y, it) =>
    loopMeets trap cfg io
      (y.store.lastCommittedPosition.logSequenceNumber + y.store.sequenceFiles.entries.length + 3) y it

/-- In the watermark's file there is no way on. -/
theorem loopMeets_of_not_before (trap : LoopTrap) (fuel : ℕ)
    (h : ¬ it.logId < y.store.lastCommittedPosition.logSequenceNumber) :
    loopMeets trap cfg io fuel y it = false := by
  cases fuel with
  | zero => rfl
  | succ fuel =>
    rw [loopMeets]
    cases it.size with
    | none => rfl
    | some size =>
      obtain ⟨hsame, -⟩ := scanBuffer_spec (y.view it.logId) size ((y.view it.logId).length + 1) it
      simp only
      rcases hs : scanBuffer (y.view it.logId) size ((y.view it.logId).length + 1) it with ⟨res, it₁⟩
      rw [hs] at hsame
      cases res with
      | passed =>
        simp only
        rw [if_neg (by rw [hsame.logId]; exact h)]
      | _ => rfl

end Reading

end RocksdbJs
