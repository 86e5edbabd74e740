import RocksdbJs.Spec.LogFile
import RocksdbJs.Sanity.Frames

/-! What `writeBatchToFile` puts into the file for each pattern of `writev` results, and
from it everything that a call of `writeEntries` can have done. -/

namespace RocksdbJs

/-- A call of `writev` fails, or writes nothing, while some of `iovecs` is unwritten. -/
def failsEarly : List WritevResult → List Bytes → Bool
  | [], _ => false
  | r :: rs, iovecs =>
    if iovecs.isEmpty then false
    else match r with
      | .eintr => failsEarly rs iovecs
      | .error => true
      | .count n =>
        let written := min n (iovecs.take IOV_MAX).flatten.length
        if written = 0 then true else failsEarly rs (advanceIovecs written iovecs)

theorem advanceIovecs_flatten (n : ℕ) (iovecs : List Bytes) :
    (advanceIovecs n iovecs).flatten = iovecs.flatten.drop n := by
  induction iovecs generalizing n with
  | nil => simp [advanceIovecs]
  | cons iov iovecs ih =>
    unfold advanceIovecs
    split_ifs with h0 hle
    · rw [h0, List.drop_zero]
    · rw [ih, List.flatten_cons, List.drop_append, List.drop_eq_nil_of_le hle, List.nil_append]
    · rw [List.flatten_cons, List.flatten_cons, List.drop_append_of_le_length (by omega)]

theorem advanceIovecs_ne_nil {n : ℕ} {iovecs : List Bytes} (h : ∀ b ∈ iovecs, b ≠ []) :
    ∀ b ∈ advanceIovecs n iovecs, b ≠ [] := by
  induction iovecs generalizing n with
  | nil => simp [advanceIovecs]
  | cons iov iovecs ih =>
    unfold advanceIovecs
    split_ifs with h0 hle
    · exact h
    · exact ih fun b hb => h b (List.mem_cons_of_mem _ hb)
    · intro b hb
      rcases List.mem_cons.mp hb with rfl | hb
      · intro hnil
        have := congrArg List.length hnil
        rw [List.length_drop, List.length_nil] at this
        omega
      · exact h b (List.mem_cons_of_mem _ hb)

/-- What one `writev` call is offered is a first part of everything left to write. -/
theorem offered_front (iovecs : List Bytes) : (iovecs.take IOV_MAX).flatten <+: iovecs.flatten := by
  conv_rhs => rw [← List.take_append_drop IOV_MAX iovecs, List.flatten_append]
  exact List.prefix_append _ _

theorem written_append_rest {iovecs : List Bytes} {k : ℕ} (hk : k ≤ (iovecs.take IOV_MAX).flatten.length) :
    (iovecs.take IOV_MAX).flatten.take k ++ (advanceIovecs k iovecs).flatten = iovecs.flatten := by
  obtain ⟨rest, hrest⟩ := offered_front iovecs
  rw [advanceIovecs_flatten, ← hrest, List.drop_append_of_le_length hk, ← List.append_assoc, List.take_append_drop]

/-- A call that returns a total has appended every buffer. -/
theorem writeBatchToFile_written {results : List WritevResult} {iovecs : List Bytes} {total t : ℕ}
    (h : (writeBatchToFile results iovecs total).2 = .written t) :
    (writeBatchToFile results iovecs total).1 = iovecs.flatten ∧ t = total + iovecs.flatten.length := by
  induction results generalizing iovecs total with
  | nil =>
    simp only [writeBatchToFile] at h ⊢
    split_ifs at h with he
    obtain rfl := List.isEmpty_iff.mp he
    simpa using h.symm
  | cons r rs ih =>
    unfold writeBatchToFile at h ⊢
    by_cases he : iovecs.isEmpty
    · obtain rfl := List.isEmpty_iff.mp he
      simpa [eq_comm] using h
    simp only [he, if_false, Bool.false_eq_true] at h ⊢
    cases r with
    | eintr => exact ih h
    | error => simp at h
    | count n =>
      simp only at h ⊢
      split_ifs at h ⊢ with hw
      have hrest := ih h
      have hk : min n (iovecs.take IOV_MAX).flatten.length ≤ (iovecs.take IOV_MAX).flatten.length := min_le_right _ _
      refine ⟨by rw [hrest.1, written_append_rest hk], ?_⟩
      have hlen := congrArg List.length (written_append_rest hk)
      rw [List.length_append, List.length_take, min_eq_left hk] at hlen
      omega

/-- Whatever happens, the bytes appended are a first part of the buffers. -/
theorem writeBatchToFile_prefix (results : List WritevResult) (iovecs : List Bytes) (total : ℕ) :
    (writeBatchToFile results iovecs total).1 <+: iovecs.flatten := by
  induction results generalizing iovecs total with
  | nil => exact List.nil_prefix
  | cons r rs ih =>
    unfold writeBatchToFile
    by_cases he : iovecs.isEmpty
    · simp [he]
    simp only [he, if_false, Bool.false_eq_true]
    cases r with
    | eintr => exact ih _ _
    | error => exact List.nil_prefix
    | count n =>
      simp only
      split_ifs with hw
      · exact List.nil_prefix
      · have hk : min n (iovecs.take IOV_MAX).flatten.length ≤ (iovecs.take IOV_MAX).flatten.length := min_le_right _ _
        rw [← written_append_rest hk]
        exact (List.prefix_append_right_inj _).mpr (ih _ _)

/-- The call reports failure exactly when a `writev` fails early. -/
theorem writeBatchToFile_failed_iff (results : List WritevResult) (iovecs : List Bytes) (total : ℕ) :
    (writeBatchToFile results iovecs total).2 = .failed ↔ failsEarly results iovecs = true := by
  induction results generalizing iovecs total with
  | nil =>
    simp only [writeBatchToFile, failsEarly]
    split_ifs <;> simp
  | cons r rs ih =>
    unfold writeBatchToFile failsEarly
    by_cases he : iovecs.isEmpty
    · simp [he]
    simp only [he, if_false, Bool.false_eq_true]
    cases r with
    | eintr => exact ih _ _
    | error => simp
    | count n =>
      simp only
      split_ifs with hw
      · simp
      · exact ih _ _

theorem writeBatchToFile_cases (results : List WritevResult) (iovecs : List Bytes) (total : ℕ)
    (hreturns : (writeBatchToFile results iovecs total).2 ≠ .blocked) :
    (failsEarly results iovecs = true ∧ (writeBatchToFile results iovecs total).2 = .failed) ∨
    (failsEarly results iovecs = false ∧
      writeBatchToFile results iovecs total = (iovecs.flatten, .written (total + iovecs.flatten.length))) := by
  cases ho : (writeBatchToFile results iovecs total).2 with
  | failed => exact Or.inl ⟨(writeBatchToFile_failed_iff _ _ _).mp ho, rfl⟩
  | blocked => exact absurd ho hreturns
  | written t =>
    obtain ⟨hbytes, rfl⟩ := writeBatchToFile_written ho
    refine Or.inr ⟨?_, Prod.ext hbytes ho⟩
    rw [← Bool.not_eq_true, ← writeBatchToFile_failed_iff results iovecs total, ho]
    simp

/-- The bytes that the next `n` entries of the batch take in a file. -/
def TransactionLogEntryBatch.nextBytes (b : TransactionLogEntryBatch) (n : ℕ) : Bytes :=
  frames (b.nextRecords n)

/-- The bytes one call of `writeEntries` sets out to write. -/
def toWrite (f : TransactionLogFile) (batch : TransactionLogEntryBatch) (maxFileSize : ℕ) : List Bytes :=
  (batch.nextRecords (f.numEntriesToWrite batch maxFileSize)).map LogRecord.frame

theorem toWrite_flatten (f : TransactionLogFile) (batch : TransactionLogEntryBatch) (maxFileSize : ℕ) :
    (toWrite f batch maxFileSize).flatten = batch.nextBytes (f.numEntriesToWrite batch maxFileSize) := by
  rw [toWrite, TransactionLogEntryBatch.nextBytes, frames, List.flatMap_def]

@[simp] theorem nextBytes_zero (b : TransactionLogEntryBatch) : b.nextBytes 0 = [] := by
  simp [TransactionLogEntryBatch.nextBytes, TransactionLogEntryBatch.nextRecords]

/-- The file after its first append since it was opened. -/
def TransactionLogFile.touched (f : TransactionLogFile) : TransactionLogFile := { f with hasAppendedSinceOpen := true }

@[simp] theorem touched_size (f : TransactionLogFile) : f.touched.size = f.size := rfl

/-- The batch with its cursor moved by `n` entries. -/
def TransactionLogEntryBatch.advanced (b : TransactionLogEntryBatch) (n : ℕ) : TransactionLogEntryBatch :=
  { b with currentEntryIndex := b.currentEntryIndex + n }

/-- What a call of `writeEntriesV1` that has something to write makes of the outcome, with the cursor moved. -/
def TransactionLogFile.afterWrite (f : TransactionLogFile) (bytes : Bytes)
    (batch : TransactionLogEntryBatch) (w : Bytes × WriteOutcome) :
    WriteEntriesResult :=
  match w.2 with
  | .written total => ⟨w.2, none, { f with size := add32 f.size total }, bytes ++ w.1, batch⟩
  | .failed => ⟨w.2, some .failedToWrite, f, bytes ++ w.1, batch⟩
  | .blocked => ⟨w.2, none, f, bytes ++ w.1, batch⟩

/-- Everything a call of `writeEntries` that comes to an end can have done. -/
theorem writeEntries_cases (f : TransactionLogFile) (bytes : Bytes) (batch : TransactionLogEntryBatch)
    (maxFileSize : ℕ) (results : List WritevResult)
    (hreturns : (f.writeEntries bytes batch maxFileSize results).outcome ≠ .blocked) :
    let n := f.numEntriesToWrite batch maxFileSize
    let r := f.writeEntries bytes batch maxFileSize results
    (f.version ≠ 1 ∧ r = ⟨.written 0, some (.unsupportedVersion f.version), f.touched, bytes, batch⟩) ∨
    (f.version = 1 ∧ n = 0 ∧ r = ⟨.written 0, none, f.touched, bytes, batch⟩) ∨
    (f.version = 1 ∧ n ≠ 0 ∧ failsEarly results (toWrite f batch maxFileSize) = true ∧
      ∃ part, part <+: batch.nextBytes n ∧
        r = ⟨.failed, some .failedToWrite, f.touched, bytes ++ part, batch.advanced n⟩) ∨
    (f.version = 1 ∧ n ≠ 0 ∧ failsEarly results (toWrite f batch maxFileSize) = false ∧
      r = ⟨.written (batch.nextBytes n).length, none,
        { f.touched with size := add32 f.size (batch.nextBytes n).length },
        bytes ++ batch.nextBytes n, batch.advanced n⟩) := by
  intro n r
  by_cases hv : f.version = 1
  swap
  · refine Or.inl ⟨hv, ?_⟩
    exact if_neg hv
  have hr : r = f.touched.writeEntriesV1 bytes batch maxFileSize results := if_pos hv
  right
  by_cases hn : n = 0
  · exact Or.inl ⟨hv, hn, hr.trans (if_pos hn)⟩
  right
  set w := writeBatchToFile results (toWrite f batch maxFileSize) 0
  have hwrites : r = f.touched.afterWrite bytes (batch.advanced n) w := hr.trans (if_neg hn)
  have hb : w.2 ≠ .blocked := by
    intro hblocked
    rw [show (f.writeEntries bytes batch maxFileSize results) = _ from hwrites, TransactionLogFile.afterWrite,
      hblocked] at hreturns
    exact hreturns rfl
  rcases writeBatchToFile_cases results (toWrite f batch maxFileSize) 0 hb with ⟨hfail, ho⟩ | ⟨hok, ho⟩
  · refine Or.inl ⟨hv, hn, hfail, w.1, ?_, ?_⟩
    · rw [← toWrite_flatten]
      exact writeBatchToFile_prefix _ _ _
    · rw [hwrites, TransactionLogFile.afterWrite, show w.2 = .failed from ho]
  · refine Or.inr ⟨hv, hn, hok, ?_⟩
    have hw : w = (batch.nextBytes n, .written (batch.nextBytes n).length) := by
      rw [← toWrite_flatten]
      simpa only [Nat.zero_add] using ho
    rw [hwrites, hw]
    rfl

theorem writeEntries_returns {f : TransactionLogFile} {bytes : Bytes} {batch : TransactionLogEntryBatch}
    {maxFileSize : ℕ} {results : List WritevResult}
    (h : (writeBatchToFile results (toWrite f batch maxFileSize) 0).2 ≠ .blocked) :
    (f.writeEntries bytes batch maxFileSize results).outcome ≠ .blocked := by
  by_cases hv : f.version = 1
  swap
  · rw [show f.writeEntries bytes batch maxFileSize results = _ from if_neg hv]
    simp
  rw [show f.writeEntries bytes batch maxFileSize results = f.touched.writeEntriesV1 bytes batch maxFileSize results
    from if_pos hv]
  by_cases hn : f.numEntriesToWrite batch maxFileSize = 0
  · rw [show f.touched.writeEntriesV1 bytes batch maxFileSize results = _ from if_pos hn]
    simp
  rw [show f.touched.writeEntriesV1 bytes batch maxFileSize results = _ from if_neg hn]
  change (f.touched.afterWrite bytes (batch.advanced _) _).outcome ≠ .blocked
  unfold TransactionLogFile.afterWrite
  split <;> exact h

end RocksdbJs
