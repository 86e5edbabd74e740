import RocksdbJs.Sanity.Append

/-! When a failed append leaves the log file, its recorded size and the batch's cursor
as they were. A hard error is reported only after bytes may have reached the file and
always after the cursor has moved, so an append is atomic exactly when no call fails
while bytes are left and the new size fits its 32 bits. -/

namespace RocksdbJs

/-- The write-everything-or-fail contract of one `writeEntries` call. -/
def WriteAtomic (f : TransactionLogFile) (bytes : Bytes) (batch : TransactionLogEntryBatch)
    (maxFileSize : ℕ) (results : List WritevResult) : Prop :=
  let r := f.writeEntries bytes batch maxFileSize results
  match r.error with
  | none =>
    let taken := batch.nextBytes (r.batch.currentEntryIndex - batch.currentEntryIndex)
    r.bytes = bytes ++ taken ∧ r.file.size = f.size + taken.length
  | some _ =>
    r.bytes = bytes ∧ r.file.size = f.size ∧ r.batch.currentEntryIndex = batch.currentEntryIndex

/-- An append is atomic exactly when it is refused for the file's version or, of the
calls it makes, none fails while bytes are left and the file stays below 4 GiB. -/
theorem writeAtomic_iff (f : TransactionLogFile) (bytes : Bytes) (batch : TransactionLogEntryBatch)
    (maxFileSize : ℕ) (results : List WritevResult) (hsize : f.size < UINT32_RANGE)
    (hreturns : (f.writeEntries bytes batch maxFileSize results).outcome ≠ .blocked) :
    WriteAtomic f bytes batch maxFileSize results ↔
      f.version ≠ 1 ∨ (failsEarly results (toWrite f batch maxFileSize) = false ∧
        f.size + (toWrite f batch maxFileSize).flatten.length < UINT32_RANGE) := by
  rw [toWrite_flatten]
  unfold WriteAtomic
  rcases writeEntries_cases f bytes batch maxFileSize results hreturns with
    ⟨hv, hr⟩ | ⟨hv, hn, hr⟩ | ⟨hv, hn, hfail, part, -, hr⟩ | ⟨hv, hn, hok, hr⟩
  · simp [hr, hv]
  · -- nothing fits: no call is made
    have hempty : toWrite f batch maxFileSize = [] := by simp [toWrite, hn, TransactionLogEntryBatch.nextRecords]
    have hfails : failsEarly results [] = false := by cases results <;> rfl
    simp [hr, hv, hn, hempty, hfails, hsize]
  · -- the cursor has moved although the call throws
    simp [hr, hv, hfail, hn, TransactionLogEntryBatch.advanced]
  · simp only [hr, hv, hok, TransactionLogEntryBatch.advanced, Nat.add_sub_cancel_left, add32, ne_eq,
      not_true_eq_false, false_or, true_and]
    constructor
    · intro h
      have hlt := Nat.mod_lt (f.size + (batch.nextBytes (f.numEntriesToWrite batch maxFileSize)).length)
        (show 0 < UINT32_RANGE by decide)
      omega
    · exact Nat.mod_eq_of_lt

/-- One entry of one byte, to be appended to a file that holds only its header. -/
def oneByteBatch : TransactionLogEntryBatch := ⟨⟨5⟩, [oneByteEntry 7], 0⟩

def headerOnlyFile : TransactionLogFile := { sequenceNumber := 1, isOpen := true, size := 13 }

theorem writeAtomic_oneByte :
    WriteAtomic headerOnlyFile (fileHeader ⟨5⟩) oneByteBatch 100 [.eintr, .count 3, .count 11] :=
  (writeAtomic_iff headerOnlyFile (fileHeader ⟨5⟩) oneByteBatch 100 [.eintr, .count 3, .count 11]
    (by decide) (by decide +kernel)).mpr (Or.inr (by decide +kernel))

/-- Three bytes of the frame land, then the disk is full: the call throws with the bytes
in the file and the cursor past the entry. -/
theorem torn_append_not_atomic :
    ¬ WriteAtomic headerOnlyFile (fileHeader ⟨5⟩) oneByteBatch 100 [.count 3, .error] := by
  intro h
  have hcursor : (headerOnlyFile.writeEntries (fileHeader ⟨5⟩) oneByteBatch 100
      [.count 3, .error]).batch.currentEntryIndex = 0 := h.2.2
  revert hcursor
  decide +kernel

end RocksdbJs
