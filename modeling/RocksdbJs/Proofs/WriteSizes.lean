import RocksdbJs.Lib.Runs
import RocksdbJs.Spec.LogFile

/-! The sizes of the write path. From `AddEntry` to the file's new size everything is counted in
`uint32_t`, and nothing on the way looks at whether a sum still fits. The same computation is
read here in two arithmetics, the code's and that of the integers, and they agree exactly when the
entries, what the fit loop adds up and the file itself stay below 4 GiB. -/

namespace RocksdbJs

/-- How sizes are added and subtracted. -/
structure SizeArithmetic where
  narrow : ℕ → ℕ
  sub : ℕ → ℕ → ℕ

/-- The code's arithmetic. -/
def uint32 : SizeArithmetic := ⟨(· % UINT32_RANGE), fun a b => (a + UINT32_RANGE - b) % UINT32_RANGE⟩

/-- The arithmetic of the integers. -/
def unbounded : SizeArithmetic := ⟨id, (· - ·)⟩

/-- The length in an entry's header and the size of its buffer. -/
structure EntrySizes where
  declared : ℕ
  size : ℕ
deriving DecidableEq

/-- Everything that one call of `writeEntriesV1` computes of sizes. -/
structure WriteSizes where
  entries : List EntrySizes
  availableSpace : ℕ
  spaceNeeded : List ℕ
  numEntriesToWrite : ℕ
  size : ℕ
deriving DecidableEq

namespace SizeArithmetic
variable (a : SizeArithmetic)

/-- `AddEntry` narrows the length of the payload, and the constructor of the entry adds the header. -/
def addEntry (payload : ℕ) : EntrySizes :=
  let size := a.narrow payload
  ⟨size, a.narrow (size + TRANSACTION_LOG_ENTRY_HEADER_SIZE)⟩

/-- The fit loop: the sums it looks at, and the number of entries that fit. -/
def fitLoop (size availableSpace : ℕ) : ℕ → Bool → List ℕ → List ℕ × ℕ
  | _, _, [] => ([], 0)
  | totalSizeToWrite, first, e :: es =>
    let spaceNeeded := a.narrow (totalSizeToWrite + e)
    if (TRANSACTION_LOG_FILE_HEADER_SIZE < size ∨ !first) ∧ availableSpace < spaceNeeded then ([spaceNeeded], 0)
    else
      let r := fitLoop size availableSpace (a.narrow (totalSizeToWrite + e)) false es
      (spaceNeeded :: r.1, r.2 + 1)

/-- The sizes of `writeEntriesV1` for a file of `size` bytes and the pending payloads. -/
def writeEntriesV1 (size maxFileSize : ℕ) (payloads : List ℕ) : WriteSizes :=
  let entries := payloads.map a.addEntry
  let sizes := entries.map EntrySizes.size
  let availableSpace := if 0 < maxFileSize ∧ size < maxFileSize then a.sub maxFileSize size else 0
  let fit := if 0 < maxFileSize then
      if maxFileSize ≤ size then ([], 0) else a.fitLoop size availableSpace 0 true sizes
    else ([], a.narrow payloads.length)
  let bytesWritten := (sizes.take fit.2).sum
  ⟨entries, availableSpace, fit.1, fit.2, if fit.2 = 0 then size else a.narrow (size + a.narrow bytesWritten)⟩

end SizeArithmetic

/-- The fit loop of the file's model is the one in the code's arithmetic. -/
theorem countFitting_eq (size availableSpace : ℕ) (total : ℕ) (first : Bool) (es : List TransactionLogEntry) :
    countFitting size availableSpace total first es =
      (uint32.fitLoop size availableSpace total first (es.map TransactionLogEntry.size)).2 := by
  induction es generalizing total first with
  | nil => rfl
  | cons e es ih =>
    rw [countFitting, List.map_cons, SizeArithmetic.fitLoop, ih]
    dsimp only
    split_ifs with h h' h'
    · rfl
    · exact absurd h h'
    · exact absurd h' h
    · rfl

theorem addEntry_uint32 (e : TransactionLogEntry) : uint32.addEntry e.data.length = ⟨e.data.length, e.size⟩ := by
  have hfits := e.fits
  have hdata : e.data.length % UINT32_RANGE = e.data.length := Nat.mod_eq_of_lt (by omega)
  simp only [SizeArithmetic.addEntry, uint32, hdata, TransactionLogEntry.size, Nat.mod_eq_of_lt hfits]

/-- So the number of entries a file takes is the one computed here. -/
theorem numEntriesToWrite_eq (f : TransactionLogFile) (batch : TransactionLogEntryBatch) {maxFileSize : ℕ}
    (hmax : maxFileSize < UINT32_RANGE) (hcount : batch.pending.length < UINT32_RANGE) :
    f.numEntriesToWrite batch maxFileSize =
      (uint32.writeEntriesV1 f.size maxFileSize (batch.pending.map fun e => e.data.length)).numEntriesToWrite := by
  have hsizes : ((batch.pending.map fun e => e.data.length).map uint32.addEntry).map EntrySizes.size =
      batch.pending.map TransactionLogEntry.size := by
    rw [List.map_map, List.map_map]
    refine List.map_congr_left fun e _ => ?_
    rw [Function.comp_apply, Function.comp_apply, addEntry_uint32]
  simp only [TransactionLogFile.numEntriesToWrite, SizeArithmetic.writeEntriesV1, hsizes]
  by_cases hlimit : 0 < maxFileSize
  · rw [if_pos hlimit, if_pos hlimit]
    by_cases hfull : maxFileSize ≤ f.size
    · rw [if_pos hfull, if_pos hfull]
    · have hspace : uint32.sub maxFileSize f.size = maxFileSize - f.size := by
        change (maxFileSize + UINT32_RANGE - f.size) % UINT32_RANGE = _
        rw [Nat.sub_add_comm (by omega), Nat.add_mod_right, Nat.mod_eq_of_lt (by omega)]
      rw [if_neg hfull, if_neg hfull, if_pos ⟨hlimit, not_le.mp hfull⟩, hspace, countFitting_eq]
  · rw [if_neg hlimit, if_neg hlimit]
    change _ = (batch.pending.map _).length % UINT32_RANGE
    rw [List.length_map, Nat.mod_eq_of_lt hcount, TransactionLogEntryBatch.pending, List.length_drop]

/-- The frame of a payload, header included. -/
def frameSize (payload : ℕ) : ℕ := payload + TRANSACTION_LOG_ENTRY_HEADER_SIZE

/-- Where nothing wraps: each frame is below 4 GiB, and so are the file with the frames that
belong into it, and these frames with the first one that does not fit any more. -/
structure NoWrap (size maxFileSize : ℕ) (payloads : List ℕ) : Prop where
  entry : ∀ p ∈ payloads, frameSize p < UINT32_RANGE
  file : let n := (unbounded.writeEntriesV1 size maxFileSize payloads).numEntriesToWrite
    n ≠ 0 → size + ((payloads.map frameSize).take n).sum < UINT32_RANGE
  group : 0 < maxFileSize → size < maxFileSize →
    let n := (unbounded.writeEntriesV1 size maxFileSize payloads).numEntriesToWrite
    ((payloads.map frameSize).take (n + 1)).sum < UINT32_RANGE

instance (size maxFileSize : ℕ) (payloads : List ℕ) : Decidable (NoWrap size maxFileSize payloads) :=
  let n := (unbounded.writeEntriesV1 size maxFileSize payloads).numEntriesToWrite
  decidable_of_iff ((∀ p ∈ payloads, frameSize p < UINT32_RANGE) ∧
      (n ≠ 0 → size + ((payloads.map frameSize).take n).sum < UINT32_RANGE) ∧
      (0 < maxFileSize → size < maxFileSize → ((payloads.map frameSize).take (n + 1)).sum < UINT32_RANGE))
    ⟨fun h => ⟨h.1, h.2.1, h.2.2⟩, fun h => ⟨h.entry, h.file, h.group⟩⟩

/-- What the call should compute: what it would with integers, with each header giving the length of the payload. -/
structure SizesExact32 (size maxFileSize : ℕ) (payloads : List ℕ) : Prop where
  same : uint32.writeEntriesV1 size maxFileSize payloads = unbounded.writeEntriesV1 size maxFileSize payloads
  declared : (uint32.writeEntriesV1 size maxFileSize payloads).entries.map EntrySizes.declared = payloads

theorem addEntry_exact_iff (p : ℕ) : uint32.addEntry p = unbounded.addEntry p ↔ frameSize p < UINT32_RANGE := by
  have hlt : ∀ n, n % UINT32_RANGE < UINT32_RANGE := fun n => Nat.mod_lt _ (by decide)
  constructor
  · intro h
    have hsize := congrArg EntrySizes.size h
    change _ % _ = frameSize p at hsize
    rw [← hsize]
    exact hlt _
  · intro h
    simp only [frameSize] at h
    have hp : p % UINT32_RANGE = p := Nat.mod_eq_of_lt (by omega)
    simp only [SizeArithmetic.addEntry, uint32, unbounded, hp, Nat.mod_eq_of_lt h, id]

/-- The loop adds up what it should exactly when the last sum that it looks at fits. -/
theorem fitLoop_exact_iff (size availableSpace : ℕ) {total : ℕ} (htotal : total < UINT32_RANGE)
    (first : Bool) (es : List ℕ) :
    uint32.fitLoop size availableSpace total first es = unbounded.fitLoop size availableSpace total first es ↔
      total + (es.take ((unbounded.fitLoop size availableSpace total first es).2 + 1)).sum < UINT32_RANGE := by
  induction es generalizing total first with
  | nil => simpa [SizeArithmetic.fitLoop] using htotal
  | cons e es ih =>
    rw [SizeArithmetic.fitLoop, SizeArithmetic.fitLoop]
    have hu : uint32.narrow (total + e) = (total + e) % UINT32_RANGE := rfl
    have hi : unbounded.narrow (total + e) = total + e := rfl
    rw [hu, hi]
    by_cases hfits : total + e < UINT32_RANGE
    · rw [Nat.mod_eq_of_lt hfits]
      dsimp only
      split_ifs with hstop
      · simpa using hfits
      · rw [List.take_succ_cons, List.sum_cons, ← Nat.add_assoc, ← ih hfits false, Prod.ext_iff, Prod.ext_iff]
        simp only [List.cons.injEq, true_and, Nat.add_right_cancel_iff]
    · -- the first sum wraps already
      have hlt : (total + e) % UINT32_RANGE < UINT32_RANGE := Nat.mod_lt _ (by decide)
      constructor
      · intro h
        have hhead : (total + e) % UINT32_RANGE = total + e := by
          have := congrArg (fun r : List ℕ × ℕ => r.1.head?) h
          dsimp only at this
          split_ifs at this
          all_goals exact Option.some.inj this
        omega
      · intro h
        exfalso
        dsimp only at h
        split_ifs at h
        all_goals
          rw [List.take_succ_cons, List.sum_cons] at h
          omega

section
variable {size maxFileSize : ℕ} {payloads : List ℕ}

theorem addEntry_all_exact_iff :
    payloads.map uint32.addEntry = payloads.map unbounded.addEntry ↔ ∀ p ∈ payloads, frameSize p < UINT32_RANGE := by
  rw [List.map_inj_left]
  exact forall₂_congr fun p _ => addEntry_exact_iff p

theorem sizes_unbounded (payloads : List ℕ) :
    (payloads.map unbounded.addEntry).map EntrySizes.size = payloads.map frameSize := by
  rw [List.map_map]
  rfl

/-- The new size is the exact one if and only if it fits. -/
theorem newSize_exact_iff (n bytesWritten : ℕ) :
    (if n = 0 then size else uint32.narrow (size + uint32.narrow bytesWritten)) =
        (if n = 0 then size else unbounded.narrow (size + unbounded.narrow bytesWritten)) ↔
      (n ≠ 0 → size + bytesWritten < UINT32_RANGE) := by
  by_cases hn : n = 0
  · simp [hn]
  · rw [if_neg hn, if_neg hn]
    change (size + bytesWritten % UINT32_RANGE) % UINT32_RANGE = size + bytesWritten ↔ _
    have hlt : (size + bytesWritten % UINT32_RANGE) % UINT32_RANGE < UINT32_RANGE := Nat.mod_lt _ (by decide)
    constructor
    · intro h _
      omega
    · intro h
      rw [Nat.mod_eq_of_lt (a := bytesWritten) (by have := h hn; omega), Nat.mod_eq_of_lt (h hn)]

theorem length_le_frameSizes (payloads : List ℕ) : payloads.length ≤ (payloads.map frameSize).sum := by
  induction payloads with
  | nil => exact le_rfl
  | cons p ps ih =>
    have hp : 1 ≤ frameSize p := Nat.le_add_left 1 (p + 12)
    rw [List.length_cons, List.map_cons, List.sum_cons]
    omega

/-- One call of `writeEntriesV1`. -/
theorem same_iff (hmax : maxFileSize < UINT32_RANGE) :
    uint32.writeEntriesV1 size maxFileSize payloads = unbounded.writeEntriesV1 size maxFileSize payloads ↔
      NoWrap size maxFileSize payloads := by
  by_cases hentries : ∀ p ∈ payloads, frameSize p < UINT32_RANGE
  swap
  · refine ⟨fun h => absurd ?_ hentries, fun h => absurd h.entry hentries⟩
    exact addEntry_all_exact_iff.mp (congrArg WriteSizes.entries h)
  have hmap := addEntry_all_exact_iff.mpr hentries
  have hiff : NoWrap size maxFileSize payloads ↔ _ ∧ _ := ⟨fun h => ⟨h.file, h.group⟩, fun h => ⟨hentries, h.1, h.2⟩⟩
  rw [hiff]
  simp only [SizeArithmetic.writeEntriesV1, hmap, sizes_unbounded, WriteSizes.mk.injEq, true_and]
  by_cases hlimit : 0 < maxFileSize
  · by_cases hfull : maxFileSize ≤ size
    · -- the call returns at once
      simp [hlimit, hfull, not_lt.mpr hfull]
    · have hroom := not_le.mp hfull
      have hspace : uint32.sub maxFileSize size = unbounded.sub maxFileSize size := by
        change (maxFileSize + UINT32_RANGE - size) % UINT32_RANGE = maxFileSize - size
        rw [Nat.sub_add_comm (by omega), Nat.add_mod_right, Nat.mod_eq_of_lt (by omega)]
      have hfit := fitLoop_exact_iff size (unbounded.sub maxFileSize size) (show 0 < UINT32_RANGE by decide) true
        (payloads.map frameSize)
      rw [Nat.zero_add] at hfit
      simp only [hlimit, hfull, hroom, and_self, if_true, if_false, hspace, true_and, forall_const]
      constructor
      · rintro ⟨h1, h2, h3⟩
        have hr := Prod.ext h1 h2
        rw [hr] at h3
        exact ⟨(newSize_exact_iff _ _).mp h3, hfit.mp hr⟩
      · rintro ⟨h3, hr⟩
        rw [hfit.mpr hr]
        exact ⟨rfl, rfl, (newSize_exact_iff _ _).mpr h3⟩
  · have hn : unbounded.narrow payloads.length = payloads.length := rfl
    simp only [hlimit, if_false, false_and, true_and, false_implies, and_true, hn]
    have htake : (payloads.map frameSize).take payloads.length = payloads.map frameSize :=
      List.take_of_length_le (List.length_map _).le
    by_cases hcount : payloads.length < UINT32_RANGE
    · have hu : uint32.narrow payloads.length = payloads.length := Nat.mod_eq_of_lt hcount
      rw [hu]
      simp only [true_and]
      exact newSize_exact_iff _ _
    · have hlt : uint32.narrow payloads.length < UINT32_RANGE := Nat.mod_lt _ (by decide)
      have hpos : 0 < UINT32_RANGE := by decide
      refine ⟨fun h => ?_, fun h => ?_⟩
      · exact absurd (h.1 ▸ hlt) hcount
      · have hsum := h (by omega)
        have hle := length_le_frameSizes payloads
        rw [htake] at hsum
        omega

/-- What a call computes is exact if and only if nothing wraps. -/
theorem sizesExact32_iff (hmax : maxFileSize < UINT32_RANGE) :
    SizesExact32 size maxFileSize payloads ↔ NoWrap size maxFileSize payloads := by
  refine ⟨fun h => (same_iff hmax).mp h.same, fun h => ?_⟩
  have hsame := (same_iff hmax).mpr h
  refine ⟨hsame, ?_⟩
  rw [hsame]
  change (payloads.map unbounded.addEntry).map EntrySizes.declared = payloads
  rw [List.map_map]
  exact List.map_id payloads

end

/-- The write path seen as sizes: the current file's, and the payloads of the batch not written yet. -/
structure WritePath where
  size : ℕ
  pending : List ℕ
deriving DecidableEq

inductive WritePathOp
  /-- A batch whose entries `addEntry` accepted is handed to `writeBatch`. -/
  | batch (payloads : List ℕ)
  | writeEntries
  /-- The store goes on with another file, a new one or one that it opens. -/
  | nextFile (size : UInt32)
deriving DecidableEq

namespace WritePath

def step (maxFileSize : ℕ) (x : WritePath) : WritePathOp → Option WritePath
  | .batch payloads => if x.pending = [] then some { x with pending := payloads } else none
  | .writeEntries =>
    let r := uint32.writeEntriesV1 x.size maxFileSize x.pending
    some ⟨r.size, x.pending.drop r.numEntriesToWrite⟩
  | .nextFile size => some { x with size := size.toNat }

/-- A step computes its sizes exactly. -/
def Exact (maxFileSize : ℕ) (x : WritePath) : WritePathOp → Prop
  | .batch payloads => payloads.map uint32.addEntry = payloads.map unbounded.addEntry
  | .writeEntries => SizesExact32 x.size maxFileSize x.pending
  | .nextFile _ => True

/-- The condition on a step. -/
def Ok (maxFileSize : ℕ) (x : WritePath) : WritePathOp → Prop
  | .batch payloads => ∀ p ∈ payloads, frameSize p < UINT32_RANGE
  | .writeEntries => NoWrap x.size maxFileSize x.pending
  | .nextFile _ => True

instance (maxFileSize : ℕ) (x : WritePath) : (op : WritePathOp) → Decidable (Ok maxFileSize x op)
  | .batch payloads => inferInstanceAs (Decidable (∀ p ∈ payloads, frameSize p < UINT32_RANGE))
  | .writeEntries => inferInstanceAs (Decidable (NoWrap _ _ _))
  | .nextFile _ => inferInstanceAs (Decidable True)

theorem exact_iff {maxFileSize : ℕ} (hmax : maxFileSize < UINT32_RANGE) (x : WritePath) (op : WritePathOp) :
    Exact maxFileSize x op ↔ Ok maxFileSize x op := by
  cases op with
  | batch payloads => exact addEntry_all_exact_iff
  | writeEntries => exact sizesExact32_iff hmax
  | nextFile size => exact Iff.rfl

/-- Over any sequence of batches and files, all sizes are exact if and only if nothing wraps at any step. -/
theorem sizes_exact_iff {maxFileSize : ℕ} (hmax : maxFileSize < UINT32_RANGE) (x : WritePath) (ops : List WritePathOp) :
    Runs.Along (step maxFileSize) (Exact maxFileSize) x ops ↔ Runs.Along (step maxFileSize) (Ok maxFileSize) x ops :=
  ⟨Runs.Along.mono fun s a => (exact_iff hmax s a).mp, Runs.Along.mono fun s a => (exact_iff hmax s a).mpr⟩

/-- Two batches in a file limited to 100 bytes. -/
theorem sizes_exact_iff_smallFile : Runs.Along (step 100) (Exact 100) ⟨13, []⟩
    [.batch [7, 20], .writeEntries, .batch [70], .writeEntries, .nextFile 13, .writeEntries] := by
  rw [sizes_exact_iff (by decide)]
  decide

/-- In a file without a limit, 6 bytes below 4 GiB, an entry of one byte makes the size 8. -/
theorem size_wraps : ¬ ∀ (maxFileSize : ℕ) (x : WritePath) (ops : List WritePathOp),
    maxFileSize < UINT32_RANGE → Runs.Along (step maxFileSize) (Exact maxFileSize) x ops := by
  intro h
  have hexact := h 0 ⟨4294967290, []⟩ [.batch [1], .writeEntries] (by decide)
  have hsame := ((hexact.2 ⟨4294967290, [1]⟩ rfl).1).same
  exact absurd (congrArg WriteSizes.size hsame) (by decide)

end WritePath

end RocksdbJs
