import RocksdbJs.Sanity.Files
import RocksdbJs.Lib.Runs

/-! `writeBatch` when every system call succeeds. The log is a list of files of whole
frames in the order of their numbers; the current file is the last one, and an append
to it is an append to the content. -/

namespace RocksdbJs

open TransactionLogStore

/-- The records of all log files in the order of their numbers. -/
def Disk.content (d : Disk) : List LogRecord := d.logs.entries.flatMap fun e => fileRecords e.2

/-- Every log file is empty or made of whole frames, the store is right about those it has
open, and none has a number above the current one. -/
structure LogOk (s : TransactionLogStore) (d : Disk) : Prop where
  whole : ∀ {seq bytes}, d.logs.get? seq = some bytes → bytes = [] ∨ ∃ timestamp rs, WholeFile bytes timestamp rs
  version : ∀ {seq f}, s.sequenceFiles.get? seq = some f → f.version = 1
  size_open : ∀ {seq f}, s.sequenceFiles.get? seq = some f → f.isOpen = true →
    f.size = (d.bytes seq).length % UINT32_RANGE ∧ d.bytes seq ≠ []
  size_closed : ∀ {seq f}, s.sequenceFiles.get? seq = some f → f.isOpen = false → f.size = 0
  file_le : ∀ {seq f}, s.sequenceFiles.get? seq = some f → seq ≤ s.currentSequenceNumber
  log_le : ∀ {seq bytes}, d.logs.get? seq = some bytes → seq ≤ s.currentSequenceNumber
  current_lt : s.currentSequenceNumber < s.nextSequenceNumber

/-- The current file's size fits the 32 bits it is held in. -/
def Bounded (s : TransactionLogStore) (d : Disk) : Prop := (d.bytes s.currentSequenceNumber).length < UINT32_RANGE

theorem Disk.bytes_eq {d : Disk} {seq : ℕ} {bytes : Bytes} (h : d.logs.get? seq = some bytes) :
    d.bytes seq = bytes := by
  rw [Disk.bytes, h]; rfl

theorem Disk.bytes_none {d : Disk} {seq : ℕ} (h : d.logs.get? seq = none) : d.bytes seq = [] := by
  rw [Disk.bytes, h]; rfl

/-- A file with bytes is on the disk. -/
theorem Disk.get?_of_bytes {d : Disk} {seq : ℕ} (h : d.bytes seq ≠ []) : d.logs.get? seq = some (d.bytes seq) := by
  cases hg : d.logs.get? seq with
  | none => exact absurd (Disk.bytes_none hg) h
  | some bytes => rw [Disk.bytes_eq hg]

theorem fileRecords_nil : fileRecords [] = [] := rfl

/-- Replacing the last file's bytes by others with `rs` more records. -/
theorem content_set {d : Disk} {seq : ℕ} (bytes : Bytes) (rs : List LogRecord) (dir : Bool)
    (hmax : ∀ q, (d.logs.get? q).isSome → q ≤ seq) (hrec : fileRecords bytes = fileRecords (d.bytes seq) ++ rs) :
    ({ d with logs := d.logs.set seq bytes, directory := dir } : Disk).content = d.content ++ rs := by
  unfold Disk.content
  cases hg : d.logs.get? seq with
  | some old =>
    obtain ⟨front, hold, hnew⟩ := SeqMap.entries_of_max hmax hg
    rw [Disk.bytes_eq hg] at hrec
    simp only [hnew, hold, List.flatMap_append, List.flatMap_cons, List.flatMap_nil, List.append_nil, hrec,
      List.append_assoc]
  | none =>
    have hlt : ∀ q, (d.logs.get? q).isSome → q < seq := by
      intro q hq
      refine lt_of_le_of_ne (hmax q hq) ?_
      rintro rfl
      rw [hg] at hq
      cases hq
    rw [Disk.bytes_none hg, fileRecords_nil, List.nil_append] at hrec
    simp only [SeqMap.entries_set_of_lt hlt, List.flatMap_append, List.flatMap_cons, List.flatMap_nil,
      List.append_nil, hrec]

/-- The number the store moves on to belongs to no file. -/
theorem LogOk.next_fresh {s : TransactionLogStore} {d : Disk} (h : LogOk s d) :
    s.sequenceFiles.get? s.nextSequenceNumber = none ∧ d.logs.get? s.nextSequenceNumber = none := by
  have hlt := h.current_lt
  constructor
  · cases hg : s.sequenceFiles.get? s.nextSequenceNumber with
    | none => rfl
    | some f => have := h.file_le hg; omega
  · cases hg : d.logs.get? s.nextSequenceNumber with
    | none => rfl
    | some b => have := h.log_le hg; omega

theorem LogOk.advance {s : TransactionLogStore} {d : Disk} (h : LogOk s d) :
    LogOk s.advanceSequence d ∧ Bounded s.advanceSequence d := by
  refine ⟨⟨h.whole, h.version, h.size_open, h.size_closed, ?_, ?_, Nat.lt_succ_self _⟩, ?_⟩
  · exact fun hf => (h.file_le hf).trans h.current_lt.le
  · exact fun hf => (h.log_le hf).trans h.current_lt.le
  · rw [Bounded, show s.advanceSequence.currentSequenceNumber = s.nextSequenceNumber from rfl,
      Disk.bytes_none h.next_fresh.2]
    decide

theorem LogOk.getLogFile {s : TransactionLogStore} {d : Disk} (h : LogOk s d) (now : ℤ) :
    LogOk (s.getLogFile d s.currentSequenceNumber now).1 (s.getLogFile d s.currentSequenceNumber now).2 := by
  unfold TransactionLogStore.getLogFile
  cases hg : s.sequenceFiles.get? s.currentSequenceNumber with
  | some f => exact h
  | none =>
    refine ⟨h.whole, ?_, ?_, ?_, ?_, h.log_le, h.current_lt⟩
    all_goals
      intro q f hf
      simp only [SeqMap.get?_set] at hf
      split_ifs at hf with hq
    · obtain rfl := Option.some.inj hf
      rfl
    · exact h.version hf
    · obtain rfl := Option.some.inj hf
      intro ho
      cases ho
    · exact h.size_open hf
    · obtain rfl := Option.some.inj hf
      exact fun _ => rfl
    · exact h.size_closed hf
    · exact hq.le
    · exact h.file_le hf

theorem headerBytes_eq (timestamp : Binary64) :
    TransactionLogFile.headerBytes 1 timestamp (4, 1, 8) = fileHeader timestamp := by
  simp [TransactionLogFile.headerBytes, fileHeader, writeUint32BE, writeDoubleBE, List.take_of_length_le]

/-- A successful `open` of an empty file writes its header. -/
theorem open_empty {f : TransactionLogFile} {disk : Option Bytes} {timestamp : Binary64} {io : OpenCalls}
    (hio : io.Succeeds) (hclosed : f.isOpen = false) (hv : f.version = 1) (hempty : disk.getD [] = []) :
    f.open disk timestamp io = (none, { f with
      isOpen := true, hasAppendedSinceOpen := false, fileLastWriteTime := io.now, timestamp := timestamp
      size := TRANSACTION_LOG_FILE_HEADER_SIZE }, some (fileHeader timestamp)) := by
  obtain ⟨ho, hs, -, hh⟩ := hio
  simp only [TransactionLogFile.open, TransactionLogFile.openFile, hclosed, ho, hs, Bool.not_true, Bool.false_eq_true,
    if_false, hempty, List.length_nil, Nat.zero_mod, TransactionLogFile.readHeader, Option.getD_some, if_true, hv, hh,
    headerBytes_eq, List.nil_append]

/-- A successful `open` of a file with a valid header finds what is there. -/
theorem open_headed {f : TransactionLogFile} {bytes : Bytes} {latest : Binary64} {io : OpenCalls} {timestamp : Binary64}
    {rest : Bytes} (hio : io.Succeeds) (hclosed : f.isOpen = false) (hb : bytes = fileHeader timestamp ++ rest)
    (hlt : bytes.length < UINT32_RANGE) :
    f.open (some bytes) latest io = (none, { f with
      isOpen := true, hasAppendedSinceOpen := false, fileLastWriteTime := io.mtime.getD io.now, version := 1
      timestamp := timestamp, size := bytes.length }, some bytes) := by
  obtain ⟨ho, hs, hr, -⟩ := hio
  have hlen : bytes.length = TRANSACTION_LOG_FILE_HEADER_SIZE + rest.length := by
    rw [hb, List.length_append, fileHeader_length]
  have h13 : TRANSACTION_LOG_FILE_HEADER_SIZE = 13 := rfl
  have hne : bytes.length ≠ 0 := by omega
  have hge : ¬ bytes.length < TRANSACTION_LOG_FILE_HEADER_SIZE := by omega
  have htoken : readUint32BE bytes 0 = TRANSACTION_LOG_TOKEN := by rw [hb, header_token]
  have hversion : readUint8 bytes 4 = 1 := by rw [hb, header_version]
  have htime : readDoubleBE bytes TRANSACTION_LOG_FILE_TIMESTAMP_POSITION = timestamp := by rw [hb, header_timestamp]
  simp only [TransactionLogFile.open, TransactionLogFile.openFile, hclosed, ho, hs, hr, Bool.not_true,
    Bool.false_eq_true,
    if_false, Option.getD_some, Nat.mod_eq_of_lt hlt, TransactionLogFile.readHeader, hne, hge, htoken, hversion, htime,
    ne_eq, not_true_eq_false]

/-- What opening the current file comes to when every call succeeds. -/
structure CurrentOpened (s : TransactionLogStore) (d : Disk) (f : TransactionLogFile) (io : OpenCalls)
    (s' : TransactionLogStore) (d' : Disk) (f' : TransactionLogFile) : Prop where
  log : LogOk s' d'
  bounded : Bounded s' d'
  store : ∃ files, s' = { s with sequenceFiles := files }
  file : s'.sequenceFiles.get? s.currentSequenceNumber = some f'
  isOpen : f'.isOpen = true
  content : d'.content = d.content
  bytes_ne : ∀ q, q ≠ s.currentSequenceNumber → d'.logs.get? q = d.logs.get? q
  bytes : (d.bytes s.currentSequenceNumber = [] ∧
      d'.bytes s.currentSequenceNumber = fileHeader s.latestTimestamp ∧ f'.fileLastWriteTime = io.now) ∨
    (d'.bytes s.currentSequenceNumber = d.bytes s.currentSequenceNumber ∧ d.bytes s.currentSequenceNumber ≠ [] ∧
      (f.isOpen = true → f' = f) ∧ (f.isOpen = false → f'.fileLastWriteTime = io.mtime.getD io.now))

/-- A new object for the current file, right about the bytes it now has. -/
theorem LogOk.replaceCurrent {s : TransactionLogStore} {d : Disk} (h : LogOk s d) {f : TransactionLogFile}
    {bytes : Bytes} {timestamp : Binary64} {rs : List LogRecord} (dir : Bool)
    (hw : WholeFile bytes timestamp rs) (hv : f.version = 1) (hopen : f.isOpen = true)
    (hsize : f.size = bytes.length % UINT32_RANGE) :
    LogOk (s.setFile s.currentSequenceNumber f)
      { d with logs := d.logs.set s.currentSequenceNumber bytes, directory := dir } := by
  have hne : bytes ≠ [] := by
    intro hnil
    have hlen := hw.length
    rw [hnil, List.length_nil, TRANSACTION_LOG_FILE_HEADER_SIZE] at hlen
    omega
  refine ⟨?_, ?_, ?_, ?_, ?_, ?_, h.current_lt⟩
  · intro q b hb
    simp only [SeqMap.get?_set] at hb
    split_ifs at hb with hq
    · obtain rfl := Option.some.inj hb
      exact Or.inr ⟨timestamp, rs, hw⟩
    · exact h.whole hb
  · intro q g hg
    simp only [setFile, SeqMap.get?_set] at hg
    split_ifs at hg with hq
    · obtain rfl := Option.some.inj hg
      exact hv
    · exact h.version hg
  · intro q g hg ho
    rw [Disk.bytes_set]
    simp only [setFile, SeqMap.get?_set] at hg
    split_ifs at hg ⊢ with hq
    · obtain rfl := Option.some.inj hg
      exact ⟨hsize, hne⟩
    · exact h.size_open hg ho
  · intro q g hg ho
    simp only [setFile, SeqMap.get?_set] at hg
    split_ifs at hg with hq
    · obtain rfl := Option.some.inj hg
      rw [hopen] at ho
      cases ho
    · exact h.size_closed hg ho
  · intro q g hg
    simp only [setFile, SeqMap.get?_set] at hg
    split_ifs at hg with hq
    · exact hq.le
    · exact h.file_le hg
  · intro q b hb
    simp only [SeqMap.get?_set] at hb
    split_ifs at hb with hq
    · exact hq.le
    · exact h.log_le hb

theorem ensureOpen_current {s : TransactionLogStore} {d : Disk} {f : TransactionLogFile} {io : OpenCalls}
    (h : LogOk s d) (hb : Bounded s d) (hf : s.sequenceFiles.get? s.currentSequenceNumber = some f)
    (hio : io.Succeeds) :
    (s.ensureOpen d s.currentSequenceNumber f io).1 = none ∧
      ∃ f', CurrentOpened s d f io (s.ensureOpen d s.currentSequenceNumber f io).2.1
        (s.ensureOpen d s.currentSequenceNumber f io).2.2 f' := by
  unfold ensureOpen
  by_cases ho : f.isOpen = true
  · simp only [ho, if_true]
    exact ⟨trivial, f, h, hb, ⟨_, rfl⟩, hf, ho, rfl, fun _ _ => rfl, Or.inr ⟨rfl, (h.size_open hf ho).2, fun _ => rfl,
      fun hc => absurd (ho.symm.trans hc) (by decide)⟩⟩
  rw [Bool.not_eq_true] at ho
  simp only [ho, Bool.false_eq_true, if_false, openLogFile]
  have hmax : ∀ q, (d.logs.get? q).isSome → q ≤ s.currentSequenceNumber := by
    intro q hq
    obtain ⟨b, hb⟩ := Option.isSome_iff_exists.mp hq
    exact h.log_le hb
  by_cases hempty : d.bytes s.currentSequenceNumber = []
  · have hv := h.version hf
    rw [open_empty hio ho hv hempty]
    have hlog := h.replaceCurrent true (wholeFile_header s.latestTimestamp) (f := { f with
        isOpen := true, hasAppendedSinceOpen := false, fileLastWriteTime := io.now, timestamp := s.latestTimestamp
        size := TRANSACTION_LOG_FILE_HEADER_SIZE }) hv rfl (by rw [fileHeader_length]; rfl)
    refine ⟨rfl, _, hlog, ?_, ⟨_, rfl⟩, SeqMap.get?_set_self _ _ _, rfl, ?_, ?_, Or.inl ⟨hempty, ?_, rfl⟩⟩
    · change (Disk.bytes _ s.currentSequenceNumber).length < _
      rw [Disk.bytes_set, if_pos rfl, fileHeader_length]
      decide
    · have hc := content_set (fileHeader s.latestTimestamp) [] true hmax
        (show fileRecords (fileHeader s.latestTimestamp) = fileRecords (d.bytes s.currentSequenceNumber) ++ [] by
          rw [hempty, fileRecords_nil, (wholeFile_header s.latestTimestamp).records]; rfl)
      rwa [List.append_nil] at hc
    · exact fun q hq => SeqMap.get?_set_ne _ hq _
    · rw [Disk.bytes_set, if_pos rfl]
  · have hget := Disk.get?_of_bytes hempty
    obtain ⟨timestamp, rs, hw⟩ := (h.whole hget).resolve_left hempty
    rw [hget, open_headed hio ho hw.eq hb]
    have hlog := h.replaceCurrent true hw (f := { f with
        isOpen := true, hasAppendedSinceOpen := false, fileLastWriteTime := io.mtime.getD io.now, version := 1
        timestamp := timestamp, size := (d.bytes s.currentSequenceNumber).length }) rfl rfl (Nat.mod_eq_of_lt hb).symm
    refine ⟨rfl, _, hlog, ?_, ⟨_, rfl⟩, SeqMap.get?_set_self _ _ _, rfl, ?_, ?_, Or.inr ⟨?_, hempty, ?_, fun _ => rfl⟩⟩
    · change (Disk.bytes _ s.currentSequenceNumber).length < _
      rw [Disk.bytes_set, if_pos rfl]
      exact hb
    · have hc := content_set (d.bytes s.currentSequenceNumber) [] true hmax (List.append_nil _).symm
      rwa [List.append_nil] at hc
    · exact fun q hq => SeqMap.get?_set_ne _ hq _
    · rw [Disk.bytes_set, if_pos rfl]
    · intro hopen
      rw [ho] at hopen
      cases hopen

section Packing

/-- The entries are laid out as exact arithmetic would: each time an entry does not fit the
file of `size` bytes behind `total` more, the 32-bit sum does not fit it either. -/
def packsExactly (maxFileSize : ℕ) : ℕ → ℕ → Bool → List TransactionLogEntry → Bool
  | _, _, _, [] => true
  | size, total, first, e :: es =>
    if (TRANSACTION_LOG_FILE_HEADER_SIZE < size ∨ !first) ∧ maxFileSize - size < total + e.size then
      decide (maxFileSize - size < add32 total e.size) &&
        packsExactly maxFileSize TRANSACTION_LOG_FILE_HEADER_SIZE e.size false es
    else packsExactly maxFileSize size (total + e.size) false es

/-- The bytes that entries take in a file. -/
def totalSize (es : List TransactionLogEntry) : ℕ := (es.map TransactionLogEntry.size).sum

variable {maxFileSize size total : ℕ} {first : Bool}

theorem packsExactly_fresh (e : TransactionLogEntry) (es : List TransactionLogEntry) :
    packsExactly maxFileSize TRANSACTION_LOG_FILE_HEADER_SIZE 0 true (e :: es) =
      packsExactly maxFileSize TRANSACTION_LOG_FILE_HEADER_SIZE e.size false es := by
  rw [packsExactly, if_neg (by simp), Nat.zero_add]

theorem add32_eq {a b : ℕ} (h : a + b < UINT32_RANGE) : add32 a b = a + b := Nat.mod_eq_of_lt h

/-- A file at or above the limit takes nothing, so the entries go to a new one. -/
theorem packsExactly_full (hmax : maxFileSize ≤ size) (hsize : TRANSACTION_LOG_FILE_HEADER_SIZE < size)
    (es : List TransactionLogEntry) :
    packsExactly maxFileSize size 0 true es = packsExactly maxFileSize TRANSACTION_LOG_FILE_HEADER_SIZE 0 true es := by
  cases es with
  | nil => rfl
  | cons e es =>
    have hpos : 0 < e.size := by
      simp only [TransactionLogEntry.size, TRANSACTION_LOG_ENTRY_HEADER_SIZE]
      omega
    have hadd : add32 0 e.size = e.size := by
      rw [add32_eq (by rw [Nat.zero_add]; exact e.fits), Nat.zero_add]
    rw [packsExactly, if_pos ⟨Or.inl hsize, by omega⟩, packsExactly_fresh, hadd, decide_eq_true (by omega),
      Bool.true_and]

/-- An entry that fits is let in by the 32-bit test too, and its sum has not wrapped. -/
theorem fits_exactly {e : TransactionLogEntry} (hmax : maxFileSize < UINT32_RANGE) (hfirst : first = true → total = 0)
    (hfit : ¬ ((TRANSACTION_LOG_FILE_HEADER_SIZE < size ∨ !first) ∧ maxFileSize - size < total + e.size)) :
    add32 total e.size = total + e.size ∧
      ¬ ((TRANSACTION_LOG_FILE_HEADER_SIZE < size ∨ !first) ∧ maxFileSize - size < add32 total e.size) := by
  by_cases hc : TRANSACTION_LOG_FILE_HEADER_SIZE < size ∨ !first
  · have hle : total + e.size ≤ maxFileSize - size := not_lt.mp fun hlt => hfit ⟨hc, hlt⟩
    have heq := add32_eq (a := total) (b := e.size) (by omega)
    exact ⟨heq, fun h => by rw [heq] at h; omega⟩
  · obtain rfl : first = true := by
      cases first with
      | true => rfl
      | false => exact absurd (Or.inr rfl) hc
    rw [hfirst rfl]
    exact ⟨add32_eq (by rw [Nat.zero_add]; exact e.fits), fun h => hc h.1⟩

/-- What the fit loop takes of entries that pack exactly: nothing, or what fits, or the one
entry that a file without entries always takes. The rest packs exactly into new files. -/
theorem countFitting_spec (hmax : maxFileSize < UINT32_RANGE) :
    ∀ (es : List TransactionLogEntry) (total : ℕ) (first : Bool), (first = true → total = 0) →
      packsExactly maxFileSize size total first es = true →
      let n := countFitting size (maxFileSize - size) total first es
      packsExactly maxFileSize TRANSACTION_LOG_FILE_HEADER_SIZE 0 true (es.drop n) = true ∧
        (n = 0 ∨ total + totalSize (es.take n) ≤ maxFileSize - size ∨
          (first = true ∧ size ≤ TRANSACTION_LOG_FILE_HEADER_SIZE ∧ n = 1)) := by
  intro es
  induction es with
  | nil => exact fun total first _ _ => ⟨rfl, Or.inl rfl⟩
  | cons e es ih =>
    intro total first hfirst hp
    rw [packsExactly] at hp
    by_cases hno : (TRANSACTION_LOG_FILE_HEADER_SIZE < size ∨ !first) ∧ maxFileSize - size < total + e.size
    · rw [if_pos hno, Bool.and_eq_true, decide_eq_true_eq] at hp
      have hn : countFitting size (maxFileSize - size) total first (e :: es) = 0 := if_pos ⟨hno.1, hp.1⟩
      simp only [hn, List.drop_zero, packsExactly_fresh]
      exact ⟨hp.2, Or.inl trivial⟩
    · rw [if_neg hno] at hp
      have hsum := fits_exactly hmax hfirst hno
      have hn : countFitting size (maxFileSize - size) total first (e :: es) =
          countFitting size (maxFileSize - size) (total + e.size) false es + 1 := by
        rw [countFitting, if_neg hsum.2, hsum.1]
      obtain ⟨hrest, htake⟩ := ih (total + e.size) false (by simp) hp
      simp only [hn, List.drop_succ_cons, List.take_succ_cons]
      refine ⟨hrest, Or.inr ?_⟩
      rcases htake with h0 | hle | ⟨hf, -⟩
      · rw [h0, List.take_zero]
        by_cases hc : TRANSACTION_LOG_FILE_HEADER_SIZE < size ∨ !first
        · left
          have hle : total + e.size ≤ maxFileSize - size := not_lt.mp fun hlt => hno ⟨hc, hlt⟩
          simpa [totalSize] using hle
        · right
          obtain ⟨h1, h2⟩ := not_or.mp hc
          exact ⟨by simpa using h2, not_lt.mp h1, rfl⟩
      · left
        have hcons : totalSize (e :: es.take (countFitting size (maxFileSize - size) (total + e.size) false es)) =
            e.size + totalSize (es.take (countFitting size (maxFileSize - size) (total + e.size) false es)) := by
          simp [totalSize]
        rw [hcons]
        omega
      · cases hf

/-- A file without entries takes the first one. -/
theorem countFitting_ne_zero {es : List TransactionLogEntry} {availableSpace : ℕ}
    (hsize : size ≤ TRANSACTION_LOG_FILE_HEADER_SIZE) (hne : es ≠ []) :
    countFitting size availableSpace 0 true es ≠ 0 := by
  cases es with
  | nil => exact absurd rfl hne
  | cons e es =>
    rw [countFitting, if_neg (fun h => by
      rcases h.1 with h | h
      · omega
      · cases h)]
    exact Nat.succ_ne_zero _

theorem countFitting_le {availableSpace : ℕ} : ∀ (es : List TransactionLogEntry) (total : ℕ) (first : Bool),
    countFitting size availableSpace total first es ≤ es.length := by
  intro es
  induction es with
  | nil => exact fun _ _ => Nat.zero_le _
  | cons e es ih =>
    intro total first
    simp only [countFitting]
    split_ifs
    · exact Nat.zero_le _
    · exact Nat.succ_le_succ (ih _ _)

end Packing

section Records

theorem records_congr {b b' : TransactionLogEntryBatch} (he : b.entries = b'.entries)
    (ht : b.timestamp = b'.timestamp) :
    b.records = b'.records := by
  unfold TransactionLogEntryBatch.records
  have hrec : b.record = b'.record := by
    funext i e
    rw [TransactionLogEntryBatch.record, TransactionLogEntryBatch.record, he, ht]
  rw [hrec, he]

@[simp] theorem records_length (b : TransactionLogEntryBatch) : b.records.length = b.entries.length := by
  simp [TransactionLogEntryBatch.records]

theorem records_fit (b : TransactionLogEntryBatch) : ∀ r ∈ b.records, r.Fits := by
  intro r hr
  obtain ⟨i, hi, rfl⟩ := List.mem_mapIdx.mp hr
  have := (b.entries[i]).fits
  change (b.entries[i]).data.length < UINT32_RANGE
  omega

theorem records_sizes (b : TransactionLogEntryBatch) :
    b.records.map (fun r => r.frame.length) = b.entries.map TransactionLogEntry.size := by
  refine List.ext_getElem (by simp) fun i h1 h2 => ?_
  simp [TransactionLogEntryBatch.records, TransactionLogEntryBatch.record, TransactionLogEntry.size]

theorem frames_length (rs : List LogRecord) : (frames rs).length = (rs.map fun r => r.frame.length).sum := by
  rw [frames, List.length_flatMap]

/-- The bytes of the next `n` entries are what the entries themselves count. -/
theorem nextBytes_length (b : TransactionLogEntryBatch) (n : ℕ) :
    (b.nextBytes n).length = totalSize (b.pending.take n) := by
  rw [TransactionLogEntryBatch.nextBytes, frames_length, TransactionLogEntryBatch.nextRecords, List.map_take,
    List.map_drop,
    records_sizes, totalSize, TransactionLogEntryBatch.pending, List.map_take, List.map_drop]

end Records

end RocksdbJs
