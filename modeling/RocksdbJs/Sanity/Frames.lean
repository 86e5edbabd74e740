import Mathlib.Data.List.GetD
import RocksdbJs.Spec.LogFormat

/-! Frames in a byte string. The fields of a frame are read back at its place whatever
stands before and after it, so a file made of a header and whole frames decodes to the
records it was made of. -/

namespace RocksdbJs

@[simp] theorem LogRecord.frame_length (r : LogRecord) :
    r.frame.length = r.data.length + TRANSACTION_LOG_ENTRY_HEADER_SIZE := by
  simp [LogRecord.frame, writeDoubleBE, writeUint32BE, TRANSACTION_LOG_ENTRY_HEADER_SIZE]
  omega

@[simp] theorem fileHeader_length (timestamp : Binary64) :
    (fileHeader timestamp).length = TRANSACTION_LOG_FILE_HEADER_SIZE := by
  simp [fileHeader, writeDoubleBE, writeUint32BE, TRANSACTION_LOG_FILE_HEADER_SIZE]

/-- An entry of one byte. -/
def oneByteEntry (b : UInt8) : TransactionLogEntry := ⟨[b], show 14 < UINT32_RANGE by decide⟩

/-- The payload's length fits the field that holds it. -/
def LogRecord.Fits (r : LogRecord) : Prop := r.data.length < UINT32_RANGE

theorem readDoubleBE_write (x : Binary64) (pre post : Bytes) :
    readDoubleBE (pre ++ (writeDoubleBE x ++ post)) pre.length = x := by
  have hread : BigEndian.read 8 (pre ++ (writeDoubleBE x ++ post)) pre.length = x.bits.toNat := by
    have h := BigEndian.read_append_right 8 0 pre (writeDoubleBE x ++ post)
    rw [Nat.add_zero] at h
    rw [h, writeDoubleBE, BigEndian.read_write_append x.bits.toNat_lt]
  rw [readDoubleBE, hread]
  simp

theorem readUint32BE_write {n : ℕ} (hn : n < UINT32_RANGE) (pre post : Bytes) :
    readUint32BE (pre ++ (writeUint32BE n ++ post)) pre.length = n := by
  have h := BigEndian.read_append_right 4 0 pre (writeUint32BE n ++ post)
  rw [Nat.add_zero] at h
  rw [readUint32BE, h, writeUint32BE, BigEndian.read_write_append hn]

section
variable (r : LogRecord) (pre post : Bytes)

theorem frame_timestamp : readDoubleBE (pre ++ (r.frame ++ post)) pre.length = r.timestamp := by
  rw [LogRecord.frame, List.append_assoc, List.append_assoc, List.append_assoc]
  exact readDoubleBE_write _ _ _

theorem frame_size (h : r.Fits) : readUint32BE (pre ++ (r.frame ++ post)) (pre.length + 8) = r.data.length := by
  have hsplit : pre ++ (r.frame ++ post) =
      (pre ++ writeDoubleBE r.timestamp) ++ (writeUint32BE r.data.length ++ ([r.flags] ++ r.data ++ post)) := by
    simp [LogRecord.frame]
  have hlen : pre.length + 8 = (pre ++ writeDoubleBE r.timestamp).length := by simp [writeDoubleBE]
  rw [hsplit, hlen]
  exact readUint32BE_write h _ _

theorem frame_flags : readUint8 (pre ++ (r.frame ++ post)) (pre.length + 12) = r.flags := by
  have hsplit : pre ++ (r.frame ++ post) =
      (pre ++ writeDoubleBE r.timestamp ++ writeUint32BE r.data.length) ++ (r.flags :: (r.data ++ post)) := by
    simp [LogRecord.frame]
  have hlen : pre.length + 12 = (pre ++ writeDoubleBE r.timestamp ++ writeUint32BE r.data.length).length := by
    simp [writeDoubleBE, writeUint32BE]
  rw [hsplit, hlen, readUint8, List.getD_append_right _ _ _ _ le_rfl]
  simp

theorem frame_data :
    ((pre ++ (r.frame ++ post)).drop (pre.length + TRANSACTION_LOG_ENTRY_HEADER_SIZE)).take r.data.length =
    r.data := by
  have hsplit : pre ++ (r.frame ++ post) =
      (pre ++ writeDoubleBE r.timestamp ++ writeUint32BE r.data.length ++ [r.flags]) ++ (r.data ++ post) := by
    simp [LogRecord.frame]
  have hlen : pre.length + TRANSACTION_LOG_ENTRY_HEADER_SIZE =
      (pre ++ writeDoubleBE r.timestamp ++ writeUint32BE r.data.length ++ [r.flags]).length := by
    simp [writeDoubleBE, writeUint32BE, TRANSACTION_LOG_ENTRY_HEADER_SIZE]
  rw [hsplit, hlen, List.drop_left, List.take_left]

end

/-- The bytes of a list of records. -/
def frames (rs : List LogRecord) : Bytes := rs.flatMap LogRecord.frame

@[simp] theorem frames_nil : frames [] = [] := rfl

@[simp] theorem frames_cons (r : LogRecord) (rs : List LogRecord) : frames (r :: rs) = r.frame ++ frames rs := by
  simp [frames]

@[simp] theorem frames_append (rs rs' : List LogRecord) : frames (rs ++ rs') = frames rs ++ frames rs' := by
  simp [frames]

/-- The records of the whole frames that `bytes` begins with. -/
def decodeFrames : ℕ → Bytes → List LogRecord
  | 0, _ => []
  | fuel + 1, bytes =>
    if bytes.length < TRANSACTION_LOG_ENTRY_HEADER_SIZE then []
    else
      let length := readUint32BE bytes 8
      if bytes.length < TRANSACTION_LOG_ENTRY_HEADER_SIZE + length then []
      else ⟨readDoubleBE bytes 0, readUint8 bytes 12, (bytes.drop TRANSACTION_LOG_ENTRY_HEADER_SIZE).take length⟩ ::
        decodeFrames fuel (bytes.drop (TRANSACTION_LOG_ENTRY_HEADER_SIZE + length))

/-- The records of a log file. -/
def fileRecords (bytes : Bytes) : List LogRecord :=
  decodeFrames bytes.length (bytes.drop TRANSACTION_LOG_FILE_HEADER_SIZE)

theorem decodeFrames_frame {r : LogRecord} (h : r.Fits) (fuel : ℕ) (post : Bytes) :
    decodeFrames (fuel + 1) (r.frame ++ post) = r :: decodeFrames fuel post := by
  have hsize : readUint32BE (r.frame ++ post) 8 = r.data.length := by simpa using frame_size r [] post h
  have hts : readDoubleBE (r.frame ++ post) 0 = r.timestamp := by simpa using frame_timestamp r [] post
  have hflags : readUint8 (r.frame ++ post) 12 = r.flags := by simpa using frame_flags r [] post
  have hdata : ((r.frame ++ post).drop TRANSACTION_LOG_ENTRY_HEADER_SIZE).take r.data.length = r.data := by
    simpa using frame_data r [] post
  have hlen : (r.frame ++ post).length = TRANSACTION_LOG_ENTRY_HEADER_SIZE + r.data.length + post.length := by
    rw [List.length_append, r.frame_length]
    omega
  have hdrop : (r.frame ++ post).drop (TRANSACTION_LOG_ENTRY_HEADER_SIZE + r.data.length) = post := by
    rw [Nat.add_comm, ← r.frame_length, List.drop_left]
  simp only [decodeFrames, hsize, hts, hflags, hdata, hlen, hdrop]
  rw [if_neg (by omega), if_neg (by omega)]

theorem decodeFrames_frames {rs : List LogRecord} (h : ∀ r ∈ rs, r.Fits) (fuel : ℕ) (hfuel : rs.length ≤ fuel) :
    decodeFrames fuel (frames rs) = rs := by
  induction rs generalizing fuel with
  | nil => cases fuel <;> simp [decodeFrames, TRANSACTION_LOG_ENTRY_HEADER_SIZE]
  | cons r rs ih =>
    cases fuel with
    | zero => simp at hfuel
    | succ fuel =>
      rw [frames_cons, decodeFrames_frame (h r List.mem_cons_self),
        ih (fun r' hr' => h r' (List.mem_cons_of_mem _ hr')) fuel (by simpa using hfuel)]

/-- More bytes at the end leave the records before them. -/
theorem decodeFrames_append {n m : ℕ} (h : n ≤ m) (bytes more : Bytes) :
    decodeFrames n bytes <+: decodeFrames m (bytes ++ more) := by
  induction n generalizing m bytes with
  | zero => exact List.nil_prefix
  | succ n ih =>
    obtain ⟨k, rfl⟩ := Nat.exists_eq_add_of_le' h
    unfold decodeFrames
    by_cases h13 : bytes.length < TRANSACTION_LOG_ENTRY_HEADER_SIZE
    · rw [if_pos h13]
      exact List.nil_prefix
    simp only [TRANSACTION_LOG_ENTRY_HEADER_SIZE, not_lt] at h13
    have hsize : readUint32BE (bytes ++ more) 8 = readUint32BE bytes 8 := BigEndian.read_append_left (by omega) more
    have hts : readDoubleBE (bytes ++ more) 0 = readDoubleBE bytes 0 := by
      rw [readDoubleBE, BigEndian.read_append_left (by omega), readDoubleBE]
    have hflags : readUint8 (bytes ++ more) 12 = readUint8 bytes 12 := List.getD_append _ _ _ _ (by omega)
    rw [if_neg (by simp only [TRANSACTION_LOG_ENTRY_HEADER_SIZE]; omega)]
    dsimp only
    by_cases hfit : bytes.length < TRANSACTION_LOG_ENTRY_HEADER_SIZE + readUint32BE bytes 8
    · rw [if_pos hfit]
      exact List.nil_prefix
    rw [if_neg hfit, if_neg (by simp only [TRANSACTION_LOG_ENTRY_HEADER_SIZE, List.length_append]; omega), hsize, hts,
      hflags,
      if_neg (by simp only [List.length_append, TRANSACTION_LOG_ENTRY_HEADER_SIZE] at hfit ⊢; omega)]
    have hrest : (bytes ++ more).drop (TRANSACTION_LOG_ENTRY_HEADER_SIZE + readUint32BE bytes 8) =
        bytes.drop (TRANSACTION_LOG_ENTRY_HEADER_SIZE + readUint32BE bytes 8) ++ more :=
      List.drop_append_of_le_length (not_lt.mp hfit)
    simp only [TRANSACTION_LOG_ENTRY_HEADER_SIZE, not_lt] at hfit
    have hdata : ((bytes ++ more).drop TRANSACTION_LOG_ENTRY_HEADER_SIZE).take (readUint32BE bytes 8) =
        (bytes.drop TRANSACTION_LOG_ENTRY_HEADER_SIZE).take (readUint32BE bytes 8) := by
      simp only [TRANSACTION_LOG_ENTRY_HEADER_SIZE]
      rw [List.drop_append_of_le_length h13, List.take_append_of_le_length (by rw [List.length_drop]; omega)]
    rw [hdata, hrest, List.prefix_cons_inj]
    exact ih (Nat.le_add_left n k) _

/-- A file of its header at most holds nothing. -/
theorem fileRecords_of_short {bytes : Bytes} (h : bytes.length ≤ TRANSACTION_LOG_FILE_HEADER_SIZE) :
    fileRecords bytes = [] := by
  rw [fileRecords, List.drop_eq_nil_of_le h]
  cases bytes.length <;> rfl

theorem fileRecords_append (bytes more : Bytes) : fileRecords bytes <+: fileRecords (bytes ++ more) := by
  by_cases h13 : bytes.length ≤ TRANSACTION_LOG_FILE_HEADER_SIZE
  · rw [fileRecords_of_short h13]
    exact List.nil_prefix
  · unfold fileRecords
    rw [List.drop_append_of_le_length (not_le.mp h13).le]
    exact decodeFrames_append (by rw [List.length_append]; omega) _ more

theorem frames_length_ge (rs : List LogRecord) : rs.length ≤ (frames rs).length := by
  induction rs with
  | nil => exact le_rfl
  | cons r rs ih =>
    rw [frames_cons, List.length_append, r.frame_length, List.length_cons]
    simp only [TRANSACTION_LOG_ENTRY_HEADER_SIZE]
    omega

/-- A header with a valid token and version, then whole frames. -/
structure WholeFile (bytes : Bytes) (timestamp : Binary64) (rs : List LogRecord) : Prop where
  eq : bytes = fileHeader timestamp ++ frames rs
  fits : ∀ r ∈ rs, r.Fits

theorem WholeFile.records {bytes : Bytes} {timestamp : Binary64} {rs : List LogRecord}
    (h : WholeFile bytes timestamp rs) :
    fileRecords bytes = rs := by
  have hdrop : bytes.drop TRANSACTION_LOG_FILE_HEADER_SIZE = frames rs := by
    rw [h.eq, ← fileHeader_length timestamp, List.drop_left]
  rw [fileRecords, hdrop]
  refine decodeFrames_frames h.fits _ ?_
  rw [h.eq, List.length_append]
  exact (frames_length_ge rs).trans (Nat.le_add_left _ _)

theorem WholeFile.length {bytes : Bytes} {timestamp : Binary64} {rs : List LogRecord}
    (h : WholeFile bytes timestamp rs) :
    bytes.length = TRANSACTION_LOG_FILE_HEADER_SIZE + (frames rs).length := by
  rw [h.eq, List.length_append, fileHeader_length]

theorem WholeFile.append {bytes : Bytes} {timestamp : Binary64} {rs rs' : List LogRecord}
    (h : WholeFile bytes timestamp rs) (hfits : ∀ r ∈ rs', r.Fits) :
    WholeFile (bytes ++ frames rs') timestamp (rs ++ rs') := by
  refine ⟨by rw [h.eq, frames_append, List.append_assoc], fun r hr => ?_⟩
  rcases List.mem_append.mp hr with hr | hr
  · exact h.fits r hr
  · exact hfits r hr

theorem wholeFile_header (timestamp : Binary64) : WholeFile (fileHeader timestamp) timestamp [] :=
  ⟨by simp, fun _ h => by cases h⟩

section
variable (timestamp : Binary64) (rest : Bytes)

theorem header_token : readUint32BE (fileHeader timestamp ++ rest) 0 = TRANSACTION_LOG_TOKEN := by
  rw [fileHeader, List.append_assoc, List.append_assoc]
  exact readUint32BE_write (by decide) [] _

theorem header_version : readUint8 (fileHeader timestamp ++ rest) 4 = 1 := by
  have hlen : (writeUint32BE TRANSACTION_LOG_TOKEN).length = 4 := by simp [writeUint32BE]
  rw [fileHeader, List.append_assoc, List.append_assoc, readUint8, List.getD_append_right _ _ _ _ hlen.le, hlen]
  rfl

theorem header_timestamp :
    readDoubleBE (fileHeader timestamp ++ rest) TRANSACTION_LOG_FILE_TIMESTAMP_POSITION = timestamp := by
  have hlen : (writeUint32BE TRANSACTION_LOG_TOKEN ++ [1]).length = TRANSACTION_LOG_FILE_TIMESTAMP_POSITION := by
    simp [writeUint32BE, TRANSACTION_LOG_FILE_TIMESTAMP_POSITION]
  rw [fileHeader, List.append_assoc, ← hlen]
  exact readDoubleBE_write _ _ _

end

end RocksdbJs
