import RocksdbJs.Spec.LogParse
import RocksdbJs.Spec.LogReader
import RocksdbJs.Sanity.Recovery

/-! The walkers of a log image. What `parseTransactionLog` accepts is a header, whole frames with
timestamps, and padding that begins with a zero timestamp; each of the other walkers is
described on such an image. -/

namespace RocksdbJs

/-- Nothing, or bytes that begin with a zero timestamp. -/
def Padding (tail : Bytes) : Prop := tail = [] ∨ 8 ≤ tail.length ∧ (readDoubleBE tail 0).isZero = true

/-- A header, the frames of `rs`, and padding. -/
structure Image (bytes : Bytes) (timestamp : Binary64) (rs : List LogRecord) (tail : Bytes) : Prop where
  eq : bytes = fileHeader timestamp ++ (frames rs ++ tail)
  fits : ∀ r ∈ rs, r.Fits
  stamped : ∀ r ∈ rs, r.timestamp.isZero = false
  padding : Padding tail

/-- The record whose frame begins at `pos`. -/
def recordAt (bytes : Bytes) (pos : ℕ) : LogRecord :=
  ⟨readDoubleBE bytes pos, readUint8 bytes (pos + 12),
    (bytes.drop (pos + TRANSACTION_LOG_ENTRY_HEADER_SIZE)).take (readUint32BE bytes (pos + 8))⟩

section Bytes
variable {bytes : Bytes} {pos : ℕ}

theorem readDoubleBE_append (pre post : Bytes) : readDoubleBE (pre ++ post) pre.length = readDoubleBE post 0 := by
  have := BigEndian.read_append_right 8 0 pre post
  rw [Nat.add_zero] at this
  rw [readDoubleBE, this, readDoubleBE]

theorem readUint32BE_lt (bytes : Bytes) (pos : ℕ) : readUint32BE bytes pos < UINT32_RANGE := by
  have hlt := BigEndian.value_lt ((bytes.drop pos).take 4)
  have hle : 256 ^ ((bytes.drop pos).take 4).length ≤ 256 ^ 4 :=
    Nat.pow_le_pow_right (by decide) (List.length_take_le _ _)
  exact hlt.trans_le hle

theorem writeUint32BE_read (bytes : Bytes) (pos : ℕ) (h : pos + 4 ≤ bytes.length) :
    writeUint32BE (readUint32BE bytes pos) = (bytes.drop pos).take 4 := by
  have hlen : ((bytes.drop pos).take 4).length = 4 := by
    rw [List.length_take, List.length_drop]
    omega
  have := BigEndian.write_value ((bytes.drop pos).take 4)
  rwa [hlen] at this

theorem writeDoubleBE_read (bytes : Bytes) (pos : ℕ) (h : pos + 8 ≤ bytes.length) :
    writeDoubleBE (readDoubleBE bytes pos) = (bytes.drop pos).take 8 := by
  have hlen : ((bytes.drop pos).take 8).length = 8 := by
    rw [List.length_take, List.length_drop]
    omega
  have hlt : BigEndian.read 8 bytes pos < 2 ^ 64 := by
    have := BigEndian.value_lt ((bytes.drop pos).take 8)
    rw [hlen] at this
    exact this
  have hbits : (readDoubleBE bytes pos).bits.toNat = BigEndian.read 8 bytes pos := by
    change (UInt64.ofNat _).toNat = _
    rw [UInt64.toNat_ofNat', Nat.mod_eq_of_lt hlt]
  have := BigEndian.write_value ((bytes.drop pos).take 8)
  rw [hlen] at this
  rw [writeDoubleBE, hbits]
  exact this

theorem drop_readUint8 (bytes : Bytes) (pos : ℕ) (h : pos < bytes.length) :
    bytes.drop pos = readUint8 bytes pos :: bytes.drop (pos + 1) := by
  rw [List.drop_eq_getElem_cons h, readUint8, List.getD_eq_getElem _ _ h]

theorem drop_split (bytes : Bytes) (pos k : ℕ) : bytes.drop pos = (bytes.drop pos).take k ++ bytes.drop (pos + k) := by
  rw [← List.drop_drop, List.take_append_drop]

/-- The bytes at `pos` are the frame of the record read there. -/
theorem drop_recordAt (h : pos + TRANSACTION_LOG_ENTRY_HEADER_SIZE + readUint32BE bytes (pos + 8) ≤ bytes.length) :
    bytes.drop pos = (recordAt bytes pos).frame ++
      bytes.drop (pos + TRANSACTION_LOG_ENTRY_HEADER_SIZE + readUint32BE bytes (pos + 8)) := by
  have hthirteen : TRANSACTION_LOG_ENTRY_HEADER_SIZE = 13 := rfl
  have hlen : (recordAt bytes pos).data.length = readUint32BE bytes (pos + 8) := by
    change (List.take _ _).length = _
    rw [List.length_take, List.length_drop]
    omega
  have hts := writeDoubleBE_read bytes pos (by omega)
  have hsize := writeUint32BE_read bytes (pos + 8) (by omega)
  have hflags := drop_readUint8 bytes (pos + 12) (by omega)
  rw [LogRecord.frame, hlen, hsize]
  change bytes.drop pos = writeDoubleBE (readDoubleBE bytes pos) ++ _ ++ [readUint8 bytes (pos + 12)] ++ _ ++ _
  rw [hts]
  calc bytes.drop pos = (bytes.drop pos).take 8 ++ bytes.drop (pos + 8) := drop_split bytes pos 8
    _ = (bytes.drop pos).take 8 ++ ((bytes.drop (pos + 8)).take 4 ++ bytes.drop (pos + 12)) := by
        rw [← drop_split bytes (pos + 8) 4]
    _ = (bytes.drop pos).take 8 ++ ((bytes.drop (pos + 8)).take 4 ++ (readUint8 bytes (pos + 12) ::
          ((bytes.drop (pos + 13)).take (readUint32BE bytes (pos + 8)) ++
            bytes.drop (pos + 13 + readUint32BE bytes (pos + 8))))) := by
        rw [hflags, ← drop_split bytes (pos + 13)]
    _ = _ := by
        simp [recordAt, hthirteen]

end Bytes

section Parse

/-- The entry that the parser makes of a record. -/
def LogRecord.parsed (skipData : Bool) (r : LogRecord) : LogEntry :=
  { timestamp := r.timestamp
    length := r.data.length
    flags := r.flags
    data := if skipData then none else some r.data
    anomalies := timestampAnomalies r.timestamp ++ flagsAnomalies r.flags }

variable {skipData : Bool} {tail : Bytes}

theorem parseEntry_frame {r : LogRecord} (h : r.Fits) (pre post : Bytes) :
    parseEntry skipData (pre ++ (r.frame ++ post)) pre.length = r.parsed skipData := by
  have hts := frame_timestamp r pre post
  have hsize := frame_size r pre post h
  have hflags := frame_flags r pre post
  have hdata := frame_data r pre post
  simp only [parseEntry, LogRecord.parsed, hts, hsize, hflags, hdata]

/-- The parser walks the frames and stops at the padding. -/
theorem parseEntries_image (skipData : Bool) (rs : List LogRecord) (pre : Bytes) (fuel : ℕ) (hfits : ∀ r ∈ rs, r.Fits)
    (hstamped : ∀ r ∈ rs, r.timestamp.isZero = false) (hpad : Padding tail) (hfuel : rs.length < fuel) :
    parseEntries skipData (pre ++ (frames rs ++ tail)) fuel pre.length =
      .ok (rs.map (LogRecord.parsed skipData), pre.length + (frames rs).length) := by
  induction rs generalizing pre fuel with
  | nil =>
    obtain ⟨fuel, rfl⟩ : ∃ n, fuel = n + 1 := ⟨fuel - 1, by simp at hfuel; omega⟩
    rw [frames_nil, List.nil_append, parseEntries]
    rcases hpad with rfl | ⟨hlen, hzero⟩
    · simp
    · simp only [readDoubleBE_append, hzero, List.length_append, if_true]
      rw [if_neg (by omega), if_neg (by omega)]
      rfl
  | cons r rs ih =>
    obtain ⟨fuel, rfl⟩ : ∃ n, fuel = n + 1 := ⟨fuel - 1, by simp at hfuel; omega⟩
    have hr := hfits r List.mem_cons_self
    have hts := frame_timestamp r pre (frames rs ++ tail)
    have hsize := frame_size r pre (frames rs ++ tail) hr
    have hthirteen : TRANSACTION_LOG_ENTRY_HEADER_SIZE = 13 := rfl
    have hlen : (pre ++ (r.frame ++ (frames rs ++ tail))).length = pre.length + 13 + r.data.length +
        (frames rs ++ tail).length := by
      rw [List.length_append, List.length_append, r.frame_length]
      omega
    have hnext := ih (pre ++ r.frame) fuel (fun r' hr' => hfits r' (List.mem_cons_of_mem _ hr'))
      (fun r' hr' => hstamped r' (List.mem_cons_of_mem _ hr')) (by simpa using hfuel)
    rw [List.append_assoc, List.length_append, r.frame_length] at hnext
    rw [frames_cons, List.append_assoc, parseEntries]
    simp only [hts, hstamped r List.mem_cons_self, hsize, Bool.false_eq_true, if_false, hlen, hthirteen]
    rw [if_neg (by omega), if_neg (by omega), if_neg (by omega), if_neg (by omega), if_neg (by omega),
      parseEntry_frame hr,
      show pre.length + 13 + r.data.length = pre.length + (r.data.length + TRANSACTION_LOG_ENTRY_HEADER_SIZE) from by
        omega,
      hnext, List.length_append, r.frame_length]
    simp only [Except.map, List.map_cons, Nat.add_assoc]

/-- What the parser has walked over is frames and padding. -/
theorem parseEntries_ok {bytes : Bytes} {fuel pos : ℕ} {es : List LogEntry} {size : ℕ} (hpos : pos ≤ bytes.length)
    (hfuel : bytes.length < pos + fuel) (h : parseEntries skipData bytes fuel pos = .ok (es, size)) :
    ∃ rs tail, bytes.drop pos = frames rs ++ tail ∧ (∀ r ∈ rs, r.Fits) ∧ (∀ r ∈ rs, r.timestamp.isZero = false) ∧
      Padding tail := by
  induction fuel generalizing pos es size with
  | zero => omega
  | succ fuel ih =>
    have hthirteen : TRANSACTION_LOG_ENTRY_HEADER_SIZE = 13 := rfl
    simp only [parseEntries] at h
    split_ifs at h with hend hshort hzero h12 h13 hlong
    · refine ⟨[], [], ?_, nofun, nofun, Or.inl rfl⟩
      rw [List.drop_eq_nil_of_le hend]
      rfl
    · refine ⟨[], bytes.drop pos, rfl, nofun, nofun, Or.inr ⟨?_, ?_⟩⟩
      · rw [List.length_drop]
        omega
      · rw [readDoubleBE, BigEndian.read, List.drop_drop]
        exact hzero
    · cases hrest : parseEntries skipData bytes fuel (pos + TRANSACTION_LOG_ENTRY_HEADER_SIZE +
        readUint32BE bytes (pos + 8)) with
      | error e =>
        rw [hrest] at h
        cases h
      | ok r =>
        obtain ⟨es', size'⟩ := r
        have hfit : pos + TRANSACTION_LOG_ENTRY_HEADER_SIZE + readUint32BE bytes (pos + 8) ≤ bytes.length := by omega
        obtain ⟨rs, tail, hdrop, hfits, hstamped, hpad⟩ := ih hfit (by omega) hrest
        have hframe := drop_recordAt hfit
        refine ⟨recordAt bytes pos :: rs, tail, ?_, ?_, ?_, hpad⟩
        · rw [hframe, hdrop, frames_cons, List.append_assoc]
        · intro r hr
          rcases List.mem_cons.mp hr with rfl | hr
          · exact (List.length_take_le _ _).trans_lt (readUint32BE_lt _ _)
          · exact hfits r hr
        · intro r hr
          rcases List.mem_cons.mp hr with rfl | hr
          · exact Bool.eq_false_of_not_eq_true hzero
          · exact hstamped r hr

/-- What the parser makes of an image. -/
def parsedLog (skipData : Bool) (timestamp : Binary64) (rs : List LogRecord) : ParsedLog :=
  { anomalies := timestampAnomalies timestamp
    entries := rs.map (LogRecord.parsed skipData)
    entryAnomalyCount := ((rs.map (LogRecord.parsed skipData)).map fun e => e.anomalies.length).sum
    timestamp
    size := TRANSACTION_LOG_FILE_HEADER_SIZE + (frames rs).length
    version := 1 }

theorem Image.parse {bytes : Bytes} {timestamp : Binary64} {rs : List LogRecord} (h : Image bytes timestamp rs tail) :
    parseTransactionLog (some bytes) skipData = .ok (parsedLog skipData timestamp rs) := by
  have hlen : bytes.length = 13 + (frames rs ++ tail).length := by
    rw [h.eq, List.length_append, fileHeader_length]
    rfl
  have htoken := header_token timestamp (frames rs ++ tail)
  have hversion := header_version timestamp (frames rs ++ tail)
  have htime := header_timestamp timestamp (frames rs ++ tail)
  rw [← h.eq] at htoken hversion htime
  have hentries := parseEntries_image skipData rs (fileHeader timestamp) (bytes.length + 1) h.fits h.stamped
    h.padding (by have := frames_length_ge rs; rw [hlen, List.length_append]; omega)
  rw [fileHeader_length, ← h.eq] at hentries
  have hfive : TRANSACTION_LOG_FILE_TIMESTAMP_POSITION = 5 := rfl
  have hthirteen : TRANSACTION_LOG_FILE_HEADER_SIZE = 13 := rfl
  simp only [parseTransactionLog, htoken, hversion, htime, ne_eq, not_true_eq_false, if_false, hentries]
  rw [if_neg (by omega), if_neg (by omega), if_neg (by omega), if_neg (by omega)]
  rfl

/-- What the parser accepts is an image. -/
theorem parse_ok {bytes : Bytes} {log : ParsedLog} (h : parseTransactionLog (some bytes) skipData = .ok log) :
    ∃ timestamp rs tail, Image bytes timestamp rs tail := by
  have hfive : TRANSACTION_LOG_FILE_TIMESTAMP_POSITION = 5 := rfl
  have hthirteen : TRANSACTION_LOG_FILE_HEADER_SIZE = 13 := rfl
  simp only [parseTransactionLog] at h
  split_ifs at h with h0 h4 htoken h5 hversion h13
  rw [not_not] at htoken hversion
  cases hentries : parseEntries skipData bytes (bytes.length + 1) TRANSACTION_LOG_FILE_HEADER_SIZE with
  | error e =>
    rw [hentries] at h
    cases h
  | ok r =>
    obtain ⟨es, size⟩ := r
    obtain ⟨rs, tail, hdrop, hfits, hstamped, hpad⟩ := parseEntries_ok (by omega) (by omega) hentries
    refine ⟨readDoubleBE bytes 5, rs, tail, ?_, hfits, hstamped, hpad⟩
    have hhead := writeUint32BE_read bytes 0 (by omega)
    have htime := writeDoubleBE_read bytes 5 (by omega)
    have hver := drop_readUint8 bytes 4 (by omega)
    rw [fileHeader, ← htoken, hhead, htime, ← hversion, ← hdrop]
    calc bytes = (bytes.drop 0).take 4 ++ bytes.drop 4 := drop_split bytes 0 4
      _ = (bytes.drop 0).take 4 ++ (readUint8 bytes 4 :: ((bytes.drop 5).take 8 ++ bytes.drop 13)) := by
          rw [hver, ← drop_split bytes 5 8]
      _ = _ := by
          rw [hthirteen]
          simp

end Parse

section Scan

variable {tail : Bytes}

/-- The end of the frame at `pos`, in a file below 4 GiB. -/
theorem frameEnd_frame {r : LogRecord} {pre post : Bytes} (h : r.Fits)
    (hlen : (pre ++ (r.frame ++ post)).length < UINT32_RANGE) :
    frameEnd (pre ++ (r.frame ++ post)) pre.length = (pre ++ r.frame).length := by
  rw [List.length_append, List.length_append, r.frame_length] at hlen
  rw [frameEnd, frame_size r pre post h, List.length_append, r.frame_length, add32, add32, Nat.mod_eq_of_lt,
    Nat.mod_eq_of_lt]
  · omega
  · omega
  · rw [Nat.mod_eq_of_lt] <;> omega

/-- The count stops at the first record without payload. -/
theorem countLoop_image (rs : List LogRecord) (pre : Bytes) (fuel : ℕ) (hfits : ∀ r ∈ rs, r.Fits)
    (hstamped : ∀ r ∈ rs, r.timestamp.isZero = false) (hpad : Padding tail) (hfuel : rs.length < fuel)
    (hlen : (pre ++ (frames rs ++ tail)).length < UINT32_RANGE) :
    countLoop (pre ++ (frames rs ++ tail)) (pre ++ (frames rs ++ tail)).length fuel pre.length =
      (rs.takeWhile fun r => !r.data.isEmpty).length := by
  induction rs generalizing pre fuel with
  | nil =>
    obtain ⟨fuel, rfl⟩ : ∃ n, fuel = n + 1 := ⟨fuel - 1, by simp at hfuel; omega⟩
    rw [frames_nil, List.nil_append, countLoop]
    split_ifs with hfit hzero
    · rfl
    · rcases hpad with rfl | ⟨-, hz⟩
      · rw [List.append_nil, TRANSACTION_LOG_ENTRY_HEADER_SIZE] at hfit
        omega
      · rw [readDoubleBE_append] at hzero
        exact absurd hz hzero
    · rfl
  | cons r rs ih =>
    obtain ⟨fuel, rfl⟩ : ∃ n, fuel = n + 1 := ⟨fuel - 1, by simp at hfuel; omega⟩
    have hr := hfits r List.mem_cons_self
    have hts := frame_timestamp r pre (frames rs ++ tail)
    have hsize := frame_size r pre (frames rs ++ tail) hr
    rw [frames_cons, List.append_assoc] at hlen ⊢
    have hend := frameEnd_frame hr hlen
    have hlen' : (pre ++ (r.frame ++ (frames rs ++ tail))).length =
        pre.length + TRANSACTION_LOG_ENTRY_HEADER_SIZE + r.data.length + (frames rs ++ tail).length := by
      rw [List.length_append, List.length_append, r.frame_length]
      omega
    have hnext := ih (pre ++ r.frame) fuel (fun r' hr' => hfits r' (List.mem_cons_of_mem _ hr'))
      (fun r' hr' => hstamped r' (List.mem_cons_of_mem _ hr')) (by simpa using hfuel)
        (by rw [List.append_assoc]; exact hlen)
    rw [List.append_assoc] at hnext
    rw [countLoop]
    simp only [hts, hsize, hstamped r List.mem_cons_self, Bool.false_eq_true, if_false, hend]
    rw [if_pos (by omega)]
    cases hd : r.data with
    | nil => simp [hd]
    | cons b bs =>
      rw [hd] at hlen'
      rw [if_neg (by simp only [List.length_cons] at hlen' ⊢; omega), hnext]
      simp [hd]

theorem Image.count {bytes : Bytes} {timestamp : Binary64} {rs : List LogRecord} (h : Image bytes timestamp rs tail)
    (hlen : bytes.length < UINT32_RANGE) :
    countTransactionLogEntries bytes bytes.length = (rs.takeWhile fun r => !r.data.isEmpty).length := by
  have hbytes : bytes.length = TRANSACTION_LOG_FILE_HEADER_SIZE + (frames rs ++ tail).length := by
    rw [h.eq, List.length_append, fileHeader_length]
  have hge := frames_length_ge rs
  have hfuel : rs.length < bytes.length + 1 := by
    rw [hbytes, List.length_append]
    omega
  have hloop := countLoop_image rs (fileHeader timestamp) (bytes.length + 1) h.fits h.stamped h.padding hfuel
    (by rw [← h.eq]; exact hlen)
  rw [fileHeader_length, ← h.eq] at hloop
  unfold countTransactionLogEntries
  split_ifs with hsmall
  · rw [hbytes, List.length_append] at hsmall
    obtain rfl := List.length_eq_zero_iff.mp (show rs.length = 0 by omega)
    rfl
  · exact hloop

/-- The scan of an image whose records all have a payload. -/
theorem Image.scan {bytes : Bytes} {timestamp : Binary64} {rs : List LogRecord} (h : Image bytes timestamp rs tail)
    (hlen : bytes.length < UINT32_RANGE) (hpay : ∀ r ∈ rs, r.data ≠ []) :
    scanTransactionLogForRecovery bytes bytes.length =
      ⟨if tail = [] ∨ TRANSACTION_LOG_ENTRY_HEADER_SIZE ≤ tail.length then .clean else .truncateTail,
        TRANSACTION_LOG_FILE_HEADER_SIZE + (frames rs).length⟩ := by
  have hrs : ∀ r ∈ rs, r.Scannable := fun r hr => ⟨h.fits r hr, hpay r hr, h.stamped r hr⟩
  have heq : bytes = fileHeader timestamp ++ frames rs ++ tail := by rw [h.eq, List.append_assoc]
  have hbytes : bytes.length = TRANSACTION_LOG_FILE_HEADER_SIZE + (frames rs).length + tail.length := by
    rw [heq, List.length_append, List.length_append, fileHeader_length]
  have hge := frames_length_ge rs
  unfold scanTransactionLogForRecovery
  split_ifs with hsmall htail htail
  · rw [show bytes.length = TRANSACTION_LOG_FILE_HEADER_SIZE + (frames rs).length by omega]
  · exact absurd (Or.inl (List.length_eq_zero_iff.mp (by omega))) htail
  all_goals
    obtain ⟨fuel, hfuel⟩ : ∃ fuel, bytes.length + 1 = rs.length + (fuel + 1) := ⟨bytes.length - rs.length, by omega⟩
    have hloop := scanLoop_frames tail rs (fileHeader timestamp) (fuel + 1) hrs (by rw [← heq]; exact hlen)
    rw [fileHeader_length, ← heq, List.length_append, fileHeader_length] at hloop
    rw [hfuel, hloop, scanLoop]
  · rcases htail with rfl | hlong
    · rw [List.length_nil, Nat.add_zero] at hbytes
      rw [if_pos hbytes.symm, hbytes]
    · have hne : tail ≠ [] := by
        rintro rfl
        simp [TRANSACTION_LOG_ENTRY_HEADER_SIZE] at hlong
      have hpos := List.length_pos_iff.mpr hne
      have hread := readDoubleBE_append (fileHeader timestamp ++ frames rs) tail
      rw [← heq, List.length_append, fileHeader_length] at hread
      rw [if_neg (by omega), if_neg (by omega), hread, if_pos (h.padding.resolve_left hne).2]
  · obtain ⟨hne, hshort⟩ := not_or.mp htail
    have hpos := List.length_pos_iff.mpr hne
    rw [if_neg (by omega), if_pos (by omega)]

end Scan

end RocksdbJs
