import RocksdbJs.Sanity.Recovery

/-! The verdict of the recovery scan on an arbitrary image. A chain of frames is a relation on
the bytes alone, with sums that cannot wrap; the scan follows the one chain that starts after
the file header to its end and decides there. -/

namespace RocksdbJs

/-- A complete frame with a timestamp and a payload begins at `pos`. -/
structure FrameAt (data : Bytes) (pos : ℕ) : Prop where
  header : pos + TRANSACTION_LOG_ENTRY_HEADER_SIZE ≤ data.length
  timestamp : (readDoubleBE data pos).isZero = false
  payload : readUint32BE data (pos + 8) ≠ 0
  fits : pos + TRANSACTION_LOG_ENTRY_HEADER_SIZE + readUint32BE data (pos + 8) ≤ data.length

/-- A chain of `n` frames leads from one offset to another. -/
inductive Chain (data : Bytes) : ℕ → ℕ → ℕ → Prop
  | nil (pos : ℕ) : Chain data pos 0 pos
  | cons {pos n stop : ℕ} (frame : FrameAt data pos)
      (rest : Chain data (pos + TRANSACTION_LOG_ENTRY_HEADER_SIZE + readUint32BE data (pos + 8)) n stop) :
      Chain data pos (n + 1) stop

/-- The end of the longest chain of frames after the file header. -/
def ChainEnd (data : Bytes) (stop : ℕ) : Prop :=
  (∃ n, Chain data TRANSACTION_LOG_FILE_HEADER_SIZE n stop) ∧ ¬ FrameAt data stop

/-- A chain that starts at `start` ends the image, or is long enough to count by itself. -/
def Resumes (data : Bytes) (start : ℕ) : Prop :=
  ∃ n stop, 0 < n ∧ Chain data start n stop ∧ (stop = data.length ∨ RESYNC_MIN_FRAMES ≤ n)

section
variable {data : Bytes} {pos n stop : ℕ}

theorem frameFits_iff : frameFits data pos data.length = true ↔ FrameAt data pos := by
  unfold frameFits
  dsimp only
  constructor
  · intro h
    split_ifs at h with h1 h2 h3
    exact ⟨not_lt.mp h1, Bool.not_eq_true _ ▸ h2, h3, of_decide_eq_true h⟩
  · intro h
    rw [if_neg (not_lt.mpr h.header), if_neg (by rw [h.timestamp]; exact Bool.false_ne_true), if_neg h.payload]
    exact decide_eq_true h.fits

theorem frameEnd_of_frameAt (hlen : data.length < UINT32_RANGE) (h : FrameAt data pos) :
    frameEnd data pos = pos + TRANSACTION_LOG_ENTRY_HEADER_SIZE + readUint32BE data (pos + 8) := by
  have hfits := h.fits
  rw [frameEnd, add32, add32, Nat.mod_eq_of_lt (a := TRANSACTION_LOG_ENTRY_HEADER_SIZE + _) (by omega), ← Nat.add_assoc,
    Nat.mod_eq_of_lt (by omega)]

theorem Chain.le (h : Chain data pos n stop) : pos + n ≤ stop := by
  induction h with
  | nil pos => exact le_rfl
  | cons frame rest ih =>
    simp only [TRANSACTION_LOG_ENTRY_HEADER_SIZE] at ih
    omega

theorem Chain.stop_le (h : Chain data pos n stop) (hpos : pos ≤ data.length) : stop ≤ data.length := by
  induction h with
  | nil pos => exact hpos
  | cons frame rest ih => exact ih frame.fits

/-- Two chains from one offset to ends where no frame begins are the same. -/
theorem Chain.unique {m stop' : ℕ} (h : Chain data pos n stop) (hend : ¬ FrameAt data stop)
    (h' : Chain data pos m stop') (hend' : ¬ FrameAt data stop') : stop = stop' := by
  induction h generalizing m with
  | nil pos =>
    cases h' with
    | nil => rfl
    | cons frame rest => exact absurd frame hend
  | cons frame rest ih =>
    cases h' with
    | nil => exact absurd frame hend'
    | cons frame' rest' => exact ih hend rest'

theorem chain_exists (data : Bytes) (pos : ℕ) : ∃ n stop, Chain data pos n stop ∧ ¬ FrameAt data stop := by
  induction hd : data.length - pos using Nat.strong_induction_on generalizing pos with
  | _ d ih =>
    by_cases hframe : FrameAt data pos
    · have hheader := hframe.header
      simp only [TRANSACTION_LOG_ENTRY_HEADER_SIZE] at hheader
      obtain ⟨n, stop, hchain, hend⟩ := ih
        (data.length - (pos + TRANSACTION_LOG_ENTRY_HEADER_SIZE + readUint32BE data (pos + 8)))
        (by simp only [TRANSACTION_LOG_ENTRY_HEADER_SIZE]; omega) _ rfl
      exact ⟨n + 1, stop, .cons hframe hchain, hend⟩
    · exact ⟨0, pos, .nil pos, hframe⟩

/-- The bytes behind the end of a chain do not matter to it. -/
theorem Chain.take (h : Chain data pos n stop) : Chain (data.take stop) pos n stop := by
  induction h with
  | nil pos => exact .nil pos
  | @cons pos n stop frame rest ih =>
    have hle := rest.le
    have hstop := rest.stop_le frame.fits
    have hlen : (data.take stop).length = stop := List.length_take_of_le hstop
    have hsplit : data = data.take stop ++ data.drop stop := (List.take_append_drop stop data).symm
    simp only [TRANSACTION_LOG_ENTRY_HEADER_SIZE] at hle
    have hts : readDoubleBE (data.take stop) pos = readDoubleBE data pos := by
      conv_rhs => rw [hsplit]
      rw [readDoubleBE, readDoubleBE, BigEndian.read_append_left (by rw [hlen]; omega)]
    have hsize : readUint32BE (data.take stop) (pos + 8) = readUint32BE data (pos + 8) := by
      conv_rhs => rw [hsplit]
      exact (BigEndian.read_append_left (by rw [hlen]; omega) _).symm
    refine .cons ⟨?_, hts ▸ frame.timestamp, hsize ▸ frame.payload, ?_⟩ (hsize ▸ ih)
    · rw [hlen]
      simp only [TRANSACTION_LOG_ENTRY_HEADER_SIZE]
      omega
    · rw [hlen, hsize]
      simp only [TRANSACTION_LOG_ENTRY_HEADER_SIZE]
      omega

end

/-- What the scan says at the end of the chain. -/
def verdictAt (data : Bytes) (stop : ℕ) : RecoveryScan :=
  if stop = data.length then ⟨.clean, data.length⟩
  else if data.length < stop + TRANSACTION_LOG_ENTRY_HEADER_SIZE then ⟨.truncateTail, stop⟩
  else if (readDoubleBE data stop).isZero then ⟨.clean, stop⟩
  else if validFramingResumes data (stop + 1) data.length then ⟨.midFileCorruption, stop⟩
  else ⟨.truncateTail, stop⟩

section
variable {data : Bytes} (hlen : data.length < UINT32_RANGE)
include hlen

/-- The scan walks a chain to its end, whatever fuel above its length it is given. -/
theorem scanLoop_chain {pos n stop : ℕ} (h : Chain data pos n stop) (hend : ¬ FrameAt data stop)
    {fuel : ℕ} (hfuel : n < fuel) :
    scanLoop data data.length fuel pos = verdictAt data stop := by
  induction h generalizing fuel with
  | nil pos =>
    obtain ⟨fuel, rfl⟩ := Nat.exists_eq_add_of_lt hfuel
    rw [Nat.zero_add, scanLoop, verdictAt]
    by_cases h1 : pos = data.length
    · rw [if_pos h1, if_pos h1]
    rw [if_neg h1, if_neg h1]
    by_cases h2 : data.length < pos + TRANSACTION_LOG_ENTRY_HEADER_SIZE
    · rw [if_pos h2, if_pos h2]
    rw [if_neg h2, if_neg h2]
    by_cases h3 : (readDoubleBE data pos).isZero = true
    · rw [if_pos h3, if_pos h3]
    rw [if_neg h3, if_neg h3]
    -- no frame begins here, so this one is broken
    have hbroken : readUint32BE data (pos + 8) = 0 ∨
        data.length < pos + TRANSACTION_LOG_ENTRY_HEADER_SIZE + readUint32BE data (pos + 8) := by
      by_contra hwhole
      rw [not_or, not_lt] at hwhole
      exact hend ⟨not_lt.mp h2, Bool.not_eq_true _ ▸ h3, hwhole.1, hwhole.2⟩
    exact if_pos hbroken
  | @cons pos n stop frame rest ih =>
    obtain ⟨fuel, rfl⟩ : ∃ k, fuel = k + 1 := ⟨fuel - 1, by omega⟩
    have hheader := frame.header
    simp only [TRANSACTION_LOG_ENTRY_HEADER_SIZE] at hheader
    rw [scanLoop, if_neg (by omega), if_neg (not_lt.mpr frame.header),
      if_neg (by rw [frame.timestamp]; exact Bool.false_ne_true)]
    simp only
    rw [if_neg (not_or.mpr ⟨frame.payload, not_lt.mpr frame.fits⟩), frameEnd_of_frameAt hlen frame]
    exact ih hend (by omega)

/-- The inner loop follows the chain at `pos` with `frames` of it already behind. -/
theorem chainResumes_iff (fuel pos frames : ℕ) (hframes : frames < RESYNC_MIN_FRAMES)
    (hfuel : RESYNC_MIN_FRAMES ≤ frames + fuel) :
    chainResumes data data.length fuel pos frames = true ↔
      ∃ n stop, 0 < n ∧ Chain data pos n stop ∧ (stop = data.length ∨ RESYNC_MIN_FRAMES ≤ frames + n) := by
  induction fuel generalizing pos frames with
  | zero => omega
  | succ fuel ih =>
    rw [chainResumes]
    by_cases hframe : FrameAt data pos
    · rw [if_pos (frameFits_iff.mpr hframe), frameEnd_of_frameAt hlen hframe]
      dsimp only
      set next := pos + TRANSACTION_LOG_ENTRY_HEADER_SIZE + readUint32BE data (pos + 8) with hnext
      by_cases hdone : RESYNC_MIN_FRAMES ≤ frames + 1 ∨ next = data.length
      · rw [if_pos hdone]
        simp only [true_iff]
        exact ⟨1, next, Nat.one_pos, .cons hframe (.nil _), hdone.symm⟩
      · rw [if_neg hdone, ih next (frames + 1) (by omega) (by omega)]
        constructor
        · rintro ⟨n, stop, -, hchain, hstop⟩
          exact ⟨n + 1, stop, Nat.succ_pos n, .cons hframe hchain, hstop.imp_right fun h => by omega⟩
        · rintro ⟨_, stop, hn, hchain, hstop⟩
          cases hchain with
          | nil => exact absurd hn (lt_irrefl 0)
          | @cons _ n _ _ rest =>
            refine ⟨n, stop, Nat.pos_of_ne_zero ?_, rest, hstop.imp_right fun h => by omega⟩
            rintro rfl
            cases rest with
            | nil => exact hdone (hstop.symm.imp_left fun h => by omega)
    · rw [if_neg (by rw [frameFits_iff]; exact hframe)]
      simp only [Bool.false_eq_true, false_iff]
      rintro ⟨_, stop, hn, hchain, -⟩
      cases hchain with
      | nil => exact absurd hn (lt_irrefl 0)
      | cons frame rest => exact hframe frame

omit hlen in
theorem Resumes.header {start : ℕ} (h : Resumes data start) :
    start + TRANSACTION_LOG_ENTRY_HEADER_SIZE ≤ data.length := by
  obtain ⟨n, stop, hn, hchain, -⟩ := h
  cases hchain with
  | nil => exact absurd hn (lt_irrefl 0)
  | cons frame rest => exact frame.header

theorem validFramingResumesFrom_iff {fuel start : ℕ} (hfuel : data.length < start + fuel) :
    validFramingResumesFrom data data.length fuel start = true ↔ ∃ s, start ≤ s ∧ Resumes data s := by
  induction fuel generalizing start with
  | zero =>
    simp only [validFramingResumesFrom, Bool.false_eq_true, false_iff]
    rintro ⟨s, hs, h⟩
    have hheader := h.header
    omega
  | succ fuel ih =>
    have hchain : chainResumes data data.length RESYNC_MIN_FRAMES start 0 = true ↔ Resumes data start := by
      rw [chainResumes_iff hlen RESYNC_MIN_FRAMES start 0 (by decide) (by decide)]
      simp only [Resumes, Nat.zero_add]
    rw [validFramingResumesFrom]
    by_cases hroom : start + TRANSACTION_LOG_ENTRY_HEADER_SIZE ≤ data.length
    · rw [if_pos hroom]
      by_cases hres : Resumes data start
      · rw [if_pos (hchain.mpr hres)]
        simp only [true_iff]
        exact ⟨start, le_rfl, hres⟩
      · rw [if_neg (fun h => hres (hchain.mp h)), ih (by omega)]
        constructor
        · rintro ⟨s, hs, h⟩
          exact ⟨s, (Nat.le_succ start).trans hs, h⟩
        · rintro ⟨s, hs, h⟩
          refine ⟨s, Nat.lt_of_le_of_ne hs ?_, h⟩
          rintro rfl
          exact hres h
    · rw [if_neg hroom]
      simp only [Bool.false_eq_true, false_iff]
      rintro ⟨s, hs, h⟩
      have hheader := h.header
      omega

theorem validFramingResumes_iff (start : ℕ) :
    validFramingResumes data start data.length = true ↔ ∃ s, start ≤ s ∧ Resumes data s :=
  validFramingResumesFrom_iff hlen (by omega)

end

/-- The scan of a chain's image in general: what it says is what the end of the chain gives. -/
theorem scan_chainEnd {data : Bytes} (hlen : data.length < UINT32_RANGE)
    (hheader : TRANSACTION_LOG_FILE_HEADER_SIZE < data.length) {stop : ℕ} (h : ChainEnd data stop) :
    scanTransactionLogForRecovery data data.length = verdictAt data stop := by
  obtain ⟨⟨n, hchain⟩, hend⟩ := h
  have hle := hchain.le
  have hstop := hchain.stop_le hheader.le
  rw [scanTransactionLogForRecovery, if_neg (not_le.mpr hheader)]
  exact scanLoop_chain hlen hchain hend (by omega)

theorem chainEnd_unique {data : Bytes} {stop stop' : ℕ} (h : ChainEnd data stop)
    (h' : ChainEnd data stop') : stop' = stop := by
  obtain ⟨⟨n, hchain⟩, hend⟩ := h
  obtain ⟨⟨m, hchain'⟩, hend'⟩ := h'
  exact hchain'.unique hend' hchain hend

/-- What the scan takes for an image without a torn end. -/
def CleanAt (data : Bytes) (stop : ℕ) : Prop :=
  data.length ≤ TRANSACTION_LOG_FILE_HEADER_SIZE ∨ stop = data.length ∨
    (stop + TRANSACTION_LOG_ENTRY_HEADER_SIZE ≤ data.length ∧ (readDoubleBE data stop).isZero = true)

/-- The verdict at the end of the chain, case by case. -/
theorem scan_cases {data : Bytes} (hlen : data.length < UINT32_RANGE) {stop : ℕ} (h : ChainEnd data stop) :
    let scan := scanTransactionLogForRecovery data data.length
    (CleanAt data stop ∧ scan.kind = .clean) ∨
      (¬ CleanAt data stop ∧ scan = ⟨if stop + TRANSACTION_LOG_ENTRY_HEADER_SIZE ≤ data.length ∧
        validFramingResumes data (stop + 1) data.length = true then .midFileCorruption else .truncateTail, stop⟩) := by
  intro scan
  by_cases hheader : data.length ≤ TRANSACTION_LOG_FILE_HEADER_SIZE
  · refine Or.inl ⟨Or.inl hheader, ?_⟩
    simp only [scan, scanTransactionLogForRecovery, if_pos hheader]
  have hscan : scan = verdictAt data stop := scan_chainEnd hlen (not_le.mp hheader) h
  rw [hscan, verdictAt]
  by_cases hall : stop = data.length
  · rw [if_pos hall]
    exact Or.inl ⟨Or.inr (Or.inl hall), rfl⟩
  rw [if_neg hall]
  by_cases hshort : data.length < stop + TRANSACTION_LOG_ENTRY_HEADER_SIZE
  · rw [if_pos hshort, if_neg (fun hroom => absurd hshort (not_lt.mpr hroom.1))]
    refine Or.inr ⟨?_, rfl⟩
    rintro (h1 | h1 | ⟨h1, -⟩)
    · exact hheader h1
    · exact hall h1
    · exact absurd hshort (not_lt.mpr h1)
  rw [if_neg hshort]
  by_cases hzero : (readDoubleBE data stop).isZero = true
  · rw [if_pos hzero]
    exact Or.inl ⟨Or.inr (Or.inr ⟨not_lt.mp hshort, hzero⟩), rfl⟩
  rw [if_neg hzero]
  refine Or.inr ⟨?_, ?_⟩
  · rintro (h1 | h1 | ⟨-, h1⟩)
    · exact hheader h1
    · exact hall h1
    · exact hzero h1
  · by_cases hres : validFramingResumes data (stop + 1) data.length = true
    · rw [if_pos hres, if_pos ⟨not_lt.mp hshort, hres⟩]
    · rw [if_neg hres, if_neg (fun hboth => hres hboth.2)]

/-- No sum that the scan forms where it stands leaves 32 bits. -/
def SumsExact (data : Bytes) : Prop :=
  (∀ pos, FrameAt data pos → TRANSACTION_LOG_ENTRY_HEADER_SIZE + readUint32BE data (pos + 8) < UINT32_RANGE ∧
    pos + (TRANSACTION_LOG_ENTRY_HEADER_SIZE + readUint32BE data (pos + 8)) < UINT32_RANGE) ∧
  ∀ start, start + TRANSACTION_LOG_ENTRY_HEADER_SIZE ≤ data.length → start + 1 < UINT32_RANGE

theorem sumsExact {data : Bytes} (hlen : data.length < UINT32_RANGE) : SumsExact data := by
  constructor
  · intro pos h
    have hfits := h.fits
    omega
  · intro start h
    simp only [TRANSACTION_LOG_ENTRY_HEADER_SIZE] at h
    omega

/-- The loops end by themselves: more fuel than the image has bytes changes nothing. -/
def LoopsEnd (data : Bytes) : Prop :=
  (∀ fuel, data.length < fuel → scanLoop data data.length fuel TRANSACTION_LOG_FILE_HEADER_SIZE =
    scanLoop data data.length (data.length + 1) TRANSACTION_LOG_FILE_HEADER_SIZE) ∧
  (∀ start fuel, data.length < fuel →
    validFramingResumesFrom data data.length fuel start = validFramingResumes data start data.length) ∧
  ∀ start fuel, RESYNC_MIN_FRAMES ≤ fuel →
    chainResumes data data.length fuel start 0 = chainResumes data data.length RESYNC_MIN_FRAMES start 0

theorem loopsEnd {data : Bytes} (hlen : data.length < UINT32_RANGE) : LoopsEnd data := by
  refine ⟨fun fuel hfuel => ?_, fun start fuel hfuel => ?_, fun start fuel hfuel => ?_⟩
  · obtain ⟨n, stop, hchain, hend⟩ := chain_exists data TRANSACTION_LOG_FILE_HEADER_SIZE
    have hn : n ≤ data.length := by
      cases hchain with
      | nil => exact Nat.zero_le _
      | cons frame rest =>
        have hle := rest.le
        have hstop := rest.stop_le frame.fits
        simp only [TRANSACTION_LOG_ENTRY_HEADER_SIZE] at hle
        omega
    rw [scanLoop_chain hlen hchain hend (by omega), scanLoop_chain hlen hchain hend (by omega)]
  · rw [Bool.eq_iff_iff, validFramingResumesFrom_iff hlen (by omega), validFramingResumes_iff hlen]
  · rw [Bool.eq_iff_iff, chainResumes_iff hlen fuel start 0 (by decide) (by omega),
      chainResumes_iff hlen RESYNC_MIN_FRAMES start 0 (by decide) (by decide)]

/-- The frames of records make a chain. -/
theorem chain_frames {rs : List LogRecord} (hrs : ∀ r ∈ rs, r.Scannable) (pre post : Bytes) :
    Chain (pre ++ frames rs ++ post) pre.length rs.length (pre ++ frames rs).length := by
  induction rs generalizing pre with
  | nil =>
    rw [frames_nil, List.append_nil]
    exact .nil _
  | cons r rs ih =>
    have hr := hrs r List.mem_cons_self
    have hsplit : pre ++ frames (r :: rs) ++ post = pre ++ (r.frame ++ (frames rs ++ post)) := by simp
    have hsize := frame_size r pre (frames rs ++ post) hr.fits
    have hlength : (pre ++ (r.frame ++ (frames rs ++ post))).length =
        pre.length + TRANSACTION_LOG_ENTRY_HEADER_SIZE + r.data.length + (frames rs ++ post).length := by
      rw [List.length_append, List.length_append, r.frame_length]
      omega
    have hrest := ih (fun r' hr' => hrs r' (List.mem_cons_of_mem _ hr')) (pre ++ r.frame)
    rw [show pre ++ r.frame ++ frames rs ++ post = pre ++ (r.frame ++ (frames rs ++ post)) by simp,
      show pre ++ r.frame ++ frames rs = pre ++ frames (r :: rs) by simp] at hrest
    rw [hsplit]
    refine .cons ⟨?_, ?_, ?_, ?_⟩ ?_
    · rw [hlength]
      omega
    · rw [frame_timestamp]
      exact hr.timestamp
    · rw [hsize]
      exact fun h0 => hr.payload (List.length_eq_zero_iff.mp h0)
    · rw [hsize, hlength]
      omega
    · rw [hsize]
      rw [List.length_append, r.frame_length] at hrest
      rw [show pre.length + TRANSACTION_LOG_ENTRY_HEADER_SIZE + r.data.length =
        pre.length + (r.data.length + TRANSACTION_LOG_ENTRY_HEADER_SIZE) by omega]
      exact hrest

/-- The fields of a frame that is cut behind its header are still those of the frame. -/
theorem cut_frame {r : LogRecord} (hfits : r.Fits) (pre : Bytes) {k : ℕ} (hk : TRANSACTION_LOG_ENTRY_HEADER_SIZE ≤ k)
    (hcut : k ≤ r.frame.length) : readDoubleBE (pre ++ r.frame.take k) pre.length = r.timestamp ∧
      readUint32BE (pre ++ r.frame.take k) (pre.length + 8) = r.data.length := by
  have hwhole : pre ++ (r.frame ++ []) = pre ++ r.frame.take k ++ r.frame.drop k := by
    rw [List.append_nil, List.append_assoc, List.take_append_drop]
  have hlength : (pre ++ r.frame.take k).length = pre.length + k := by
    rw [List.length_append, List.length_take_of_le hcut]
  simp only [TRANSACTION_LOG_ENTRY_HEADER_SIZE] at hk
  constructor
  · have hts := frame_timestamp r pre []
    rw [hwhole, readDoubleBE, BigEndian.read_append_left (by omega)] at hts
    exact hts
  · have hsize := frame_size r pre [] hfits
    rw [hwhole, readUint32BE, BigEndian.read_append_left (by omega)] at hsize
    exact hsize

/-- Complete frames and a part of one more, in which no chain begins. -/
theorem scan_torn {header : Bytes} {rs : List LogRecord} {r : LogRecord} {k : ℕ}
    (hheader : header.length = TRANSACTION_LOG_FILE_HEADER_SIZE) (hrs : ∀ r ∈ rs, r.Scannable)
    (hr : r.Scannable) (hpos : 0 < k) (hcut : k < r.frame.length)
    (hlen : (header ++ frames rs ++ r.frame.take k).length < UINT32_RANGE)
    (hnone : ∀ start, (header ++ frames rs).length < start → ¬ Resumes (header ++ frames rs ++ r.frame.take k) start) :
    scanTransactionLogForRecovery (header ++ frames rs ++ r.frame.take k)
    (header ++ frames rs ++ r.frame.take k).length =
      ⟨.truncateTail, (header ++ frames rs).length⟩ := by
  set pre := header ++ frames rs with hpre
  set data := pre ++ r.frame.take k with hdata
  have hlength : data.length = pre.length + k := by
    rw [hdata, List.length_append, List.length_take_of_le hcut.le]
  have hframe : r.frame.length = r.data.length + TRANSACTION_LOG_ENTRY_HEADER_SIZE := r.frame_length
  have hchain : ChainEnd data pre.length := by
    refine ⟨⟨rs.length, ?_⟩, fun hat => ?_⟩
    · rw [← hheader]
      exact chain_frames hrs header (r.frame.take k)
    · have hroom := hat.header
      have hfits := hat.fits
      rw [(cut_frame hr.fits pre (by omega) hcut.le).2] at hfits
      omega
  have hnotclean : ¬ CleanAt data pre.length := by
    rintro (h1 | h1 | ⟨h1, h2⟩)
    · rw [hlength, hpre, List.length_append, hheader] at h1
      omega
    · omega
    · rw [(cut_frame hr.fits pre (by omega) hcut.le).1, hr.timestamp] at h2
      cases h2
  rcases scan_cases hlen hchain with ⟨hclean, -⟩ | ⟨-, hscan⟩
  · exact absurd hclean hnotclean
  · rw [hscan, if_neg]
    rintro ⟨-, hres⟩
    obtain ⟨start, hstart, h⟩ := (validFramingResumes_iff hlen _).mp hres
    exact hnone start hstart h

/-- Cut where a torn tail begins, the image is one of whole frames. -/
theorem scan_cut {data : Bytes} (hlen : data.length < UINT32_RANGE)
    (htorn : (scanTransactionLogForRecovery data data.length).kind = .truncateTail) :
    let stop := (scanTransactionLogForRecovery data data.length).validEnd
    scanTransactionLogForRecovery (data.take stop) stop = ⟨.clean, stop⟩ := by
  obtain ⟨n, stop, hchain, hend⟩ := chain_exists data TRANSACTION_LOG_FILE_HEADER_SIZE
  rcases scan_cases hlen ⟨⟨n, hchain⟩, hend⟩ with ⟨-, hclean⟩ | ⟨hnot, hscan⟩
  · rw [hclean] at htorn
    cases htorn
  have hvalid : (scanTransactionLogForRecovery data data.length).validEnd = stop := by rw [hscan]
  rw [hvalid]
  dsimp only
  have hheader : TRANSACTION_LOG_FILE_HEADER_SIZE < data.length := not_le.mp fun h => hnot (Or.inl h)
  have hstop := hchain.stop_le hheader.le
  have hlength : (data.take stop).length = stop := List.length_take_of_le hstop
  by_cases hsmall : stop ≤ TRANSACTION_LOG_FILE_HEADER_SIZE
  · rw [scanTransactionLogForRecovery, if_pos hsmall]
  · have hcut : ChainEnd (data.take stop) stop := by
      refine ⟨⟨n, hchain.take⟩, fun hat => ?_⟩
      have hroom := hat.header
      simp only [TRANSACTION_LOG_ENTRY_HEADER_SIZE] at hroom
      omega
    have hverdict := @scan_chainEnd (data.take stop) (by omega) (by omega) stop hcut
    rw [verdictAt, if_pos hlength.symm, hlength] at hverdict
    exact hverdict

/-- The scan on every image below 4 GiB. -/
theorem recovery_classified (data : Bytes) (hlen : data.length < UINT32_RANGE) :
    let scan := scanTransactionLogForRecovery data data.length
    (∃ stop, ChainEnd data stop ∧ (∀ stop', ChainEnd data stop' → stop' = stop) ∧
      (scan.kind = .clean ↔ CleanAt data stop) ∧
      (¬ CleanAt data stop → scan.validEnd = stop ∧ (scan.kind = .midFileCorruption ↔
        stop + TRANSACTION_LOG_ENTRY_HEADER_SIZE ≤ data.length ∧ ∃ start, stop < start ∧ Resumes data start))) ∧
    SumsExact data ∧ LoopsEnd data ∧
    (scan.kind = .truncateTail →
      scanTransactionLogForRecovery (data.take scan.validEnd) scan.validEnd = ⟨.clean, scan.validEnd⟩) ∧
    ∀ header rs r k, header.length = TRANSACTION_LOG_FILE_HEADER_SIZE → (∀ r' ∈ rs, LogRecord.Scannable r') →
      LogRecord.Scannable r → 0 < k → k < r.frame.length → data = header ++ frames rs ++ r.frame.take k →
      (∀ start, (header ++ frames rs).length < start → ¬ Resumes data start) →
      scan = ⟨.truncateTail, (header ++ frames rs).length⟩ := by
  intro scan
  refine ⟨?_, sumsExact hlen, loopsEnd hlen, scan_cut hlen, ?_⟩
  · obtain ⟨n, stop, hchain, hend⟩ := chain_exists data TRANSACTION_LOG_FILE_HEADER_SIZE
    have hstop : ChainEnd data stop := ⟨⟨n, hchain⟩, hend⟩
    refine ⟨stop, hstop, fun stop' h' => chainEnd_unique hstop h', ?_, fun hnot => ?_⟩
    · rcases scan_cases hlen hstop with ⟨hclean, hkind⟩ | ⟨hnot, hscan⟩
      · exact iff_of_true hkind hclean
      · refine iff_of_false (fun hkind => ?_) hnot
        simp only [scan, hscan] at hkind
        split_ifs at hkind
    · rcases scan_cases hlen hstop with ⟨hclean, -⟩ | ⟨-, hscan⟩
      · exact absurd hclean hnot
      · simp only [scan, hscan, true_and]
        have hiff := validFramingResumes_iff hlen (stop + 1)
        split_ifs with hres
        · exact iff_of_true rfl ⟨hres.1, hiff.mp hres.2⟩
        · exact iff_of_false (fun h => by cases h) fun h => hres ⟨h.1, hiff.mpr h.2⟩
  · rintro header rs r k hheader hrs hr hpos hcut rfl hnone
    exact scan_torn hheader hrs hr hpos hcut hlen hnone

/-- A header, one whole frame and three bytes of the next. -/
def tornImage : Bytes := fileHeader ⟨5⟩ ++ frames [⟨⟨6⟩, 1, [7]⟩] ++ (LogRecord.frame ⟨⟨8⟩, 1, [9]⟩).take 3

theorem recovery_classified_tornImage : tornImage.length < UINT32_RANGE ∧
    scanTransactionLogForRecovery tornImage tornImage.length = ⟨.truncateTail, 27⟩ ∧
    scanTransactionLogForRecovery (tornImage.take 27) 27 = ⟨.clean, 27⟩ := by
  have hscan : scanTransactionLogForRecovery tornImage tornImage.length = ⟨.truncateTail, 27⟩ := by decide +kernel
  obtain ⟨-, -, -, hcut, -⟩ := recovery_classified tornImage (by decide +kernel)
  rw [hscan] at hcut
  exact ⟨by decide +kernel, hscan, hcut rfl⟩

end RocksdbJs
