import RocksdbJs.Sanity.Walkers

/-! The query reader on one image, from its first entry up to a watermark at the end of its
frames: it stops at a timestamp that is not a number and skips those outside its range. -/

namespace RocksdbJs

/-- What the reader yields of a record. -/
def LogRecord.yielded (r : LogRecord) : TransactionEntry := ⟨r.timestamp, r.flags &&& 1 != 0, r.data⟩

section Scan
variable {r : LogRecord} {pre post : Bytes} {size fuel : ℕ} {it : LogIterator}

/-- One round of the loop, on a whole frame before the limit. -/
theorem scanBuffer_frame (hpos : it.position = pre.length) (hfits : r.Fits) (hzero : r.timestamp.isZero = false)
    (hnan : r.timestamp.isNaN = false) (hsize : (pre ++ r.frame).length ≤ size) :
    scanBuffer (pre ++ (r.frame ++ post)) size (fuel + 1) it =
      let m := it.matchesRange r.timestamp
      let it' := { it with position := (pre ++ r.frame).length, foundExactStart := m.2 }
      if m.1 then (.value r.yielded ⟨pre.length, it.logId⟩, it')
      else if size ≤ (pre ++ r.frame).length then (.passed, it')
      else scanBuffer (pre ++ (r.frame ++ post)) size fuel it' := by
  have hts := frame_timestamp r pre post
  have hlength := frame_size r pre post hfits
  have hflags := frame_flags r pre post
  have hdata := frame_data r pre post
  have hthirteen : TRANSACTION_LOG_ENTRY_HEADER_SIZE = 13 := rfl
  have hlen : (pre ++ (r.frame ++ post)).length = pre.length + 13 + r.data.length + post.length := by
    rw [List.length_append, List.length_append, r.frame_length]
    omega
  have hend : (pre ++ r.frame).length = pre.length + TRANSACTION_LOG_ENTRY_HEADER_SIZE + r.data.length := by
    rw [List.length_append, r.frame_length]
    omega
  rw [scanBuffer]
  simp only [hpos, hts, hlength, hflags, hdata, hzero, hnan, hlen, Bool.false_eq_true, or_self, if_false]
  rw [if_neg (by omega), if_neg (by omega), if_neg (by split_ifs <;> omega), if_neg (by split_ifs <;> omega), hend]
  rfl

theorem scanBuffer_nan (hpos : it.position = pre.length) (hnan : r.timestamp.isNaN = true)
    (hsize : (pre ++ r.frame).length ≤ size) :
    scanBuffer (pre ++ (r.frame ++ post)) size (fuel + 1) it = (.done, it) := by
  have hts := frame_timestamp r pre post
  have hlen : (pre ++ (r.frame ++ post)).length = pre.length + (r.data.length + TRANSACTION_LOG_ENTRY_HEADER_SIZE) +
      post.length := by
    rw [List.length_append, List.length_append, r.frame_length]
    omega
  rw [List.length_append, r.frame_length] at hsize
  have hthirteen : TRANSACTION_LOG_ENTRY_HEADER_SIZE = 13 := rfl
  rw [scanBuffer]
  simp only [hpos, hts, hnan, hlen, or_true, if_true]
  rw [if_neg (by omega), if_neg (by omega)]

end Scan

/-- An iterator over the whole range of timestamps a query has by default. -/
def fullIterator (logId position size : ℕ) : LogIterator :=
  { start := Binary64.zero, «end» := Binary64.maxValue, position, size := some size, logId }

def inFullRange (timestamp : Binary64) : Bool :=
  Binary64.ge timestamp Binary64.zero && Binary64.lt timestamp Binary64.maxValue

theorem inFullRange_not_nan {t : Binary64} (h : inFullRange t = true) : t.isNaN = false := by
  cases hn : t.isNaN with
  | false => rfl
  | true => simp [inFullRange, Binary64.ge, hn] at h

theorem scanBuffer_full {r : LogRecord} {pre post : Bytes} {logId size fuel : ℕ} (hfits : r.Fits)
    (hzero : r.timestamp.isZero = false) (hnan : r.timestamp.isNaN = false)
    (hsize : (pre ++ r.frame).length ≤ size) :
    scanBuffer (pre ++ (r.frame ++ post)) size (fuel + 1) (fullIterator logId pre.length size) =
      if inFullRange r.timestamp then (.value r.yielded ⟨pre.length, logId⟩,
        fullIterator logId (pre ++ r.frame).length size)
      else if size ≤ (pre ++ r.frame).length then (.passed, fullIterator logId (pre ++ r.frame).length size)
      else scanBuffer (pre ++ (r.frame ++ post)) size fuel (fullIterator logId (pre ++ r.frame).length size) :=
  scanBuffer_frame (show (fullIterator logId pre.length size).position = pre.length from rfl) hfits hzero hnan hsize

/-- What such an iterator sees of the records in front of it. -/
def seen (rs : List LogRecord) : List TransactionEntry :=
  ((rs.takeWhile fun r => !r.timestamp.isNaN).filter fun r => inFullRange r.timestamp).map LogRecord.yielded

/-- How the loop leaves a file whose limit is at the end of `rs`. -/
inductive Leaves (logId size : ℕ) (pre : Bytes) (rs : List LogRecord) : ScanResult × LogIterator → Prop
  | ended (h : rs = []) : Leaves logId size pre rs (.ended, fullIterator logId size size)
  | done (it : LogIterator) (h : seen rs = []) : Leaves logId size pre rs (.done, it)
  | passed (h : seen rs = []) : Leaves logId size pre rs (.passed, fullIterator logId size size)
  | value (skipped : List LogRecord) (r : LogRecord) (rest : List LogRecord) (place : LogPosition)
      (hsplit : rs = skipped ++ r :: rest) (hseen : seen rs = r.yielded :: seen rest) :
      Leaves logId size pre rs (.value r.yielded place, fullIterator logId (pre ++ frames (skipped ++ [r])).length size)

theorem scanBuffer_image (logId size : ℕ) (post : Bytes) (rs : List LogRecord) (pre : Bytes) (fuel : ℕ)
    (hfits : ∀ r ∈ rs, r.Fits) (hstamped : ∀ r ∈ rs, r.timestamp.isZero = false)
    (hsize : (pre ++ frames rs).length = size) (hfuel : rs.length < fuel) :
    Leaves logId size pre rs (scanBuffer (pre ++ (frames rs ++ post)) size fuel
      (fullIterator logId pre.length size)) := by
  induction rs generalizing pre fuel with
  | nil =>
    obtain ⟨fuel, rfl⟩ : ∃ n, fuel = n + 1 := ⟨fuel - 1, by simp at hfuel; omega⟩
    rw [frames_nil, List.append_nil] at hsize
    have hdone : scanBuffer (pre ++ (frames [] ++ post)) size (fuel + 1) (fullIterator logId pre.length size) =
        (.ended, fullIterator logId size size) := by
      rw [scanBuffer, hsize]
      exact if_pos le_rfl
    rw [hdone]
    exact .ended rfl
  | cons r rs ih =>
    obtain ⟨fuel, rfl⟩ : ∃ n, fuel = n + 1 := ⟨fuel - 1, by simp at hfuel; omega⟩
    have hfit := hfits r List.mem_cons_self
    have hzero := hstamped r List.mem_cons_self
    rw [frames_cons, ← List.append_assoc] at hsize
    have hle : (pre ++ r.frame).length ≤ size := by
      rw [← hsize]
      simp
    rw [frames_cons, List.append_assoc]
    cases hnan : r.timestamp.isNaN with
    | true =>
      rw [scanBuffer_nan rfl hnan hle]
      exact .done _ (by simp [seen, hnan])
    | false =>
      rw [scanBuffer_full hfit hzero hnan hle]
      have hseen : seen (r :: rs) = if inFullRange r.timestamp then r.yielded :: seen rs else seen rs := by
        simp only [seen, List.takeWhile_cons, hnan, Bool.not_false, if_true, List.filter_cons]
        split_ifs <;> rfl
      by_cases hin : inFullRange r.timestamp = true
      · rw [if_pos hin] at hseen ⊢
        have : Leaves logId size pre (r :: rs) (.value r.yielded ⟨pre.length, logId⟩, _) := .value [] r rs _ rfl hseen
        simpa using this
      · rw [if_neg hin] at hseen ⊢
        by_cases hlast : size ≤ (pre ++ r.frame).length
        · rw [if_pos hlast]
          have hnil : rs = [] := by
            have hge := frames_length_ge rs
            rw [List.length_append] at hsize
            exact List.length_eq_zero_iff.mp (by omega)
          obtain rfl := le_antisymm hle hlast
          exact .passed (by rw [hseen, hnil]; rfl)
        · rw [if_neg hlast]
          have hnext := ih (pre ++ r.frame) fuel (fun r' hr' => hfits r' (List.mem_cons_of_mem _ hr'))
            (fun r' hr' => hstamped r' (List.mem_cons_of_mem _ hr')) hsize (by simpa using hfuel)
          rw [List.append_assoc] at hnext
          revert hnext
          generalize scanBuffer (pre ++ (r.frame ++ (frames rs ++ post))) size fuel
            (fullIterator logId (pre ++ r.frame).length size) = res
          intro hnext
          cases hnext with
          | ended h =>
            rw [h, frames_nil, List.append_nil] at hsize
            exact absurd hsize.ge hlast
          | done it h => exact .done it (hseen.trans h)
          | passed h => exact .passed (hseen.trans h)
          | value skipped r' rest place hsplit h =>
            have : Leaves logId size pre (r :: rs) (.value r'.yielded place, _) :=
              .value (r :: skipped) r' rest place (by rw [hsplit]; rfl) (hseen.trans h)
            simpa using this

namespace Reading
variable {cfg : StoreConfig} {y : Reading} {io : TransactionLogStore.ReadCalls} {seq size : ℕ}

/-- At the watermark there is nothing more to read. -/
theorem nextLoop_end (fuel : ℕ) :
    nextLoop cfg io (fuel + 1) y (fullIterator seq size size) = (.done, y, fullIterator seq size size) := by
  have hscan : scanBuffer (y.view seq) size ((y.view seq).length + 1) (fullIterator seq size size) =
      (.ended, fullIterator seq size size) := by
    rw [scanBuffer]
    exact if_pos le_rfl
  have hsize : (fullIterator seq size size).size = some size := rfl
  rw [nextLoop, hsize]
  simp only
  rw [show (fullIterator seq size size).logId = seq from rfl, hscan]

theorem nextHead_image (hw : y.store.lastCommittedPosition = ⟨size, seq⟩) (position : ℕ) :
    y.nextHead cfg (fullIterator seq position size) io = (.ok (), y, fullIterator seq position size) := by
  rw [nextHead]
  split_ifs
  · have hload : y.loadLastPosition false io = (.ok (seq, size), y) := by
      simp only [loadLastPosition, hw, Bool.false_eq_true, if_false]
    rw [show (fullIterator seq position size).readUncommitted = false from rfl, hload]
    exact if_neg (lt_irrefl seq)
  · rfl

/-- One call of `next`, with the records `rs` in front of the iterator. -/
theorem next_image (cfg : StoreConfig) (io : TransactionLogStore.ReadCalls) {rs : List LogRecord}
    {pre post : Bytes} (hw : y.store.lastCommittedPosition = ⟨size, seq⟩)
    (hview : y.view seq = pre ++ (frames rs ++ post)) (hfits : ∀ r ∈ rs, r.Fits)
    (hstamped : ∀ r ∈ rs, r.timestamp.isZero = false) (hsize : (pre ++ frames rs).length = size) :
    (seen rs = [] ∧ ∃ it, y.next cfg (fullIterator seq pre.length size) io = (.done, y, it)) ∨
      ∃ skipped r rest place, rs = skipped ++ r :: rest ∧ seen rs = r.yielded :: seen rest ∧
        y.next cfg (fullIterator seq pre.length size) io =
          (.value r.yielded place, y, fullIterator seq (pre ++ frames (skipped ++ [r])).length size) := by
  have hfuel : rs.length < (y.view seq).length + 1 := by
    have := frames_length_ge rs
    rw [hview, List.length_append, List.length_append]
    omega
  have hscan := scanBuffer_image seq size post rs pre ((y.view seq).length + 1) hfits hstamped hsize hfuel
  rw [← hview] at hscan
  simp only [next, nextHead_image hw]
  rw [nextLoop, show (fullIterator seq pre.length size).size = some size from rfl]
  simp only [show (fullIterator seq pre.length size).logId = seq from rfl]
  generalize scanBuffer (y.view seq) size ((y.view seq).length + 1) (fullIterator seq pre.length size) = res at hscan
  cases hscan with
  | ended h => exact Or.inl ⟨by rw [h]; rfl, _, rfl⟩
  | done it h => exact Or.inl ⟨h, _, rfl⟩
  | passed h =>
    refine Or.inl ⟨h, fullIterator seq size size, ?_⟩
    have hload : y.loadLastPosition false io = (.ok (seq, size), y) := by
      simp only [loadLastPosition, hw, Bool.false_eq_true, if_false]
    simp only [show (fullIterator seq size size).readUncommitted = false from rfl, hload]
    exact (if_neg (lt_irrefl seq)).trans (nextLoop_end _)
  | value skipped r rest place hsplit h => exact Or.inr ⟨skipped, r, rest, place, hsplit, h, rfl⟩

/-- Calls of `next` up to the first that yields nothing. -/
theorem drain_image (cfg : StoreConfig) (io : TransactionLogStore.ReadCalls) (post : Bytes)
    (hw : y.store.lastCommittedPosition = ⟨size, seq⟩) (n : ℕ) (rs : List LogRecord) (pre : Bytes)
    (hview : y.view seq = pre ++ (frames rs ++ post)) (hfits : ∀ r ∈ rs, r.Fits)
    (hstamped : ∀ r ∈ rs, r.timestamp.isZero = false) (hsize : (pre ++ frames rs).length = size)
    (hn : rs.length < n) :
    drain cfg io n y (fullIterator seq pre.length size) = (seen rs, some .done) := by
  induction n generalizing rs pre with
  | zero => omega
  | succ n ih =>
    rcases next_image cfg io hw hview hfits hstamped hsize with
      ⟨hseen, it, hnext⟩ | ⟨skipped, r, rest, place, rfl, hseen, hnext⟩
    · simp only [drain, hnext, hseen]
    · have hrest := ih rest (pre ++ frames (skipped ++ [r])) (by rw [hview]; simp) (fun r' hr' =>
        hfits r' (by simp [hr']))
        (fun r' hr' => hstamped r' (by simp [hr'])) (by rw [← hsize]; simp) (by simp at hn; omega)
      simp only [drain, hnext, hrest, hseen]

end Reading

end RocksdbJs
