import RocksdbJs.Sanity.Reader
import RocksdbJs.Sanity.Index

/-! The loop of `next` in one file, over a mapping of any length and up to any limit where an entry
ends: it takes records from where it stands, one after the other, until one of them is in the
range, its limit is reached or the mapping ends. -/

namespace RocksdbJs

namespace LogIterator

/-- What is yielded of `rs`, and `foundExactStart` behind them. -/
def selects : LogIterator → List LogRecord → List TransactionEntry × Bool
  | it, [] => ([], it.foundExactStart)
  | it, r :: rs =>
    let m := it.matchesRange r.timestamp
    let rest := selects { it with foundExactStart := m.2 } rs
    (if m.1 then r.yielded :: rest.1 else rest.1, rest.2)

/-- The same filter in the same mode; only the place and what has been found may differ. -/
structure Like (it it' : LogIterator) : Prop where
  start : it'.start = it.start
  «end» : it'.end = it.end
  exactStart : it'.exactStart = it.exactStart
  exclusiveStart : it'.exclusiveStart = it.exclusiveStart
  readUncommitted : it'.readUncommitted = it.readUncommitted

theorem Like.refl (it : LogIterator) : it.Like it := ⟨rfl, rfl, rfl, rfl, rfl⟩

variable {it it' it'' : LogIterator}

theorem Like.trans (h : it.Like it') (h' : it'.Like it'') : it.Like it'' :=
  ⟨h'.start.trans h.start, h'.end.trans h.end, h'.exactStart.trans h.exactStart,
    h'.exclusiveStart.trans h.exclusiveStart,
    h'.readUncommitted.trans h.readUncommitted⟩

theorem Like.matchesRange (h : it.Like it') (hfound : it'.foundExactStart = it.foundExactStart) (timestamp : Binary64) :
    it'.matchesRange timestamp = it.matchesRange timestamp := by
  unfold LogIterator.matchesRange
  rw [hfound, h.start, h.end, h.exactStart, h.exclusiveStart]

theorem Like.selects (h : it.Like it') (hfound : it'.foundExactStart = it.foundExactStart) (rs : List LogRecord) :
    it'.selects rs = it.selects rs := by
  induction rs generalizing it it' with
  | nil =>
    rw [LogIterator.selects, LogIterator.selects, hfound]
  | cons r rs ih =>
    have hnext : { it with foundExactStart := (it.matchesRange r.timestamp).2 }.Like
        { it' with foundExactStart := (it.matchesRange r.timestamp).2 } :=
      ⟨h.start, h.end, h.exactStart, h.exclusiveStart, h.readUncommitted⟩
    rw [LogIterator.selects, LogIterator.selects, h.matchesRange hfound, ih hnext rfl]

theorem selects_append (it : LogIterator) (rs rs' : List LogRecord) :
    it.selects (rs ++ rs') = ((it.selects rs).1 ++
      (({ it with foundExactStart := (it.selects rs).2 } : LogIterator).selects rs').1,
      (({ it with foundExactStart := (it.selects rs).2 } : LogIterator).selects rs').2) := by
  induction rs generalizing it with
  | nil => rfl
  | cons r rs ih =>
    rw [List.cons_append, selects, selects]
    simp only [ih]
    split_ifs <;> rfl

/-- The place of the iterator in the log. -/
def place (it : LogIterator) : LogPosition := ⟨it.position, it.logId⟩

end LogIterator

/-- What the loop has yielded. -/
def ScanResult.entries : ScanResult → List TransactionEntry
  | .value entry _ => [entry]
  | _ => []

section Mapping
variable {bytes pre post : Bytes} {length : ℕ}

theorem length_mapView (bytes : Bytes) (length : ℕ) : (mapView bytes length).length = length := by
  rw [mapView, List.length_append, List.length_take, List.length_replicate]
  omega

/-- What is before the end of the mapping is as in the file. -/
theorem mapView_prefix (h : pre.length ≤ length) (hpre : pre <+: bytes) :
    ∃ rest, mapView bytes length = pre ++ rest := by
  obtain ⟨post, rfl⟩ := hpre
  refine ⟨post.take (length - pre.length) ++ List.replicate (length - (pre ++ post).length) 0, ?_⟩
  rw [mapView, List.take_append, List.take_of_length_le h, List.append_assoc]

theorem mapView_take (h : length ≤ bytes.length) : mapView bytes length = bytes.take length := by
  rw [mapView, Nat.sub_eq_zero_of_le h, List.replicate_zero, List.append_nil]

theorem readDoubleBE_take {pos : ℕ} (h : pos + 8 ≤ length) (hle : length ≤ bytes.length) :
    readDoubleBE (bytes.take length) pos = readDoubleBE bytes pos := by
  conv_rhs => rw [← List.take_append_drop length bytes]
  unfold readDoubleBE
  rw [BigEndian.read_append_left]
  rw [List.length_take_of_le hle]
  exact h

theorem readUint32BE_take {pos : ℕ} (h : pos + 4 ≤ length) (hle : length ≤ bytes.length) :
    readUint32BE (bytes.take length) pos = readUint32BE bytes pos := by
  conv_rhs => rw [← List.take_append_drop length bytes]
  unfold readUint32BE
  rw [BigEndian.read_append_left]
  rw [List.length_take_of_le hle]
  exact h

/-- A frame that the mapping cuts is not read. -/
theorem scanBuffer_cut {r : LogRecord} {it : LogIterator} {size : ℕ} (fuel : ℕ)
    (hpos : it.position = pre.length) (hfits : r.Fits) (hstamp : r.timestamp.IsPos)
    (hsize : pre.length < size) (hcut : length < (pre ++ r.frame).length) :
    scanBuffer (mapView (pre ++ (r.frame ++ post)) length) size (fuel + 1) it = (.rangeError, it) := by
  have hlen : (pre ++ (r.frame ++ post)).length = pre.length + 13 + r.data.length + post.length := by
    have h13 : TRANSACTION_LOG_ENTRY_HEADER_SIZE = 13 := rfl
    rw [List.length_append, List.length_append, r.frame_length]
    omega
  have h13 : TRANSACTION_LOG_ENTRY_HEADER_SIZE = 13 := rfl
  rw [List.length_append, r.frame_length] at hcut
  have hlimit : (if it.readUncommitted = true then length else min size length) ≤ length := by
    split_ifs
    · exact le_rfl
    · exact min_le_right _ _
  rw [mapView_take (by omega), scanBuffer]
  simp only [hpos, List.length_take_of_le (show length ≤ (pre ++ (r.frame ++ post)).length by omega)]
  generalize (if it.readUncommitted = true then length else min size length) = limit at hlimit ⊢
  rw [if_neg (by omega)]
  by_cases h8 : length < pre.length + 8
  · rw [if_pos h8]
  have hstop : ¬ (r.timestamp.isZero = true ∨ r.timestamp.isNaN = true) := by
    rw [hstamp.not_zero, hstamp.not_nan]
    simp
  rw [if_neg h8, readDoubleBE_take (by omega) (by omega), frame_timestamp, if_neg hstop]
  by_cases hhead : limit < pre.length + TRANSACTION_LOG_ENTRY_HEADER_SIZE
  · rw [if_pos hhead]
  -- the header is all there, so the declared length is the frame's
  rw [if_neg hhead, readUint32BE_take (by omega) (by omega), frame_size r pre post hfits, if_pos (by omega)]

end Mapping

/-- The loop over a mapping of `length` has taken the records `taken`, the next ones from where it stood. -/
structure Walked (length size : ℕ) (front back : List LogRecord) (it : LogIterator) (r : ScanResult × LogIterator)
    (taken : List LogRecord) : Prop where
  next : taken <+: back
  iterator : r.2 = { it with
    position := TRANSACTION_LOG_FILE_HEADER_SIZE + (frames (front ++ taken)).length
    foundExactStart := r.2.foundExactStart }
  selects : it.selects taken = (r.1.entries, r.2.foundExactStart)
  ended : r.1 = .ended → taken = [] ∧ size ≤ it.position
  passed : r.1 = .passed → it.position < size ∧ size ≤ r.2.position
  not_done : r.1 ≠ .done
  torn : r.1 = .rangeError → length < size ∧ back ≠ []
  reach : r.2.position = it.position ∨ r.2.position ≤ size

/-- The loop has taken nothing. -/
theorem Walked.stay {length size : ℕ} {front back : List LogRecord} {it : LogIterator} {res : ScanResult}
    (hpos : it.position = TRANSACTION_LOG_FILE_HEADER_SIZE + (frames front).length)
    (hres : res = .ended ∧ size ≤ it.position ∨ res = .rangeError ∧ length < size ∧ back ≠ []) :
    Walked length size front back it (res, it) [] := by
  refine ⟨List.nil_prefix, ?_, ?_, fun h => ⟨rfl, ?_⟩, fun h => ?_, fun h => ?_, fun h => ?_, Or.inl rfl⟩
  · rw [List.append_nil, ← hpos]
  · rcases hres with ⟨rfl, -⟩ | ⟨rfl, -⟩ <;> rfl
  · rcases hres with ⟨-, hle⟩ | ⟨rfl, -⟩
    · exact hle
    · cases h
  · rcases hres with ⟨rfl, -⟩ | ⟨rfl, -⟩ <;> cases h
  · rcases hres with ⟨rfl, -⟩ | ⟨rfl, -⟩ <;> cases h
  · rcases hres with ⟨rfl, -⟩ | ⟨-, hlt⟩
    · cases h
    · exact hlt

/-- A limit behind the first records of a file that is past their end is past the next one's. -/
theorem limit_next {front back limit : List LogRecord} (h : limit <+: front ++ back)
    (hlt : (frames front).length < (frames limit).length) :
    ∃ r back', back = r :: back' ∧ (frames (front ++ [r])).length ≤ (frames limit).length := by
  rcases List.prefix_or_prefix_of_prefix h (List.prefix_append front back) with ⟨t, rfl⟩ | ⟨t, rfl⟩
  · rw [frames_append, List.length_append] at hlt
    omega
  · have ht : t <+: back := (List.prefix_append_right_inj front).mp h
    cases t with
    | nil =>
      rw [List.append_nil] at hlt
      omega
    | cons r t =>
      obtain ⟨back', rfl⟩ := ht
      refine ⟨r, t ++ back', rfl, ?_⟩
      rw [show front ++ r :: t = (front ++ [r]) ++ t by rw [List.append_assoc, List.singleton_append],
        frames_append _ t,
        List.length_append]
      omega

theorem scanBuffer_walk {bytes : Bytes} {timestamp : Binary64} {length size : ℕ} {limit : List LogRecord} :
    ∀ (back front : List LogRecord)
    (fuel : ℕ) (it : LogIterator), StampedFile bytes timestamp (front ++ back) → limit <+: front ++ back →
    (size = 0 ∨ size = TRANSACTION_LOG_FILE_HEADER_SIZE + (frames limit).length) →
    it.position = TRANSACTION_LOG_FILE_HEADER_SIZE + (frames front).length → length < it.position + fuel → 0 < fuel →
    ∃ taken, Walked length size front back it (scanBuffer (mapView bytes length) size fuel it) taken := by
  intro back
  induction back with
  | nil =>
    intro front fuel it hw hlimit hsize hpos _ hfuel
    obtain ⟨fuel, rfl⟩ := Nat.exists_eq_succ_of_ne_zero hfuel.ne'
    -- no record is left, so no limit is past the end of the last one
    have hle : size ≤ it.position := by
      by_contra hlt
      obtain ⟨r, back', hnil, -⟩ := limit_next hlimit (by omega)
      cases hnil
    rw [scanBuffer]
    simp only
    rw [if_pos hle]
    exact ⟨[], .stay hpos (Or.inl ⟨rfl, hle⟩)⟩
  | cons r back ih =>
    intro front fuel it hw hlimit hsize hpos hlen hfuel
    obtain ⟨fuel, rfl⟩ := Nat.exists_eq_succ_of_ne_zero hfuel.ne'
    by_cases hend : size ≤ it.position
    · rw [scanBuffer]
      simp only
      rw [if_pos hend]
      exact ⟨[], .stay hpos (Or.inl ⟨rfl, hend⟩)⟩
    have hr : r ∈ front ++ r :: back := List.mem_append_right _ List.mem_cons_self
    have happ : front ++ r :: back = (front ++ [r]) ++ back := by rw [List.append_assoc, List.singleton_append]
    set pre : Bytes := fileHeader timestamp ++ frames front with hpre
    have hprelen : pre.length = TRANSACTION_LOG_FILE_HEADER_SIZE + (frames front).length := by
      rw [hpre, List.length_append, fileHeader_length]
    have hbytes : bytes = pre ++ (r.frame ++ frames back) := by
      rw [hw.eq, hpre, frames_append, frames_cons]
      simp only [List.append_assoc]
    have hnextlen : (pre ++ r.frame).length = TRANSACTION_LOG_FILE_HEADER_SIZE + (frames (front ++ [r])).length := by
      rw [List.length_append, hprelen, frames_append, List.length_append, frames_cons, frames_nil, List.append_nil]
      omega
    obtain ⟨r', back', heq, hnext⟩ := limit_next hlimit (by omega)
    obtain ⟨rfl, rfl⟩ := List.cons.inj heq
    have hfits := hw.fits r hr
    have hstamp := hw.pos r hr
    by_cases hcut : length < (pre ++ r.frame).length
    · rw [hbytes, scanBuffer_cut fuel (hpos.trans hprelen.symm) hfits hstamp (by omega) hcut]
      exact ⟨[], .stay hpos (Or.inr ⟨rfl, by omega, List.cons_ne_nil _ _⟩)⟩
    have hprefix : pre ++ r.frame <+: bytes := ⟨frames back, by rw [hbytes, List.append_assoc]⟩
    obtain ⟨post, hview⟩ := mapView_prefix (not_lt.mp hcut) hprefix
    rw [hview, List.append_assoc, scanBuffer_frame (hpos.trans hprelen.symm) hfits hstamp.not_zero hstamp.not_nan
      (by omega)]
    simp only
    set m := it.matchesRange r.timestamp with hm
    set it' : LogIterator := { it with position := (pre ++ r.frame).length, foundExactStart := m.2 } with hit'
    have hone : it.selects [r] = (if m.1 then [r.yielded] else [], m.2) := rfl
    have hfront : [r] <+: r :: back := ⟨back, rfl⟩
    by_cases hin : m.1 = true
    · rw [if_pos hin]
      refine ⟨[r], hfront, by rw [hit', hnextlen], ?_, fun h => (by cases h), fun h => (by cases h),
        fun h => (by cases h),
        fun h => (by cases h), Or.inr (show (pre ++ r.frame).length ≤ size by omega)⟩
      rw [hone, if_pos hin]
      rfl
    · rw [if_neg hin]
      by_cases hpast : size ≤ (pre ++ r.frame).length
      · rw [if_pos hpast]
        refine ⟨[r], hfront, by rw [hit', hnextlen], ?_, fun h => (by cases h), fun _ => ⟨not_le.mp hend, hpast⟩,
          fun h => (by cases h), fun h => (by cases h), Or.inr (show (pre ++ r.frame).length ≤ size by omega)⟩
        rw [hone, if_neg hin]
        rfl
      · rw [if_neg hpast, ← List.append_assoc, ← hview]
        rw [happ] at hw hlimit
        have hframe := r.frame_length
        have h13 : TRANSACTION_LOG_ENTRY_HEADER_SIZE = 13 := rfl
        have hgrow : (pre ++ r.frame).length = it.position + r.frame.length := by rw [List.length_append, hprelen, hpos]
        have hlen' : length < it'.position + fuel := by
          change length < (pre ++ r.frame).length + fuel
          omega
        obtain ⟨taken, hk⟩ := ih (front ++ [r]) fuel it' hw hlimit hsize hnextlen hlen' (by omega)
        refine ⟨r :: taken, ?_, ?_, ?_, fun h => absurd (hk.ended h).2 hpast,
          fun h => ⟨not_le.mp hend, (hk.passed h).2⟩, hk.not_done,
          fun h => ⟨(hk.torn h).1, List.cons_ne_nil _ _⟩, Or.inr (hk.reach.elim (fun h => ?_) id)⟩
        · exact (List.prefix_cons_inj r).mpr hk.next
        · have heq := hk.iterator
          rw [List.append_assoc, List.singleton_append] at heq
          rw [heq]
        · have hsel := hk.selects
          have hlike : ({ it with foundExactStart := m.2 } : LogIterator).Like it' := ⟨rfl, rfl, rfl, rfl, rfl⟩
          rw [hlike.selects rfl] at hsel
          rw [← List.singleton_append, LogIterator.selects_append, hone, if_neg hin]
          simp only [hsel, List.nil_append]
        · rw [h]
          exact (not_le.mp hpast).le

end RocksdbJs
