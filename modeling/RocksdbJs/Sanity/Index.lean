import RocksdbJs.Sanity.Frames
import RocksdbJs.Sanity.Append
import RocksdbJs.Spec.LogStore

/-! The timestamp index of one log file. It holds the header's timestamp at position zero and
then the running maxima of the entries, so every entry is covered by an index entry at or
before it whose timestamp is at least as high. -/

namespace RocksdbJs

/-- Records with the offsets of their frames, the first at `offset`. -/
def located : ℕ → List LogRecord → List (ℕ × LogRecord)
  | _, [] => []
  | offset, r :: rs => (offset, r) :: located (offset + r.frame.length) rs

theorem located_append (offset : ℕ) (rs rs' : List LogRecord) :
    located offset (rs ++ rs') = located offset rs ++ located (offset + (frames rs).length) rs' := by
  induction rs generalizing offset with
  | nil => rfl
  | cons r rs ih =>
    rw [List.cons_append, located, located, List.cons_append, ih, frames_cons, List.length_append, Nat.add_assoc]

theorem located_mem {offset : ℕ} {rs : List LogRecord} : ∀ x ∈ located offset rs, x.2 ∈ rs ∧ offset ≤ x.1 := by
  induction rs generalizing offset with
  | nil => exact fun x hx => by cases hx
  | cons r rs ih =>
    intro x hx
    rcases List.mem_cons.mp hx with rfl | hx
    · exact ⟨List.mem_cons_self, le_rfl⟩
    · obtain ⟨h1, h2⟩ := ih x hx
      exact ⟨List.mem_cons_of_mem _ h1, by omega⟩

/-- Whole frames whose timestamps, the header's included, are all positive. -/
structure StampedFile (bytes : Bytes) (timestamp : Binary64) (rs : List LogRecord) :
    Prop extends WholeFile bytes timestamp rs where
  header_pos : timestamp.IsPos
  pos : ∀ r ∈ rs, r.timestamp.IsPos

/-- The index covers the records `front`, which are the first of the file. -/
structure Covers (index : List (Binary64 × ℕ)) (timestamp : Binary64) (front : List LogRecord) : Prop where
  head : ∃ rest, index = (timestamp, 0) :: rest ∧ ∀ e ∈ rest, TRANSACTION_LOG_FILE_HEADER_SIZE ≤ e.2
  sorted : index.Pairwise fun a b => a.2 ≤ b.2
  below : ∀ e ∈ index, e.2 < TRANSACTION_LOG_FILE_HEADER_SIZE + (frames front).length
  not_nan : ∀ e ∈ index, e.1.isNaN = false
  cover : ∀ x ∈ located TRANSACTION_LOG_FILE_HEADER_SIZE front, ∃ e ∈ index, e.2 ≤ x.1 ∧ x.2.timestamp.key ≤ e.1.key

theorem covers_header {timestamp : Binary64} (h : timestamp.IsPos) : Covers [(timestamp, 0)] timestamp [] := by
  refine ⟨⟨[], rfl, fun e he => by cases he⟩, List.pairwise_singleton _ _, fun e he => ?_, fun e he => ?_,
    fun x hx => by cases hx⟩
  · rw [List.mem_singleton] at he
    subst he
    exact Nat.zero_lt_succ _
  · rw [List.mem_singleton] at he
    subst he
    exact h.not_nan

/-- What the indexing loop makes of the index at an entry with `entryTimestamp`. -/
def indexAdd (index : List (Binary64 × ℕ)) (entryTimestamp : Binary64) (pos : ℕ) : List (Binary64 × ℕ) :=
  match index.getLast? with
  | some last => if Binary64.lt last.1 entryTimestamp then index ++ [(entryTimestamp, pos)] else index
  | none => index

theorem Covers.add {index : List (Binary64 × ℕ)} {timestamp : Binary64} {front : List LogRecord} {r : LogRecord}
    (h : Covers index timestamp front) (hr : r.timestamp.IsPos) :
    Covers (indexAdd index r.timestamp (TRANSACTION_LOG_FILE_HEADER_SIZE + (frames front).length)) timestamp
      (front ++ [r]) := by
  obtain ⟨rest, hhead, hrest⟩ := h.head
  have hlen := r.frame_length
  have h13 : TRANSACTION_LOG_ENTRY_HEADER_SIZE = 13 := rfl
  have hgrow : (frames (front ++ [r])).length = (frames front).length + r.frame.length := by
    rw [frames_append, List.length_append, frames_cons, frames_nil, List.append_nil]
  have hlocated : ∀ x ∈ located TRANSACTION_LOG_FILE_HEADER_SIZE (front ++ [r]),
      x ∈ located TRANSACTION_LOG_FILE_HEADER_SIZE front ∨
        x = (TRANSACTION_LOG_FILE_HEADER_SIZE + (frames front).length, r) := by
    intro x hx
    rw [located_append] at hx
    exact (List.mem_append.mp hx).imp_right List.mem_singleton.mp
  have hne : index ≠ [] := by
    rw [hhead]
    exact List.cons_ne_nil _ _
  have hlast := List.getLast?_eq_some_getLast hne
  set last := index.getLast hne
  have hmem : last ∈ index := List.getLast_mem hne
  rw [indexAdd, hlast]
  simp only
  by_cases hlt : Binary64.lt last.1 r.timestamp = true
  · rw [if_pos hlt]
    refine ⟨⟨rest ++ [(r.timestamp, TRANSACTION_LOG_FILE_HEADER_SIZE + (frames front).length)], by rw [hhead]; rfl,
      fun e he => ?_⟩,
      List.pairwise_append.mpr ⟨h.sorted, List.pairwise_singleton _ _, fun a ha b hb => ?_⟩,
      fun e he => ?_, fun e he => ?_,
      fun x hx => ?_⟩
    · rcases List.mem_append.mp he with he | he
      · exact hrest e he
      · rw [List.mem_singleton.mp he]
        exact Nat.le_add_right _ _
    · rw [List.mem_singleton.mp hb]
      exact (h.below a ha).le
    · rcases List.mem_append.mp he with he | he
      · have := h.below e he
        omega
      · rw [List.mem_singleton.mp he, hgrow]
        omega
    · rcases List.mem_append.mp he with he | he
      · exact h.not_nan e he
      · rw [List.mem_singleton.mp he]
        exact hr.not_nan
    · rcases hlocated x hx with hx | rfl
      · obtain ⟨e, he, hle⟩ := h.cover x hx
        exact ⟨e, List.mem_append_left _ he, hle⟩
      · exact ⟨_, List.mem_append_right _ (List.mem_singleton_self _), le_rfl, le_rfl⟩
  · rw [if_neg hlt]
    refine ⟨⟨rest, hhead, hrest⟩, h.sorted, fun e he => ?_, h.not_nan, fun x hx => ?_⟩
    · have := h.below e he
      omega
    · rcases hlocated x hx with hx | rfl
      · exact h.cover x hx
      · -- the last running maximum is at least as high
        refine ⟨last, hmem, (h.below last hmem).le, ?_⟩
        rw [Binary64.lt_iff (h.not_nan last hmem) hr.not_nan] at hlt
        exact not_lt.mp hlt

/-- A file's object is right about its size and its index covers a first part of its records. -/
structure Indexed (f : TransactionLogFile) (bytes : Bytes) (timestamp : Binary64) (rs : List LogRecord) : Prop where
  size : f.size = bytes.length
  index : (f.positionByTimestampIndex = [] ∧ f.lastIndexedPosition = TRANSACTION_LOG_FILE_TIMESTAMP_POSITION) ∨
    ∃ front back, rs = front ++ back ∧
      f.lastIndexedPosition = TRANSACTION_LOG_FILE_HEADER_SIZE + (frames front).length ∧
      Covers f.positionByTimestampIndex timestamp front

/-- The object with another index. -/
def TransactionLogFile.reindexed (f : TransactionLogFile) (index : List (Binary64 × ℕ)) (lastIndexedPosition : ℕ) :
    TransactionLogFile :=
  { f with positionByTimestampIndex := index, lastIndexedPosition := lastIndexedPosition }

theorem mapView_whole {bytes : Bytes} {length : ℕ} (h : bytes.length ≤ length) :
    mapView bytes length = bytes ++ List.replicate (length - bytes.length) 0 := by
  rw [mapView, List.take_of_length_le h]

theorem mapView_length {bytes : Bytes} {length : ℕ} (h : bytes.length ≤ length) :
    (mapView bytes length).length = length := by
  rw [mapView_whole h, List.length_append, List.length_replicate]
  omega

section
variable {bytes : Bytes} {timestamp : Binary64} {rs : List LogRecord} {length : ℕ}

/-- The loop runs over the frames that are left and indexes them all. -/
theorem indexLoop_frames (hlen : bytes.length ≤ length) (hlt : bytes.length < UINT32_RANGE) :
    ∀ (back front : List LogRecord) (f : TransactionLogFile) (fuel : ℕ), StampedFile bytes timestamp (front ++ back) →
      f.size = bytes.length → f.lastIndexedPosition = TRANSACTION_LOG_FILE_HEADER_SIZE + (frames front).length →
      Covers f.positionByTimestampIndex timestamp front → back.length < fuel →
      ∃ index, f.indexLoop (mapView bytes length) fuel = .ok (f.reindexed index bytes.length, false) ∧
        Covers index timestamp (front ++ back) := by
  intro back
  induction back with
  | nil =>
    intro front f fuel hw hsize hpos hcovers hfuel
    rw [List.append_nil] at hw ⊢
    obtain ⟨fuel, rfl⟩ := Nat.exists_eq_succ_of_ne_zero (Nat.pos_iff_ne_zero.mp hfuel)
    have hend : f.lastIndexedPosition = bytes.length := hpos.trans hw.length.symm
    refine ⟨f.positionByTimestampIndex, ?_, hcovers⟩
    rw [TransactionLogFile.indexLoop]
    simp only
    rw [if_pos (by omega), TransactionLogFile.reindexed, ← hend]
  | cons r back ih =>
    intro front f fuel hw hsize hpos hcovers hfuel
    obtain ⟨fuel, rfl⟩ := Nat.exists_eq_succ_of_ne_zero (show fuel ≠ 0 by omega)
    have hr : r ∈ front ++ r :: back := List.mem_append_right _ List.mem_cons_self
    have hrpos := hw.pos r hr
    -- the frame of `r` in the mapping
    have hbytes : bytes = (fileHeader timestamp ++ frames front) ++ (r.frame ++ frames back) := by
      rw [hw.eq, frames_append, frames_cons, List.append_assoc]
    have hpre : f.lastIndexedPosition = (fileHeader timestamp ++ frames front).length := by
      rw [hpos, List.length_append, fileHeader_length]
    have hview : mapView bytes length = (fileHeader timestamp ++ frames front) ++
        (r.frame ++ (frames back ++ List.replicate (length - bytes.length) 0)) := by
      rw [mapView_whole hlen]
      nth_rewrite 1 [hbytes]
      simp only [List.append_assoc]
    have htotal : bytes.length = f.lastIndexedPosition + r.frame.length + (frames back).length := by
      rw [hpre]
      nth_rewrite 1 [hbytes]
      simp only [List.length_append]
      omega
    have hframe := r.frame_length
    have h13 : TRANSACTION_LOG_ENTRY_HEADER_SIZE = 13 := rfl
    have h13' : TRANSACTION_LOG_FILE_HEADER_SIZE = 13 := rfl
    have h5 : TRANSACTION_LOG_FILE_TIMESTAMP_POSITION = 5 := rfl
    have hts : readDoubleBE (mapView bytes length) f.lastIndexedPosition = r.timestamp := by
      rw [hview, hpre, frame_timestamp]
    have hsz : readUint32BE (mapView bytes length) (f.lastIndexedPosition + 8) = r.data.length := by
      rw [hview, hpre, frame_size r _ _ (hw.fits r hr)]
    have hmap := mapView_length hlen
    have hnext : add32 f.lastIndexedPosition (add32 TRANSACTION_LOG_ENTRY_HEADER_SIZE r.data.length) =
        TRANSACTION_LOG_FILE_HEADER_SIZE + (frames (front ++ [r])).length := by
      have hgrow : (frames (front ++ [r])).length = (frames front).length + r.frame.length := by
        rw [frames_append, List.length_append, frames_cons, frames_nil, List.append_nil]
      rw [add32, add32, Nat.mod_eq_of_lt (a := TRANSACTION_LOG_ENTRY_HEADER_SIZE + _) (by omega),
        Nat.mod_eq_of_lt (by omega)]
      omega
    have hw' : StampedFile bytes timestamp ((front ++ [r]) ++ back) := by rwa [List.append_assoc, List.singleton_append]
    obtain ⟨index, hloop, hcov⟩ := ih (front ++ [r]) (f.reindexed (indexAdd f.positionByTimestampIndex r.timestamp
      f.lastIndexedPosition) (TRANSACTION_LOG_FILE_HEADER_SIZE + (frames (front ++ [r])).length)) fuel hw' hsize rfl
      (by rw [hpos]; exact hcovers.add hrpos) (by rw [List.length_cons] at hfuel; omega)
    refine ⟨index, ?_, by rwa [List.append_assoc, List.singleton_append] at hcov⟩
    have hz : r.timestamp.isZero = false := hrpos.not_zero
    rw [TransactionLogFile.indexLoop]
    simp only
    rw [if_neg (by omega), if_neg (by omega), hts, hz, if_neg Bool.false_ne_true, if_neg (by omega),
      if_neg (by omega), hsz, hnext]
    exact hloop

/-- The whole loop, from wherever the index is. -/
theorem indexLoop_spec (hw : StampedFile bytes timestamp rs) (hlen : bytes.length ≤ length)
    (hlt : bytes.length < UINT32_RANGE) {f : TransactionLogFile} (hf : Indexed f bytes timestamp rs) :
    ∃ index, f.indexLoop (mapView bytes length) (f.size + 2) = .ok (f.reindexed index bytes.length, false) ∧
      Covers index timestamp rs := by
  have hrs : rs.length ≤ bytes.length := by
    rw [hw.length]
    exact (frames_length_ge rs).trans (Nat.le_add_left _ _)
  rcases hf.index with ⟨hindex, hpos⟩ | ⟨front, back, rfl, hpos, hcovers⟩
  · have h13 : TRANSACTION_LOG_FILE_HEADER_SIZE = 13 := rfl
    have h5 : TRANSACTION_LOG_FILE_TIMESTAMP_POSITION = 5 := rfl
    have hblen := hw.length
    have hmap := mapView_length hlen
    have hts : readDoubleBE (mapView bytes length) TRANSACTION_LOG_FILE_TIMESTAMP_POSITION = timestamp := by
      rw [mapView_whole hlen]
      nth_rewrite 1 [hw.eq]
      rw [List.append_assoc]
      exact header_timestamp _ _
    obtain ⟨index, hloop, hcov⟩ := indexLoop_frames hlen hlt rs []
      (f.reindexed [(timestamp, 0)] TRANSACTION_LOG_FILE_HEADER_SIZE)
      (f.size + 1) hw hf.size (by simp [TransactionLogFile.reindexed]) (covers_header hw.header_pos)
      (by rw [hf.size]; omega)
    refine ⟨index, ?_, hcov⟩
    rw [TransactionLogFile.indexLoop]
    simp only
    rw [hpos, if_neg (by rw [hf.size]; omega), if_neg (by omega), hts, hw.header_pos.not_zero,
      if_neg Bool.false_ne_true, if_pos rfl]
    exact hloop
  · refine indexLoop_frames hlen hlt back front f (f.size + 2) hw hf.size hpos hcovers ?_
    rw [List.length_append] at hrs
    rw [hf.size]
    omega

/-- What a lookup in one file says about its entries. -/
inductive Finds (timestamp : Binary64) (rs : List LogRecord) (t : Binary64) : ℕ → Prop
  /-- The lookup has to go on in the file before. -/
  | before (h : Binary64.lt timestamp t = false) : Finds timestamp rs t 0
  | inside {p : ℕ} (h : Binary64.lt timestamp t = true) (hge : TRANSACTION_LOG_FILE_HEADER_SIZE ≤ p)
      (hlt : p < TRANSACTION_LOG_FILE_HEADER_SIZE + (frames rs).length)
      (hall : ∀ x ∈ located TRANSACTION_LOG_FILE_HEADER_SIZE rs, Binary64.ge x.2.timestamp t = true → p ≤ x.1) :
      Finds timestamp rs t p
  | after (h : Binary64.lt timestamp t = true)
      (hall : ∀ x ∈ located TRANSACTION_LOG_FILE_HEADER_SIZE rs, Binary64.ge x.2.timestamp t = false) :
      Finds timestamp rs t NOT_IN_FILE

theorem not_lt_of_ge {x y t : Binary64} (hy : y.isNaN = false) (hge : Binary64.ge x t = true) (hle : x.key ≤ y.key) :
    Binary64.lt y t = false := by
  simp only [Binary64.ge, Bool.and_eq_true, Bool.not_eq_true', decide_eq_true_eq] at hge
  rw [Bool.eq_false_iff, Ne, Binary64.lt_iff hy hge.1.2]
  omega

theorem lowerBound_finds {index : List (Binary64 × ℕ)} (h : Covers index timestamp rs) (t : Binary64) :
    Finds timestamp rs t ((TransactionLogFile.lowerBound index t).getD NOT_IN_FILE) := by
  obtain ⟨rest, hhead, hrest⟩ := h.head
  -- an entry from `t` on is covered by a key from `t` on
  have hkey : ∀ x ∈ located TRANSACTION_LOG_FILE_HEADER_SIZE rs, Binary64.ge x.2.timestamp t = true →
      ∃ e ∈ index, e.2 ≤ x.1 ∧ Binary64.lt e.1 t = false := by
    intro x hx hge
    obtain ⟨e, he, hle, hk⟩ := h.cover x hx
    exact ⟨e, he, hle, not_lt_of_ge (h.not_nan e he) hge hk⟩
  unfold TransactionLogFile.lowerBound
  cases hfind : index.find? (fun e => !Binary64.lt e.1 t) with
  | none =>
    have hall : ∀ e ∈ index, Binary64.lt e.1 t = true := by
      intro e he
      simpa using List.find?_eq_none.mp hfind e he
    refine Finds.after (hall (timestamp, 0) (by rw [hhead]; exact List.mem_cons_self)) fun x hx => ?_
    refine Bool.eq_false_iff.mpr fun hge => ?_
    obtain ⟨e, he, -, hno⟩ := hkey x hx hge
    rw [hall e he] at hno
    cases hno
  | some e0 =>
    obtain ⟨hsat, front, back, hindex, hfront⟩ := List.find?_eq_some_iff_append.mp hfind
    rw [Option.map_some, Option.getD_some]
    have hle : ∀ x ∈ located TRANSACTION_LOG_FILE_HEADER_SIZE rs, Binary64.ge x.2.timestamp t = true → e0.2 ≤ x.1 := by
      intro x hx hge
      obtain ⟨e, he, hle, hno⟩ := hkey x hx hge
      rw [hindex] at he
      rcases List.mem_append.mp he with he | he
      · have := hfront e he
        rw [hno] at this
        cases this
      · rcases List.mem_cons.mp he with rfl | he
        · exact hle
        · have hsorted := h.sorted
          rw [hindex] at hsorted
          exact ((List.pairwise_cons.mp (List.pairwise_append.mp hsorted).2.1).1 e he).trans hle
    cases front with
    | nil =>
      rw [hhead, List.nil_append, List.cons.injEq] at hindex
      obtain ⟨rfl, -⟩ := hindex
      exact Finds.before (by simpa using hsat)
    | cons e front =>
      rw [hhead, List.cons_append, List.cons.injEq] at hindex
      obtain ⟨rfl, rfl⟩ := hindex
      have hmem : e0 ∈ front ++ e0 :: back := List.mem_append_right _ List.mem_cons_self
      refine Finds.inside ?_ (hrest e0 hmem) (h.below e0 (by rw [hhead]; exact List.mem_cons_of_mem _ hmem)) hle
      simpa using hfront (timestamp, 0) List.mem_cons_self

/-- A lookup in a file that the mapping covers. -/
theorem findPosition_finds (hw : StampedFile bytes timestamp rs) (hlen : bytes.length ≤ length)
    (hlt : bytes.length < UINT32_RANGE) {f : TransactionLogFile} (hf : Indexed f bytes timestamp rs)
    (t : Binary64) :
    ∃ index p, f.findPositionByTimestamp bytes t length true = (f.reindexed index bytes.length, .position p) ∧
      Covers index timestamp rs ∧ Finds timestamp rs t p := by
  obtain ⟨index, hloop, hcov⟩ := indexLoop_spec hw hlen hlt hf
  have h13 : TRANSACTION_LOG_FILE_HEADER_SIZE = 13 := rfl
  have hne : length ≠ 0 := by
    have := hw.length
    omega
  refine ⟨index, _, ?_, hcov, lowerBound_finds hcov t⟩
  unfold TransactionLogFile.findPositionByTimestamp getMemoryMapLocked
  rw [if_neg hne, if_pos rfl]
  simp only [hloop, TransactionLogFile.reindexed]
  cases TransactionLogFile.lowerBound index t <;> rfl

end

end RocksdbJs
