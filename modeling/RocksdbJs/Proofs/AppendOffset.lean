import RocksdbJs.Proofs.IndexBounds
import RocksdbJs.Sanity.Recovery

/-! One log file under its four operations. The object's size is where an append believes its
bytes go, the file's length is where `O_APPEND` puts them. The indexing loop is what can part the
two: it takes a zero timestamp for the end of the data and moves the size down to it. -/

namespace RocksdbJs

/-- A log file's object beside the file. -/
structure FileState where
  file : TransactionLogFile
  bytes : Bytes
deriving DecidableEq

inductive FileOp
  | open (latestTimestamp : Binary64) (io : OpenCalls)
  | writeEntries (batch : TransactionLogEntryBatch) (maxFileSize : ℕ) (results : List WritevResult)
  | findPositionByTimestamp (timestamp : Binary64) (mapSize : ℕ) (mmapOk : Bool)
  | recoverTail (io : TransactionLogFile.RecoverCalls)

namespace FileState

/-- An operation that succeeds. The last three are called on an open file. -/
def step (x : FileState) : FileOp → Option FileState
  | .open latestTimestamp io =>
    if io.opened ∧ io.statted ∧ io.readable ∧ io.headerWrites = (4, 1, 8) then
      match x.file.open (some x.bytes) latestTimestamp io with
      | (none, file, disk) => some ⟨file, disk.getD []⟩
      | (some _, _, _) => none
    else none
  | .writeEntries batch maxFileSize results =>
    if x.file.isOpen then
      let r := x.file.writeEntries x.bytes batch maxFileSize results
      match r.outcome, r.error with
      | .written _, none => some ⟨r.file, r.bytes⟩
      | _, _ => none
    else none
  | .findPositionByTimestamp timestamp mapSize mmapOk =>
    if x.file.isOpen then
      match x.file.findPositionByTimestamp x.bytes timestamp mapSize mmapOk with
      | (file, .position _) => some ⟨file, x.bytes⟩
      | (_, _) => none
    else none
  | .recoverTail io =>
    if x.file.isOpen then
      let r := x.file.recoverTail x.bytes io
      some ⟨r.1, r.2⟩
    else none

/-- Neither the file's header nor one of its entries has a zero timestamp. -/
def Stamped (bytes : Bytes) : Prop :=
  (readDoubleBE bytes TRANSACTION_LOG_FILE_TIMESTAMP_POSITION).isZero = false ∧ ∀ r ∈ fileRecords bytes,
    r.timestamp.isZero = false

/-- The condition on a step: the file stays below 4 GiB, and the indexing loop meets no zero
timestamp while nothing was appended. -/
def Ok (x : FileState) : FileOp → Prop
  | .open _ _ => x.bytes.length < UINT32_RANGE
  | .writeEntries batch maxFileSize _ =>
    x.bytes.length + (batch.nextBytes (x.file.numEntriesToWrite batch maxFileSize)).length < UINT32_RANGE
  | .findPositionByTimestamp _ mapSize mmapOk =>
    getMemoryMapLocked mapSize mmapOk = none ∨ x.file.hasAppendedSinceOpen = true ∨ Stamped x.bytes
  | .recoverTail _ => True

instance (bytes : Bytes) : Decidable (Stamped bytes) := inferInstanceAs (Decidable (_ ∧ _))

instance (x : FileState) : (op : FileOp) → Decidable (x.Ok op)
  | .open _ _ => inferInstanceAs (Decidable (_ < _))
  | .writeEntries _ _ _ => inferInstanceAs (Decidable (_ < _))
  | .findPositionByTimestamp _ _ _ => inferInstanceAs (Decidable (_ ∨ _ ∨ _))
  | .recoverTail _ => inferInstanceAs (Decidable True)

end FileState

/-- The places the index's cursor can be at. -/
inductive CursorAt (bytes : Bytes) (rs : List LogRecord) : ℕ → Prop
  | header : CursorAt bytes rs TRANSACTION_LOG_FILE_TIMESTAMP_POSITION
  | entry {front : List LogRecord} (h : front <+: rs) :
      CursorAt bytes rs (TRANSACTION_LOG_FILE_HEADER_SIZE + (frames front).length)
  | past {pos : ℕ} (h : bytes.length ≤ pos) : CursorAt bytes rs pos

theorem read_mapView {bytes : Bytes} {length pos n : ℕ} (hmap : pos + n ≤ (mapView bytes length).length)
    (hpos : pos + n ≤ bytes.length) : BigEndian.read n (mapView bytes length) pos = BigEndian.read n bytes pos := by
  by_cases h : bytes.length ≤ length
  · rw [mapView_whole h]
    exact BigEndian.read_append_left hpos _
  · have hview : mapView bytes length = bytes.take length := by
      rw [mapView, Nat.sub_eq_zero_of_le (not_le.mp h).le, List.replicate_zero, List.append_nil]
    rw [hview] at hmap ⊢
    conv_rhs => rw [← List.take_append_drop length bytes]
    exact (BigEndian.read_append_left hmap _).symm

theorem readDoubleBE_mapView {bytes : Bytes} {length pos : ℕ} (hmap : pos + 8 ≤ (mapView bytes length).length)
    (hpos : pos + 8 ≤ bytes.length) : readDoubleBE (mapView bytes length) pos = readDoubleBE bytes pos := by
  rw [readDoubleBE, readDoubleBE, read_mapView hmap hpos]

namespace TransactionLogFile

/-- What the indexing loop leaves alone. -/
structure IndexOnly (f f' : TransactionLogFile) : Prop where
  isOpen : f'.isOpen = f.isOpen
  version : f'.version = f.version
  appended : f'.hasAppendedSinceOpen = f.hasAppendedSinceOpen
  size : f.hasAppendedSinceOpen = true → f'.size = f.size

theorem IndexOnly.refl (f : TransactionLogFile) : IndexOnly f f := ⟨rfl, rfl, rfl, fun _ => rfl⟩

theorem IndexOnly.trans {f g h : TransactionLogFile} (h1 : IndexOnly f g) (h2 : IndexOnly g h) : IndexOnly f h :=
  ⟨h2.isOpen.trans h1.isOpen, h2.version.trans h1.version, h2.appended.trans h1.appended,
    fun ha => (h2.size (h1.appended.trans ha)).trans (h1.size ha)⟩

theorem indexOnly_reindexed (f : TransactionLogFile) (index : List (Binary64 × ℕ)) (pos : ℕ) :
    IndexOnly f (f.reindexed index pos) := ⟨rfl, rfl, rfl, fun _ => rfl⟩

variable {map : Bytes} {f g : TransactionLogFile}

theorem indexRound_indexOnly {r : (TransactionLogFile × Bool) ⊕ TransactionLogFile} (h : f.indexRound map = .ok r) :
    IndexOnly f (r.elim Prod.fst id) := by
  unfold indexRound at h
  dsimp only at h
  split_ifs at h with h1 h2 h3 h4 h5 h6
  all_goals
    injection h with h
    subst h
  · exact .refl f
  · refine ⟨rfl, rfl, rfl, fun ha => ?_⟩
    rw [ha] at h4
    cases h4
  · exact .refl f
  · exact indexOnly_reindexed f _ _
  · exact indexOnly_reindexed f _ _

theorem indexLoop_error {fuel : ℕ} {e : FindOutcome} (h : f.indexLoop map fuel = .error e) (p : ℕ) :
    e ≠ .position p := by
  induction fuel generalizing f with
  | zero =>
    injection h with h
    rw [← h]
    exact FindOutcome.noConfusion
  | succ fuel ih =>
    rw [indexLoop] at h
    dsimp only at h
    split_ifs at h
    · injection h with h
      rw [← h]
      exact FindOutcome.noConfusion
    · exact ih h
    · injection h with h
      rw [← h]
      exact FindOutcome.noConfusion
    · exact ih h

theorem indexLoop_indexOnly {fuel : ℕ} {r : TransactionLogFile × Bool} (h : f.indexLoop map fuel = .ok r) :
    IndexOnly f r.1 := by
  induction fuel generalizing f with
  | zero => cases h
  | succ fuel ih =>
    rw [indexLoop_succ] at h
    cases hround : f.indexRound map with
    | error e =>
      rw [hround] at h
      cases h
    | ok q =>
      rw [hround] at h
      have honly := indexRound_indexOnly hround
      cases q with
      | inl r' =>
        injection h with h
        exact h ▸ honly
      | inr g => exact honly.trans (ih h)

section
variable {bytes : Bytes} {timestamp : Binary64} {rs : List LogRecord} {length : ℕ}
  (hw : WholeFile bytes timestamp rs) (hlt : bytes.length < UINT32_RANGE) (hheader : timestamp.isZero = false)
  (hstamped : ∀ r ∈ rs, r.timestamp.isZero = false)
include hw hlt hheader hstamped

/-- A round over a whole file without a zero timestamp does not touch the size. -/
theorem indexRound_stamped {r : (TransactionLogFile × Bool) ⊕ TransactionLogFile} (hsize : f.size = bytes.length)
    (hcursor : CursorAt bytes rs f.lastIndexedPosition) (h : f.indexRound (mapView bytes length) = .ok r) :
    (r.elim Prod.fst id).size = bytes.length ∧ CursorAt bytes rs (r.elim Prod.fst id).lastIndexedPosition := by
  by_cases hpast : f.size ≤ f.lastIndexedPosition
  · rw [indexRound_past hpast] at h
    injection h with h
    subst h
    exact ⟨hsize, hcursor⟩
  have h13 : TRANSACTION_LOG_FILE_HEADER_SIZE = 13 := rfl
  have h5 : TRANSACTION_LOG_FILE_TIMESTAMP_POSITION = 5 := rfl
  have hblen := hw.length
  unfold indexRound at h
  dsimp only at h
  rw [if_neg hpast] at h
  by_cases hout : (mapView bytes length).length < f.lastIndexedPosition + 8
  · rw [if_pos hout] at h
    cases h
  rw [if_neg hout] at h
  generalize hpos : f.lastIndexedPosition = pos at hcursor h hout hpast
  cases hcursor with
  | header =>
    have hts : readDoubleBE (mapView bytes length) TRANSACTION_LOG_FILE_TIMESTAMP_POSITION = timestamp := by
      rw [readDoubleBE_mapView (by omega) (by omega), hw.eq, header_timestamp]
    rw [hts, hheader, if_neg Bool.false_ne_true, if_pos rfl] at h
    injection h with h
    subst h
    refine ⟨hsize, ?_⟩
    exact @CursorAt.entry bytes rs [] List.nil_prefix
  | past hle => omega
  | @entry front hfront =>
    obtain ⟨back, rfl⟩ := hfront
    cases back with
    | nil =>
      rw [List.append_nil] at hblen
      omega
    | cons r back =>
      have hr : r ∈ front ++ r :: back := List.mem_append_right _ List.mem_cons_self
      have hbytes : bytes = (fileHeader timestamp ++ frames front) ++ (r.frame ++ frames back) := by
        rw [hw.eq, frames_append, frames_cons, List.append_assoc]
      have hpre : (fileHeader timestamp ++ frames front).length = TRANSACTION_LOG_FILE_HEADER_SIZE +
          (frames front).length := by
        rw [List.length_append, fileHeader_length]
      have hframe := r.frame_length
      have h13' : TRANSACTION_LOG_ENTRY_HEADER_SIZE = 13 := rfl
      have htotal : bytes.length = TRANSACTION_LOG_FILE_HEADER_SIZE + (frames front).length + r.frame.length +
          (frames back).length := by
        rw [hbytes, List.length_append, hpre, List.length_append]
        omega
      have hts : readDoubleBE (mapView bytes length) (TRANSACTION_LOG_FILE_HEADER_SIZE + (frames front).length) =
          r.timestamp := by
        rw [readDoubleBE_mapView (by omega) (by omega), hbytes, ← hpre, frame_timestamp]
      rw [hts, hstamped r hr, if_neg Bool.false_ne_true, if_neg (by omega)] at h
      split_ifs at h with hroom
      injection h with h
      subst h
      refine ⟨hsize, ?_⟩
      have hsz : readUint32BE (mapView bytes length) (TRANSACTION_LOG_FILE_HEADER_SIZE + (frames front).length + 8) =
          r.data.length := by
        rw [readUint32BE, read_mapView (by omega) (by omega), ← readUint32BE, hbytes, ← hpre,
          frame_size r _ _ (hw.fits r hr)]
      have hnext : add32 (TRANSACTION_LOG_FILE_HEADER_SIZE + (frames front).length)
          (add32 TRANSACTION_LOG_ENTRY_HEADER_SIZE r.data.length) =
          TRANSACTION_LOG_FILE_HEADER_SIZE + (frames (front ++ [r])).length := by
        have hgrow : (frames (front ++ [r])).length = (frames front).length + r.frame.length := by
          rw [frames_append, List.length_append, frames_cons, frames_nil, List.append_nil]
        rw [add32, add32, Nat.mod_eq_of_lt (a := TRANSACTION_LOG_ENTRY_HEADER_SIZE + _) (by omega),
          Nat.mod_eq_of_lt (by omega)]
        omega
      change CursorAt bytes _ (add32 _ _)
      rw [hsz, hnext]
      refine .entry ⟨back, ?_⟩
      rw [List.append_assoc, List.singleton_append]

theorem indexLoop_stamped {fuel : ℕ} {r : TransactionLogFile × Bool} (hsize : f.size = bytes.length)
    (hcursor : CursorAt bytes rs f.lastIndexedPosition) (h : f.indexLoop (mapView bytes length) fuel = .ok r) :
    r.1.size = bytes.length ∧ CursorAt bytes rs r.1.lastIndexedPosition := by
  induction fuel generalizing f with
  | zero => cases h
  | succ fuel ih =>
    rw [indexLoop_succ] at h
    cases hround : f.indexRound (mapView bytes length) with
    | error e =>
      rw [hround] at h
      cases h
    | ok q =>
      rw [hround] at h
      have hstep := indexRound_stamped hw hlt hheader hstamped hsize hcursor hround
      cases q with
      | inl r' =>
        injection h with h
        exact h ▸ hstep
      | inr g => exact ih hstep.1 hstep.2 h

end

/-- What a lookup that answers has done: nothing, or run the indexing loop to its end. -/
theorem findPositionByTimestamp_cases {bytes : Bytes} {timestamp : Binary64} {mapSize : ℕ} {mmapOk : Bool} {p : ℕ}
    (h : f.findPositionByTimestamp bytes timestamp mapSize mmapOk = (g, .position p)) :
    (getMemoryMapLocked mapSize mmapOk = none ∧ g = f) ∨
      ∃ length stopped, getMemoryMapLocked mapSize mmapOk = some length ∧
        f.indexLoop (mapView bytes length) (f.size + 2) = .ok (g, stopped) := by
  unfold findPositionByTimestamp at h
  cases hmap : getMemoryMapLocked mapSize mmapOk with
  | none =>
    rw [hmap] at h
    exact Or.inl ⟨rfl, ((Prod.mk.injEq ..).mp h).1.symm⟩
  | some length =>
    rw [hmap] at h
    refine Or.inr ⟨length, ?_⟩
    simp only at h
    cases hloop : f.indexLoop (mapView bytes length) (f.size + 2) with
    | error e =>
      rw [hloop] at h
      exact absurd ((Prod.mk.injEq ..).mp h).2 (indexLoop_error hloop p)
    | ok r =>
      rw [hloop] at h
      simp only at h
      refine ⟨r.2, rfl, ?_⟩
      split at h
      · rw [← ((Prod.mk.injEq ..).mp h).1]
      · rw [← ((Prod.mk.injEq ..).mp h).1]

end TransactionLogFile

namespace FileState

/-- The object of an open file is right about its size, and while nothing was appended its index
ends at a frame. -/
structure Right (x : FileState) : Prop where
  isOpen : x.file.isOpen = true
  version : x.file.version = 1
  size : x.file.size = x.bytes.length
  below : x.bytes.length < UINT32_RANGE
  whole : ∃ timestamp rs, WholeFile x.bytes timestamp rs ∧
    (x.file.hasAppendedSinceOpen = false → CursorAt x.bytes rs x.file.lastIndexedPosition)

/-- The object before the first `open`. -/
structure Fresh (x : FileState) : Prop where
  isOpen : x.file.isOpen = false
  version : x.file.version = 1
  cursor : x.file.lastIndexedPosition = TRANSACTION_LOG_FILE_TIMESTAMP_POSITION
  whole : x.bytes = [] ∨ ∃ timestamp rs, WholeFile x.bytes timestamp rs

variable {x y : FileState}

/-- An `open` of a file that is open reads its header again. -/
theorem open_again {f : TransactionLogFile} {bytes : Bytes} {timestamp latest : Binary64}
    {rs : List LogRecord} {io : OpenCalls} (hio : io.Succeeds) (hopen : f.isOpen = true)
    (hsize : f.size = bytes.length) (hw : WholeFile bytes timestamp rs) :
    f.open (some bytes) latest io = (none, { f with
      fileLastWriteTime := io.mtime.getD io.now, version := 1, timestamp := timestamp }, some bytes) := by
  obtain ⟨-, -, hr, -⟩ := hio
  have hlen := hw.length
  have h13 : TRANSACTION_LOG_FILE_HEADER_SIZE = 13 := rfl
  have hne : bytes.length ≠ 0 := by omega
  have hge : ¬ bytes.length < TRANSACTION_LOG_FILE_HEADER_SIZE := by omega
  have htoken : readUint32BE bytes 0 = TRANSACTION_LOG_TOKEN := by rw [hw.eq, header_token]
  have hversion : readUint8 bytes 4 = 1 := by rw [hw.eq, header_version]
  have htime : readDoubleBE bytes TRANSACTION_LOG_FILE_TIMESTAMP_POSITION = timestamp := by rw [hw.eq, header_timestamp]
  simp only [TransactionLogFile.open, TransactionLogFile.openFile, hopen, if_true, TransactionLogFile.readHeader,
    Option.getD_some,
    hsize, hne, hge, hr, htoken, hversion, htime, if_false, Bool.not_true, Bool.false_eq_true, ne_eq, not_true_eq_false]

theorem step_open {latestTimestamp : Binary64} {io : OpenCalls} (h : x.step (.open latestTimestamp io) = some y) :
    io.Succeeds ∧ x.file.open (some x.bytes) latestTimestamp io = (none, y.file, some y.bytes) := by
  simp only [step] at h
  split_ifs at h with hio
  refine ⟨hio, ?_⟩
  split at h
  · rename_i file disk hopen
    obtain rfl := Option.some.inj h
    have hsome : ∃ bytes, disk = some bytes := by
      unfold TransactionLogFile.open at hopen
      split at hopen
      · cases hopen
      · exact ⟨_, ((Prod.mk.injEq ..).mp ((Prod.mk.injEq ..).mp hopen).2).2.symm⟩
    obtain ⟨bytes, rfl⟩ := hsome
    exact hopen
  · cases h

theorem Fresh.open (h : Fresh x) {latestTimestamp : Binary64} {io : OpenCalls} (hlt : x.bytes.length < UINT32_RANGE)
    (hstep : x.step (.open latestTimestamp io) = some y) : Right y := by
  obtain ⟨file, bytes⟩ := y
  obtain ⟨hio, hopen⟩ := step_open hstep
  rcases h.whole with hempty | ⟨timestamp, rs, hw⟩
  · rw [open_empty hio h.isOpen h.version (by rw [hempty, Option.getD_some])] at hopen
    simp only [Prod.mk.injEq, Option.some.injEq, true_and] at hopen
    obtain ⟨rfl, rfl⟩ := hopen
    refine ⟨rfl, h.version, (fileHeader_length _).symm, ?_, latestTimestamp, [], wholeFile_header _, fun _ => ?_⟩
    · rw [fileHeader_length]
      decide
    · change CursorAt _ _ x.file.lastIndexedPosition
      rw [h.cursor]
      exact .header
  · rw [open_headed hio h.isOpen hw.eq hlt] at hopen
    simp only [Prod.mk.injEq, Option.some.injEq, true_and] at hopen
    obtain ⟨rfl, rfl⟩ := hopen
    refine ⟨rfl, rfl, rfl, hlt, timestamp, rs, hw, fun _ => ?_⟩
    change CursorAt _ _ x.file.lastIndexedPosition
    rw [h.cursor]
    exact .header

theorem Right.open (h : Right x) {latestTimestamp : Binary64} {io : OpenCalls}
    (hstep : x.step (.open latestTimestamp io) = some y) : Right y := by
  obtain ⟨file, bytes⟩ := y
  obtain ⟨hio, hopen⟩ := step_open hstep
  obtain ⟨timestamp, rs, hw, hcursor⟩ := h.whole
  rw [open_again hio h.isOpen h.size hw] at hopen
  simp only [Prod.mk.injEq, Option.some.injEq, true_and] at hopen
  obtain ⟨rfl, rfl⟩ := hopen
  exact ⟨h.isOpen, rfl, h.size, h.below, timestamp, rs, hw, hcursor⟩

theorem Right.writeEntries (h : Right x) {batch : TransactionLogEntryBatch} {maxFileSize : ℕ}
    {results : List WritevResult} (hok : x.Ok (.writeEntries batch maxFileSize results))
    (hstep : x.step (.writeEntries batch maxFileSize results) = some y) :
    Right y := by
  obtain ⟨timestamp, rs, hw, -⟩ := h.whole
  simp only [step, h.isOpen, if_true] at hstep
  have hreturns : (x.file.writeEntries x.bytes batch maxFileSize results).outcome ≠ .blocked := by
    intro hblocked
    rw [hblocked] at hstep
    cases hstep
  rcases writeEntries_cases x.file x.bytes batch maxFileSize results hreturns with
    ⟨hv, -⟩ | ⟨-, -, hr⟩ | ⟨-, -, -, part, -, hr⟩ | ⟨-, -, -, hr⟩
  · exact absurd h.version hv
  · simp only [hr, Option.some.injEq] at hstep
    subst hstep
    exact ⟨h.isOpen, h.version, h.size, h.below, timestamp, rs, hw, fun ha => nomatch ha⟩
  · simp only [hr] at hstep
    cases hstep
  · simp only [hr, Option.some.injEq] at hstep
    subst hstep
    simp only [Ok] at hok
    have hlen : (x.bytes ++ batch.nextBytes (x.file.numEntriesToWrite batch maxFileSize)).length < UINT32_RANGE := by
      rw [List.length_append]
      exact hok
    refine ⟨h.isOpen, h.version, ?_, hlen, timestamp, _, hw.append fun r hr' =>
      records_fit batch r (List.mem_of_mem_drop (List.mem_of_mem_take hr')), fun ha => nomatch ha⟩
    change add32 x.file.size _ = _
    rw [h.size, add32, Nat.mod_eq_of_lt hok, List.length_append]

theorem Right.findPositionByTimestamp (h : Right x) {timestamp : Binary64} {mapSize : ℕ} {mmapOk : Bool}
    (hok : x.Ok (.findPositionByTimestamp timestamp mapSize mmapOk))
    (hstep : x.step (.findPositionByTimestamp timestamp mapSize mmapOk) = some y) : Right y := by
  obtain ⟨headerTimestamp, rs, hw, hcursor⟩ := h.whole
  simp only [step, h.isOpen, if_true] at hstep
  split at hstep
  case h_2 => cases hstep
  rename_i file p hfind
  obtain rfl := Option.some.inj hstep
  rcases TransactionLogFile.findPositionByTimestamp_cases hfind with ⟨-, rfl⟩ | ⟨length, stopped, hmap, hloop⟩
  · exact h
  have honly := TransactionLogFile.indexLoop_indexOnly hloop
  by_cases happended : x.file.hasAppendedSinceOpen = true
  · refine ⟨honly.isOpen.trans h.isOpen, honly.version.trans h.version, (honly.size happended).trans h.size, h.below,
      headerTimestamp, rs, hw, fun ha => ?_⟩
    rw [honly.appended, happended] at ha
    cases ha
  · rcases hok with hnone | ha | ⟨hheader, hstamped⟩
    · rw [hmap] at hnone
      cases hnone
    · exact absurd ha happended
    rw [hw.eq, header_timestamp] at hheader
    rw [hw.records] at hstamped
    obtain ⟨hsize, hcursor'⟩ := TransactionLogFile.indexLoop_stamped hw h.below hheader hstamped h.size
      (hcursor (Bool.not_eq_true _ ▸ happended)) hloop
    exact ⟨honly.isOpen.trans h.isOpen, honly.version.trans h.version, hsize, h.below, headerTimestamp, rs, hw,
      fun _ => hcursor'⟩

theorem Right.recoverTail (h : Right x) {io : TransactionLogFile.RecoverCalls}
    (hstep : x.step (.recoverTail io) = some y) : Right y := by
  obtain ⟨timestamp, rs, hw, hcursor⟩ := h.whole
  simp only [step, h.isOpen, if_true, Option.some.injEq] at hstep
  obtain ⟨front, ⟨hfront, -⟩, hfits, hlt, hr⟩ := recoversTo_whole hw h.below io x.file h.version h.size
  rw [hr] at hstep
  subst hstep
  refine ⟨h.isOpen, h.version, rfl, hlt, timestamp, front, ⟨rfl, hfits⟩, fun ha => ?_⟩
  -- the cursor is at a frame that is left, or behind the cut
  change CursorAt (fileHeader timestamp ++ frames front) front x.file.lastIndexedPosition
  have hlen : (fileHeader timestamp ++ frames front).length = TRANSACTION_LOG_FILE_HEADER_SIZE +
      (frames front).length := by
    rw [List.length_append, fileHeader_length]
  obtain ⟨back, rfl⟩ := hfront
  have hwlen := hw.length
  rw [frames_append, List.length_append] at hwlen
  generalize x.file.lastIndexedPosition = pos at hcursor
  cases hcursor ha with
  | header => exact .header
  | past hle => exact .past (by omega)
  | @entry done hdone =>
    rcases List.prefix_or_prefix_of_prefix hdone (List.prefix_append front back) with hle | ⟨more, rfl⟩
    · exact .entry hle
    · refine .past ?_
      rw [hlen, frames_append, List.length_append]
      omega

/-- What holds of the object before and after the first `open`. -/
def Inv (x : FileState) : Prop := Fresh x ∨ Right x

theorem step_right (h : Inv x) {op : FileOp} (hok : x.Ok op) (hstep : x.step op = some y) : Right y := by
  rcases h with h | h
  · cases op with
    | «open» latestTimestamp io => exact h.open hok hstep
    | writeEntries | findPositionByTimestamp | recoverTail => simp [step, h.isOpen] at hstep
  · cases op with
    | «open» latestTimestamp io => exact h.open hstep
    | writeEntries batch maxFileSize results => exact h.writeEntries hok hstep
    | findPositionByTimestamp timestamp mapSize mmapOk => exact h.findPositionByTimestamp hok hstep
    | recoverTail io => exact h.recoverTail hstep

/-- Along operations that all meet the condition, the size is the length of the file after each. -/
theorem size_append_offset {seq : ℕ} {bytes : Bytes} {ops : List FileOp} {op : FileOp}
    (hfile : bytes = [] ∨ ∃ timestamp rs, WholeFile bytes timestamp rs)
    (hok : Runs.Along step Ok ⟨{ sequenceNumber := seq }, bytes⟩ (ops ++ [op]))
    (hrun : Runs.exec step ⟨{ sequenceNumber := seq }, bytes⟩ (ops ++ [op]) = some y) :
    y.file.size = y.bytes.length := by
  have hstart : Inv ⟨{ sequenceNumber := seq }, bytes⟩ := Or.inl ⟨rfl, rfl, rfl, hfile⟩
  rw [Runs.exec_append, Option.bind_eq_some_iff] at hrun
  obtain ⟨x, hx, hlast⟩ := hrun
  obtain ⟨hfront, hback⟩ := hok.append hx
  have hinv : Inv x := Runs.exec_invariant (fun s a t hs ho ht => Or.inr (step_right hs ho ht)) hstart hfront hx
  obtain ⟨t, ht, hnil⟩ := Runs.exec_cons.mp hlast
  obtain rfl := Option.some.inj hnil
  exact (step_right hinv hback.1 ht).size

/-- A new file is opened and looked into. -/
def openedOps (latestTimestamp : Binary64) : List FileOp :=
  [.open latestTimestamp {}, .findPositionByTimestamp ⟨9⟩ 200 true]

def appendOp : FileOp := .writeEntries ⟨⟨6⟩, [oneByteEntry 7], 0⟩ 200 [.count 14]

theorem size_append_offset_newFile :
    ∃ y, Runs.exec step ⟨{ sequenceNumber := 1 }, []⟩ (openedOps ⟨5⟩ ++ [appendOp]) = some y ∧
    y.bytes.length = 27 ∧ y.file.size = y.bytes.length := by
  have hrun := Runs.exec_final step ⟨{ sequenceNumber := 1 }, []⟩ (openedOps ⟨5⟩ ++ [appendOp]) (by decide +kernel)
  exact ⟨_, hrun, by decide +kernel, size_append_offset (Or.inl rfl) (by decide +kernel) hrun⟩

/-- A file left empty by a crash gets a header with timestamp 0 when a store is loaded. A lookup
then takes the header for the end of the data, and the next entry is 8 bytes behind the size. -/
theorem size_behind_append : ¬ ∀ (seq : ℕ) (bytes : Bytes) (ops : List FileOp) (op : FileOp) (y : FileState),
    (bytes = [] ∨ ∃ timestamp rs, WholeFile bytes timestamp rs) →
    Runs.exec step ⟨{ sequenceNumber := seq }, bytes⟩ (ops ++ [op]) = some y → y.file.size = y.bytes.length := by
  intro h
  have hrun := Runs.exec_final step ⟨{ sequenceNumber := 1 }, []⟩ (openedOps Binary64.zero ++
    [appendOp]) (by decide +kernel)
  exact absurd (h 1 [] _ _ _ (Or.inl rfl) hrun) (by decide +kernel)

end FileState

end RocksdbJs
