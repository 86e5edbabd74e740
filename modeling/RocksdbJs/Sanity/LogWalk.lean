import RocksdbJs.Sanity.Iterators
import RocksdbJs.Sanity.Index
import RocksdbJs.Sanity.Reader
import RocksdbJs.Sanity.Recovery

/-! A reader that walks a log nobody writes to, from the header of file `first` to the end of file
`last`. It opens no file of these, maps each of them once, and goes on to the next one at the end
that it knows for the last. Where it reads what is not committed yet it finds that last file by
asking every file for its size, from the watermark's on. -/

namespace RocksdbJs

open TransactionLogStore

/-- The length of a file of whole frames. -/
def fileLength (rs : List LogRecord) : ℕ := TRANSACTION_LOG_FILE_HEADER_SIZE + (frames rs).length

theorem fileLength_pos (rs : List LogRecord) : 0 < fileLength rs := Nat.add_pos_left (by decide) _

/-- A file that an `open` brings into use. -/
def Openable (f : TransactionLogFile) (bytes : Bytes) : Prop :=
  f.version = 1 ∧ (f.isOpen = true ∧ 0 < f.size ∨ f.isOpen = false ∧ Headed bytes ∧ bytes.length < UINT32_RANGE)

/-- The files from `first` to `last` are open and hold the records `rs`, and there is no file behind them. Those
from the watermark's on that come before can be opened. A reader of committed entries has the watermark at the end,
which is in the next file when the last one was left behind. -/
structure AtRest (cfg : StoreConfig) (mode : Bool) (first last : ℕ) (rs : ℕ → List LogRecord) (y : Reading) : Prop where
  le : first ≤ last
  file : ∀ k, first ≤ k → k ≤ last → ∃ f timestamp, y.store.sequenceFiles.get? k = some f ∧ f.isOpen = true ∧
    f.size = fileLength (rs k) ∧ WholeFile (y.disk.bytes k) timestamp (rs k)
  ends : y.store.sequenceFiles.get? (last + 1) = none
  older : ∀ k, y.store.lastCommittedPosition.logSequenceNumber ≤ k → 0 < k → k < first →
    ∃ f, y.store.sequenceFiles.get? k = some f ∧ Openable f (y.disk.bytes k)
  watermark : y.store.lastCommittedPosition.logSequenceNumber ≤ last + 1 ∧ (mode = false →
    y.store.lastCommittedPosition = ⟨fileLength (rs last), last⟩ ∨
      y.store.lastCommittedPosition.logSequenceNumber = last + 1)
  fits : y.store.currentSequenceNumber ≤ last → fileLength (rs y.store.currentSequenceNumber) ≤ cfg.maxFileSize
  buffers : ∀ {k b}, y.log.logBuffers.get? k = some b → b.logId = k ∧
    (first ≤ k → k ≤ last → fileLength (rs k) ≤ b.length ∧ ∀ z ∈ b.size, z = fileLength (rs k))
  unmapped : y.log.logBuffers.get? (last + 1) = none

/-- Every file can be opened and mapped. -/
def TransactionLogStore.ReadCalls.Succeed (io : ReadCalls) : Prop := ∀ k, (io.openCalls k).Succeeds ∧ io.mmapOk k = true

section
variable {cfg : StoreConfig} {mode : Bool} {first last : ℕ} {rs : ℕ → List LogRecord} {y y' : Reading}
    {io : ReadCalls} {k : ℕ}

/-- Asking a file of the walk for its size changes nothing. -/
theorem AtRest.getLogFileSize (h : AtRest cfg mode first last rs y) (hk : first ≤ k) (hle : k ≤ last) :
    y.getLogFileSize k io = (.ok (fileLength (rs k)), y) := by
  obtain ⟨f, -, hf, ho, hsize, -⟩ := h.file k hk hle
  have hens : y.store.ensureOpen y.disk k f (io.openCalls k) = (none, y.store, y.disk) := if_pos ho
  unfold Reading.getLogFileSize TransactionLogStore.getLogFileSize
  simp only [hf, hens, Option.map_some, Option.getD_some, hsize]
  rfl

theorem AtRest.getLogFileSize_end (h : AtRest cfg mode first last rs y) :
    y.getLogFileSize (last + 1) io = (.ok 0, y) := by
  unfold Reading.getLogFileSize TransactionLogStore.getLogFileSize
  rw [h.ends]
  rfl

/-- A file before the walk is opened. -/
theorem Openable.open {f : TransactionLogFile} {o : OpenCalls} (disk : Option Bytes)
    (timestamp : Binary64) (h : Openable f (disk.getD [])) (ho : f.isOpen = false) (hio : o.Succeeds) :
    ∃ f' bytes, f.open disk timestamp o = (none, f', some bytes) ∧ f'.isOpen = true ∧ f'.version = 1 ∧ 0 < f'.size := by
  obtain ⟨hv, hcase⟩ := h
  obtain ⟨-, hheaded, hlt⟩ := hcase.resolve_left fun hc => by rw [ho] at hc; cases hc.1
  rcases hheaded with hnil | ⟨t, rest, hbytes⟩
  · rw [open_empty hio ho hv hnil]
    exact ⟨_, _, rfl, rfl, hv, Nat.succ_pos _⟩
  · cases disk with
    | none => simp [fileHeader] at hbytes
    | some bytes =>
      rw [Option.getD_some] at hbytes hlt
      rw [open_headed hio ho hbytes hlt]
      refine ⟨_, _, rfl, rfl, rfl, ?_⟩
      rw [hbytes, List.length_append, fileHeader_length]
      exact Nat.add_pos_left (by decide) _

/-- Another object and other bytes for a file before the walk. -/
theorem AtRest.setOlder (h : AtRest cfg mode first last rs y) (hk : k < first) {f : TransactionLogFile}
    (bytes : Bytes) (hopen : f.isOpen = true) (hv : f.version = 1) (hsize : 0 < f.size) :
    AtRest cfg mode first last rs
      { y with store := y.store.setFile k f,
               disk := { y.disk with logs := y.disk.logs.set k bytes, directory := true } } := by
  have hget : ∀ q, q ≠ k → (y.store.setFile k f).sequenceFiles.get? q = y.store.sequenceFiles.get? q := fun q hq =>
    SeqMap.get?_set_ne _ hq _
  have hbytes : ∀ q, q ≠ k → Disk.bytes { y.disk with logs := y.disk.logs.set k bytes, directory := true } q =
      y.disk.bytes q := by
    intro q hq
    rw [Disk.bytes_set, if_neg hq]
  have hlast := h.le
  refine ⟨h.le, fun q hq hle => ?_, (hget _ (by omega)).trans h.ends, fun q hw hpos hlt => ?_, h.watermark, h.fits,
    h.buffers, h.unmapped⟩
  · rw [hget q (by omega), hbytes q (by omega)]
    exact h.file q hq hle
  · by_cases hq : q = k
    · subst hq
      exact ⟨f, SeqMap.get?_set_self _ _ _, hv, Or.inl ⟨hopen, hsize⟩⟩
    · rw [hget q hq, hbytes q hq]
      exact h.older q hw hpos hlt

/-- Asking a file before the walk for its size opens it. -/
theorem AtRest.getLogFileSize_older (h : AtRest cfg mode first last rs y) (hio : io.Succeed)
    (hw : y.store.lastCommittedPosition.logSequenceNumber ≤ k) (hpos : 0 < k) (hlt : k < first) :
    ∃ n y', y.getLogFileSize k io = (.ok n, y') ∧ 0 < n ∧ AtRest cfg mode first last rs y' ∧ y'.log = y.log ∧
      y'.store.lastCommittedPosition = y.store.lastCommittedPosition := by
  obtain ⟨f, hf, hopenable⟩ := h.older k hw hpos hlt
  unfold Reading.getLogFileSize TransactionLogStore.getLogFileSize TransactionLogStore.ensureOpen
  cases ho : f.isOpen with
  | true =>
    have hsize : 0 < f.size := (hopenable.2.resolve_right fun hc => by rw [ho] at hc; cases hc.1).2
    simp only [hf, ho, if_true, Option.map_some, Option.getD_some]
    exact ⟨_, y, rfl, hsize, h, rfl, rfl⟩
  | false =>
    obtain ⟨f', bytes, hopen, ho', hv, hsize⟩ :=
      hopenable.open (y.disk.logs.get? k) y.store.latestTimestamp ho (hio k).1
    simp only [hf, ho, Bool.false_eq_true, if_false, openLogFile, hopen, setFile, SeqMap.get?_set_self, Option.map_some,
      Option.getD_some]
    exact ⟨_, _, rfl, hsize, h.setOlder hlt bytes ho' hv hsize, rfl, rfl⟩

/-- The walk of `loadLastPosition` ends at the end of the last file. -/
theorem AtRest.lastPositionFrom (hio : io.Succeed) :
    ∀ (fuel next : ℕ) (l : ℕ × ℕ) (y : Reading), AtRest cfg mode first last rs y →
    y.store.lastCommittedPosition.logSequenceNumber ≤ next → 0 < next → next ≤ last + 1 → last + 1 < next + fuel →
    (next = last + 1 → l = (last, fileLength (rs last))) →
    ∃ y', Reading.lastPositionFrom io fuel next l y = (.ok (last, fileLength (rs last)), y') ∧
      AtRest cfg mode first last rs y' ∧
      y'.log = y.log := by
  intro fuel
  induction fuel with
  | zero => intro next l y _ _ _ hle hfuel; omega
  | succ fuel ih =>
    intro next l y h hw hpos hle hfuel hl
    rw [Reading.lastPositionFrom]
    by_cases hend : next = last + 1
    · rw [hend, h.getLogFileSize_end]
      simp only [if_true]
      exact ⟨y, by rw [hl hend], h, rfl⟩
    -- the file is there, so the walk goes on behind it
    by_cases hfirst : first ≤ next
    · rw [h.getLogFileSize hfirst (by omega)]
      simp only
      rw [if_neg (fileLength_pos _).ne']
      exact ih (next + 1) _ y h (by omega) (Nat.succ_pos _) (by omega) (by omega) fun heq => by
        rw [show next = last by omega]
    · obtain ⟨n, y1, hr, hn, h1, hlog, hcommitted⟩ := h.getLogFileSize_older hio hw hpos (not_le.mp hfirst)
      have hfl := h.le
      rw [hr]
      simp only
      rw [if_neg hn.ne']
      obtain ⟨y2, hr2, h2, hlog2⟩ := ih (next + 1) (next, n) y1 h1 (by rw [hcommitted]; omega)
        (Nat.succ_pos _) (by omega) (by omega)
        fun heq => by omega
      exact ⟨y2, hr2, h2, hlog2.trans hlog⟩

/-- Every file from the watermark's to the last one is registered. -/
theorem AtRest.registered (h : AtRest cfg mode first last rs y)
    (hw : y.store.lastCommittedPosition.logSequenceNumber ≤ k) (hpos : 0 < k) (hle : k ≤ last) :
    (y.store.sequenceFiles.get? k).isSome := by
  rcases Nat.lt_or_ge k first with hlt | hge
  · obtain ⟨f, hf, -⟩ := h.older k hw hpos hlt
    rw [hf]
    rfl
  · obtain ⟨f, -, hf, -⟩ := h.file k hge hle
    rw [hf]
    rfl

/-- The latest place is the end of the last file, or one in the next file. -/
theorem AtRest.loadLastPosition (h : AtRest cfg mode first last rs y) (hio : io.Succeed) (hpos : 0 < last) :
    ∃ latest y',
    y.loadLastPosition mode io = (.ok latest, y') ∧ (latest = (last, fileLength (rs last)) ∨ latest.1 = last + 1) ∧
      AtRest cfg mode first last rs y' ∧ y'.log = y.log := by
  obtain ⟨hw, hcommitted⟩ := h.watermark
  unfold Reading.loadLastPosition
  cases mode with
  | false =>
    refine ⟨_, y, rfl, (hcommitted rfl).imp_left fun heq => ?_, h, rfl⟩
    rw [heq]
  | true =>
    simp only [if_true]
    rcases hw.eq_or_lt with hnext | hlt
    · rw [hnext, if_neg (Nat.succ_ne_zero last), Reading.lastPositionFrom, h.getLogFileSize_end]
      exact ⟨_, y, rfl, Or.inr rfl, h, rfl⟩
    have hw := Nat.le_of_lt_succ hlt
    set start := if y.store.lastCommittedPosition.logSequenceNumber = 0 then 1
      else y.store.lastCommittedPosition.logSequenceNumber with hstart
    have hbounds : y.store.lastCommittedPosition.logSequenceNumber ≤ start ∧ 0 < start ∧ start ≤ last := by
      rw [hstart]
      split_ifs <;> omega
    obtain ⟨hge, hspos, hle⟩ := hbounds
    have hlen : last + 1 - start ≤ y.store.sequenceFiles.entries.length :=
      SeqMap.length_ge fun k hk hlt => h.registered (hge.trans hk) (hspos.trans_le hk) (by omega)
    obtain ⟨y', hr, h', hlog⟩ := AtRest.lastPositionFrom hio (y.store.sequenceFiles.entries.length + 1) start
      (y.store.lastCommittedPosition.logSequenceNumber, 0) y h hge hspos (by omega) (by omega) fun heq => by omega
    exact ⟨_, y', hr, Or.inl rfl, h', hlog⟩

/-- A mapping that covers its file. -/
theorem AtRest.setBuffer (h : AtRest cfg mode first last rs y) {b : LogBuffer} (hid : b.logId = k)
    (hle : k ≤ last) (hlen : fileLength (rs k) ≤ b.length) (hsize : ∀ z ∈ b.size, z = fileLength (rs k)) :
    AtRest cfg mode first last rs (y.setBuffer b) := by
  refine ⟨h.le, h.file, h.ends, h.older, h.watermark, h.fits, fun {q c} hc => ?_, ?_⟩
  · simp only [Reading.setBuffer, SeqMap.get?_set] at hc
    split_ifs at hc with hq
    · obtain rfl := Option.some.inj hc
      rw [hq, hid]
      exact ⟨rfl, fun _ _ => ⟨hlen, hsize⟩⟩
    · exact h.buffers hc
  · exact (SeqMap.get?_set_ne _ (by omega) _).trans h.unmapped

theorem AtRest.getLogMemoryMap (h : AtRest cfg mode first last rs y) (hio : io.Succeed) (hpos : 0 < first)
    (hk : first ≤ k) (hle : k ≤ last) :
    ∃ b y', y.getLogMemoryMap cfg k io = (.ok (some b), y') ∧ AtRest cfg mode first last rs y' ∧
      y'.log.logBuffers.get? k = some b := by
  unfold Reading.getLogMemoryMap
  rw [if_neg (by omega)]
  cases hb : y.log.logBuffers.get? k with
  | some b => exact ⟨b, y, rfl, h, hb⟩
  | none =>
    obtain ⟨f, -, hf, ho, hsize, -⟩ := h.file k hk hle
    have hens : y.store.ensureOpen y.disk k f (io.openCalls k) = (none, y.store, y.disk) := if_pos ho
    have hlen : fileLength (rs k) ≤ if y.store.currentSequenceNumber = k then cfg.maxFileSize else f.size := by
      split_ifs with hcur
      · have hfits := h.fits (hcur.trans_le hle)
        rwa [hcur] at hfits
      · exact hsize.ge
    have hne : (if y.store.currentSequenceNumber = k then cfg.maxFileSize else f.size) ≠ 0 :=
      ((fileLength_pos _).trans_le hlen).ne'
    simp only [TransactionLogStore.getMemoryMap, hf, hens, Option.map_some, Option.getD_some, getMemoryMapLocked, hne,
      (hio k).2, if_false,
      if_true]
    exact ⟨_, _, rfl, h.setBuffer rfl hle hlen (fun z hz => by cases hz), SeqMap.get?_set_self _ _ _⟩

/-- There is nothing to map behind the last file. -/
theorem AtRest.getLogMemoryMap_end (h : AtRest cfg mode first last rs y) :
    y.getLogMemoryMap cfg (last + 1) io = (.ok none, y) := by
  unfold Reading.getLogMemoryMap TransactionLogStore.getMemoryMap
  rw [if_neg (Nat.succ_ne_zero last), h.unmapped, h.ends]

theorem AtRest.cachedSize (h : AtRest cfg mode first last rs y) (io : ReadCalls) (hk : first ≤ k)
    (hle : k ≤ last) {b : LogBuffer} (hb : y.log.logBuffers.get? k = some b) :
    ∃ b' y', y.cachedSize b io = (.ok (fileLength (rs k)), y') ∧ AtRest cfg mode first last rs y' ∧
      y'.log.logBuffers.get? k = some b' := by
  obtain ⟨rfl, hcover⟩ := h.buffers hb
  obtain ⟨hlen, hsize⟩ := hcover hk hle
  unfold Reading.cachedSize
  cases hz : b.size with
  | some z =>
    rw [hsize z hz]
    exact ⟨b, y, rfl, h, hb⟩
  | none =>
    rw [h.getLogFileSize hk hle]
    refine ⟨_, _, rfl, h.setBuffer rfl hle hlen (fun z hz => (Option.some.inj hz).symm), SeqMap.get?_set_self _ _ _⟩

/-- An iterator over the whole range of timestamps that stands behind the records `front` of file
`k`, which holds `rs`. -/
def walkIterator (mode : Bool) (k : ℕ) (rs front : List LogRecord) : LogIterator :=
  { fullIterator k (fileLength front) (fileLength rs) with readUncommitted := mode }

variable {front back : List LogRecord} {r : LogRecord} {b : LogBuffer}

theorem fileLength_append (front back : List LogRecord) :
    fileLength (front ++ back) = fileLength front + (frames back).length := by
  rw [fileLength, fileLength, frames_append, List.length_append, Nat.add_assoc]

/-- What the iterator sees of its file. -/
theorem AtRest.view (h : AtRest cfg mode first last rs y) (hk : first ≤ k) (hle : k ≤ last)
    (hb : y.log.logBuffers.get? k = some b) :
    ∃ timestamp zeros, y.view k = fileHeader timestamp ++ (frames (rs k) ++ zeros) ∧ ∀ r ∈ rs k, r.Fits := by
  obtain ⟨f, timestamp, -, -, -, hw⟩ := h.file k hk hle
  obtain ⟨hlen, -⟩ := (h.buffers hb).2 hk hle
  have hbuffer : y.buffer k = b := by
    rw [Reading.buffer, hb]
    rfl
  have hle' : (y.disk.bytes k).length ≤ b.length := hw.length.trans_le hlen
  refine ⟨timestamp, List.replicate (b.length - (y.disk.bytes k).length) 0, ?_, hw.fits⟩
  rw [Reading.view, hbuffer, mapView_whole hle', ← List.append_assoc, ← hw.eq]

/-- The loop of `next` takes the record in front of it. -/
theorem AtRest.scan (h : AtRest cfg mode first last rs y) (hk : first ≤ k) (hle : k ≤ last)
    (hb : y.log.logBuffers.get? k = some b) (hrs : rs k = front ++ r :: back)
    (hzero : r.timestamp.isZero = false) (hin : inFullRange r.timestamp = true) (fuel : ℕ) :
    scanBuffer (y.view k) (fileLength (rs k)) (fuel + 1) (walkIterator mode k (rs k) front) =
      (.value r.yielded ⟨fileLength front, k⟩, walkIterator mode k (rs k) (front ++ [r])) := by
  obtain ⟨timestamp, zeros, hview, hfits⟩ := h.view hk hle hb
  have hpre : (fileHeader timestamp ++ frames front).length = fileLength front := by
    rw [List.length_append, fileHeader_length, fileLength]
  have hend : (fileHeader timestamp ++ frames front ++ r.frame).length = fileLength (front ++ [r]) := by
    rw [List.length_append, hpre, fileLength_append, frames_cons, frames_nil, List.append_nil]
  have hsplit : y.view k = (fileHeader timestamp ++ frames front) ++ (r.frame ++ (frames back ++ zeros)) := by
    rw [hview, hrs, frames_append, frames_cons]
    simp only [List.append_assoc]
  have hsize : (fileHeader timestamp ++ frames front ++ r.frame).length ≤ fileLength (rs k) := by
    rw [hend, hrs, show front ++ r :: back = (front ++ [r]) ++ back by rw [List.append_assoc, List.singleton_append],
      fileLength_append (front ++ [r])]
    exact Nat.le_add_right _ _
  have hpos : (walkIterator mode k (rs k) front).position = (fileHeader timestamp ++ frames front).length := hpre.symm
  have hmatch : (walkIterator mode k (rs k) front).matchesRange r.timestamp = (inFullRange r.timestamp, false) := rfl
  rw [hsplit, scanBuffer_frame hpos (hfits r (by rw [hrs]; simp)) hzero (inFullRange_not_nan hin) hsize]
  simp only [hmatch, hin, if_true, hpre, hend]
  rfl

/-- At the end of the file there is nothing left of it. -/
theorem scan_end (view : Bytes) (mode : Bool) (k : ℕ) (rs : List LogRecord) (fuel : ℕ) :
    scanBuffer view (fileLength rs) (fuel + 1) (walkIterator mode k rs rs) = (.ended, walkIterator mode k rs rs) := by
  rw [scanBuffer]
  exact if_pos le_rfl

/-- A call of `next` before a record. -/
theorem AtRest.next_value (h : AtRest cfg mode first last rs y) (hk : first ≤ k) (hle : k ≤ last)
    (hb : y.log.logBuffers.get? k = some b) (hrs : rs k = front ++ r :: back)
    (hzero : r.timestamp.isZero = false) (hin : inFullRange r.timestamp = true) :
    y.next cfg (walkIterator mode k (rs k) front) io =
      (.value r.yielded ⟨fileLength front, k⟩, y, walkIterator mode k (rs k) (front ++ [r])) := by
  have hlt : fileLength front < fileLength (rs k) := by
    rw [hrs, fileLength_append, frames_cons, List.length_append, r.frame_length]
    simp only [TRANSACTION_LOG_ENTRY_HEADER_SIZE]
    omega
  have hhead : y.nextHead cfg (walkIterator mode k (rs k) front) io =
      (.ok (), y, walkIterator mode k (rs k) front) := by
    have hno : ¬ decide (fileLength (rs k) ≤ fileLength front) = true := by
      rw [decide_eq_true_iff, not_le]
      exact hlt
    rw [Reading.nextHead]
    exact if_neg hno
  rw [Reading.next, hhead]
  simp only
  rw [Reading.nextLoop, show (walkIterator mode k (rs k) front).size = some (fileLength (rs k)) from rfl]
  simp only [show (walkIterator mode k (rs k) front).logId = k from rfl]
  rw [h.scan hk hle hb hrs hzero hin]

/-- At the end of its file the iterator asks for more: there is the next file, or nothing. -/
theorem AtRest.nextHead (h : AtRest cfg mode first last rs y) (hio : io.Succeed) (hpos : 0 < first)
    (hk : first ≤ k) (hle : k ≤ last) (hb : y.log.logBuffers.get? k = some b) :
    ∃ y', AtRest cfg mode first last rs y' ∧
      (k = last ∧ y.nextHead cfg (walkIterator mode k (rs k) (rs k)) io =
        (.ok (), y', walkIterator mode k (rs k) (rs k)) ∨
        k < last ∧ y.nextHead cfg (walkIterator mode k (rs k) (rs k)) io =
          (.ok (), y', walkIterator mode (k + 1) (rs (k + 1)) []) ∧
          ∃ b', y'.log.logBuffers.get? (k + 1) = some b') := by
  have hend : (walkIterator mode k (rs k) (rs k)).size.any (· ≤ (walkIterator mode k (rs k) (rs k)).position) =
      true := decide_eq_true le_rfl
  have hlast := h.le
  obtain ⟨latest, y1, hload, hlatest, h1, hlog⟩ := h.loadLastPosition hio (by omega)
  rw [← hlog] at hb
  rw [Reading.nextHead, if_pos hend, show (walkIterator mode k (rs k) (rs k)).readUncommitted = mode from rfl, hload]
  simp only [show (walkIterator mode k (rs k) (rs k)).logId = k from rfl]
  have hbuffer : y1.buffer k = b := by
    rw [Reading.buffer, hb]
    rfl
  obtain ⟨b1, y2, hsize, h2, hb2⟩ := h1.cachedSize io hk hle hb
  by_cases hbehind : k < latest.1
  · rw [if_pos hbehind, hbuffer, hsize]
    simp only [show (walkIterator mode k (rs k) (rs k)).position = fileLength (rs k) from rfl, le_refl, if_true]
    rcases hle.eq_or_lt with rfl | hlt
    · -- the next file is not there yet
      rw [h2.getLogMemoryMap_end]
      exact ⟨y2, h2, Or.inl ⟨rfl, rfl⟩⟩
    obtain ⟨b3, y3, hmap, h3, hb3⟩ := h2.getLogMemoryMap hio hpos (show first ≤ k + 1 by omega) hlt
    obtain ⟨hid, -⟩ := h3.buffers hb3
    rw [hmap]
    simp only [hid]
    by_cases hnext : k + 1 < latest.1
    · rw [if_pos hnext]
      obtain ⟨b4, y4, hsize4, h4, hb4⟩ := h3.cachedSize io (show first ≤ k + 1 by omega) hlt hb3
      rw [hsize4]
      exact ⟨y4, h4, Or.inr ⟨hlt, rfl, b4, hb4⟩⟩
    · rw [if_neg hnext]
      obtain rfl : latest = (last, fileLength (rs last)) := hlatest.resolve_right fun h => by omega
      obtain rfl : last = k + 1 := Nat.le_antisymm (not_lt.mp hnext) hlt
      exact ⟨y3, h3, Or.inr ⟨hlt, rfl, b3, hb3⟩⟩
  · rw [if_neg hbehind]
    obtain rfl : latest = (last, fileLength (rs last)) := hlatest.resolve_right fun h => by omega
    obtain rfl : k = last := Nat.le_antisymm hle (not_lt.mp hbehind)
    exact ⟨y1, h1, Or.inl ⟨rfl, rfl⟩⟩

/-- The records of the files behind `k`. -/
def later (rs : ℕ → List LogRecord) (last k : ℕ) : List LogRecord := (List.range' (k + 1) (last - k)).flatMap rs

theorem later_self (rs : ℕ → List LogRecord) (k : ℕ) : later rs k k = [] := by
  rw [later, Nat.sub_self, List.range'_zero, List.flatMap_nil]

theorem later_succ (rs : ℕ → List LogRecord) (hlt : k < last) :
    later rs last k = rs (k + 1) ++ later rs last (k + 1) := by
  obtain ⟨n, rfl⟩ : ∃ n, last = k + 1 + n := ⟨last - (k + 1), by omega⟩
  rw [later, later, show k + 1 + n - k = n + 1 by omega, show k + 1 + n - (k + 1) = n by omega, List.range'_succ,
    List.flatMap_cons]

/-- The calls of `next` give the rest of the file and then the files after it, and then they are done. -/
theorem AtRest.drain (hio : io.Succeed) (hpos : 0 < first)
    (hread : ∀ k, first ≤ k → k ≤ last → ∀ r ∈ rs k, r.timestamp.isZero = false ∧ inFullRange r.timestamp = true)
    (hfull : ∀ k, first < k → k < last → rs k ≠ []) :
    ∀ (n k : ℕ) (front back : List LogRecord) (y : Reading) (b : LogBuffer),
      AtRest cfg mode first last rs y → first ≤ k → k ≤ last → y.log.logBuffers.get? k = some b → rs k = front ++ back →
      (back ++ later rs last k).length < n →
      Reading.drain cfg io n y (walkIterator mode k (rs k) front) =
        ((back ++ later rs last k).map LogRecord.yielded, some .done) := by
  intro n
  induction n with
  | zero => intro k front back y b _ _ _ _ _ hn; omega
  | succ n ih =>
    intro k front back y b h hk hle hb hrs hn
    cases back with
    | cons r back =>
      obtain ⟨hzero, hin⟩ := hread k hk hle r (by rw [hrs]; simp)
      have hrest := ih k (front ++ [r]) back y b h hk hle hb (by rw [hrs]; simp) (by simpa using hn)
      rw [Reading.drain, h.next_value hk hle hb hrs hzero hin]
      simp only [hrest]
      rfl
    | nil =>
      rw [List.append_nil] at hrs
      rw [List.nil_append] at hn ⊢
      obtain ⟨y', h', ⟨rfl, hhead⟩ | ⟨hlt, hhead, b', hb'⟩⟩ := h.nextHead hio hpos hk hle hb
      all_goals rw [hrs] at hhead
      · -- the last file is read
        rw [later_self, Reading.drain, Reading.next, hrs, hhead]
        simp only
        rw [Reading.nextLoop, show (walkIterator mode k front front).size = some (fileLength front) from rfl]
        simp only [scan_end]
        rfl
      · have hnext : first ≤ k + 1 := by omega
        rw [later_succ rs hlt] at hn ⊢
        rw [Reading.drain, Reading.next, hrs, hhead]
        simp only
        rw [Reading.nextLoop, show (walkIterator mode (k + 1) (rs (k + 1)) []).size =
          some (fileLength (rs (k + 1))) from rfl]
        simp only [show (walkIterator mode (k + 1) (rs (k + 1)) []).logId = k + 1 from rfl]
        cases hnew : rs (k + 1) with
        | nil =>
          -- only the last file can be without a record
          obtain rfl : last = k + 1 := by
            by_contra hne
            exact hfull (k + 1) (by omega) (by omega) hnew
          rw [scan_end, later_self]
          rfl
        | cons r back =>
          obtain ⟨hzero, hin⟩ := hread (k + 1) hnext hlt r (by rw [hnew]; simp)
          have hscan := h'.scan hnext hlt hb' (show rs (k + 1) = [] ++ r :: back from hnew) hzero hin
            (y'.view (k + 1)).length
          have hrest := ih (k + 1) [r] back y' b' h' hnext hlt hb' hnew (by
            rw [hnew] at hn
            simpa using hn)
          rw [hnew, List.nil_append] at hscan
          rw [hnew] at hrest
          rw [hscan]
          simp only [hrest]
          rfl

end

end RocksdbJs
