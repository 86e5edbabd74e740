import RocksdbJs.Sanity.Growth
import RocksdbJs.Sanity.ScanWalk
import RocksdbJs.Sanity.Iterators

/-! An iterator on a log that grows. It stands between two entries of a file that is mapped, or
before the whole log on the fake buffer, and a call of `next` takes the records from there on, in
order, unless it leaves a file at a limit that the file has outgrown. -/

namespace RocksdbJs

open TransactionLogStore

/-- What a call has yielded. -/
def NextResult.entries : NextResult → List TransactionEntry
  | .value entry _ => [entry]
  | _ => []

/-- A mapping of a file that is there; a limit is kept on it only when the file has all its entries. -/
structure LogBuffer.Sound (s : TransactionLogStore) (d : Disk) (k : ℕ) (b : LogBuffer) : Prop where
  logId : b.logId = k
  there : (d.logs.get? k).isSome
  size : ∀ z ∈ b.size, k < s.currentSequenceNumber ∧ z = (d.bytes k).length

structure Reading.Fit (y : Reading) : Prop where
  filed : Filed y.store y.disk
  watermark : Anchored y.store y.disk y.store.lastCommittedPosition
  buffers : ∀ {k b}, y.log.logBuffers.get? k = some b → b.Sound y.store y.disk k
  current : ∀ k ∈ y.log.currentLogBuffer, (y.log.logBuffers.get? k).isSome

/-- The length of the mapping that the reader has, or gets, of a file. -/
def Reading.mapLength (cfg : StoreConfig) (y : Reading) (k : ℕ) : ℕ :=
  match y.log.logBuffers.get? k with
  | some b => b.length
  | none => if y.store.currentSequenceNumber = k then cfg.maxFileSize else (y.disk.bytes k).length

/-- A part of a reader's call: the store's files may be opened, and mappings come in. -/
structure Reading.Leads (cfg : StoreConfig) (y y' : Reading) : Prop where
  reads : Reads y.store y.disk y'.store y'.disk
  fit : y'.Fit
  kept : ∀ k, (y.log.logBuffers.get? k).isSome → (y'.log.logBuffers.get? k).isSome
  maps : ∀ k, (y.disk.logs.get? k).isSome → y'.mapLength cfg k = y.mapLength cfg k
  queried : y'.log.queried = y.log.queried

namespace LogIterator

/-- The iterator is between two entries of a file that is mapped, and so is its limit. -/
structure InFile (y : Reading) (it : LogIterator) : Prop where
  buffer : (y.log.logBuffers.get? it.logId).isSome
  position : ∃ front, front <+: fileRecords (y.disk.bytes it.logId) ∧ it.place = endOf it.logId front
  size : ∃ z, it.size = some z ∧ y.disk.Marks ⟨z, it.logId⟩

/-- Where an iterator of the committed part can be. -/
structure Stands (y : Reading) (it : LogIterator) : Prop where
  committed : it.readUncommitted = false
  le : it.logId ≤ y.store.lastCommittedPosition.logSequenceNumber
  file : it.logId = 0 ∧ it.size = some 0 ∨ it.InFile y

/-- From `it` to `it'` the iterator has taken all that lies between them in the log, once and in
order, and yielded the entries of it that are in its range. -/
structure Passes (d : Disk) (it it' : LogIterator) (entries : List TransactionEntry) : Prop where
  like : it.Like it'
  records : ∃ rs, d.recordsFrom it.place = rs ++ d.recordsFrom it'.place ∧
    it.selects rs = (entries, it'.foundExactStart)

variable {d d' : Disk} {it it' it'' : LogIterator} {entries entries' : List TransactionEntry}

theorem Passes.refl (d : Disk) (it : LogIterator) : it.Passes d it [] := ⟨.refl it, [], rfl, rfl⟩

/-- Another limit, or the same place in other words. -/
theorem Passes.of_place (hlike : it.Like it') (hfound : it'.foundExactStart = it.foundExactStart)
    (hplace : d.recordsFrom it'.place = d.recordsFrom it.place) : it.Passes d it' [] :=
  ⟨hlike, [], hplace.symm, by rw [selects, hfound]⟩

theorem Passes.trans (h : it.Passes d it' entries) (h' : it'.Passes d it'' entries') :
    it.Passes d it'' (entries ++ entries') := by
  obtain ⟨rs, hrs, hsel⟩ := h.records
  obtain ⟨rs', hrs', hsel'⟩ := h'.records
  refine ⟨h.like.trans h'.like, rs ++ rs', by rw [hrs, hrs', List.append_assoc], ?_⟩
  have hlike : ({ it with foundExactStart := it'.foundExactStart } : LogIterator).Like it' :=
    ⟨h.like.start, h.like.end, h.like.exactStart, h.like.exclusiveStart, h.like.readUncommitted⟩
  rw [hlike.selects rfl] at hsel'
  rw [selects_append, hsel]
  simp only [hsel']

/-- The log grows behind both. -/
theorem Passes.lengthens {more : List (LogPosition × LogRecord)} (h : it.Passes d it' entries)
    (hd : d.Lengthens d' more) (hle : ∀ x ∈ more, it.place ≤ x.1) (hle' : ∀ x ∈ more, it'.place ≤ x.1) :
    it.Passes d' it' entries := by
  obtain ⟨rs, hrs, hsel⟩ := h.records
  refine ⟨h.like, rs, ?_, hsel⟩
  rw [hd.recordsFrom hle, hd.recordsFrom hle', hrs, List.append_assoc]

end LogIterator

namespace Reading

section
variable {cfg : StoreConfig} {y y' y'' : Reading} {it : LogIterator} {io : ReadCalls} {k : ℕ} {b : LogBuffer}

theorem Leads.refl (h : y.Fit) : y.Leads cfg y := ⟨.refl _ _, h, fun _ => id, fun _ _ => rfl, rfl⟩

theorem Leads.trans (h : y.Leads cfg y') (h' : y'.Leads cfg y'') : y.Leads cfg y'' :=
  ⟨h.reads.trans h'.reads, h'.fit, fun k hk => h'.kept k (h.kept k hk),
    fun k hk => (h'.maps k (h.reads.isSome hk)).trans (h.maps k hk), h'.queried.trans h.queried⟩

theorem Leads.recordsFrom (h : y.Leads cfg y') (p : LogPosition) : y'.disk.recordsFrom p = y.disk.recordsFrom p := by
  rw [h.reads.lengthens.recordsFrom (fun x hx => by cases hx), List.map_nil, List.append_nil]

theorem Leads.passes_iff {it' : LogIterator} {entries : List TransactionEntry} (h : y.Leads cfg y') :
    it.Passes y'.disk it' entries ↔ it.Passes y.disk it' entries := by
  have hrecords : ∀ rs, y'.disk.recordsFrom it.place = rs ++ y'.disk.recordsFrom it'.place ↔
      y.disk.recordsFrom it.place = rs ++ y.disk.recordsFrom it'.place := fun rs => by rw [h.recordsFrom, h.recordsFrom]
  constructor
  · rintro ⟨hlike, rs, hrs, hsel⟩
    exact ⟨hlike, rs, (hrecords rs).mp hrs, hsel⟩
  · rintro ⟨hlike, rs, hrs, hsel⟩
    exact ⟨hlike, rs, (hrecords rs).mpr hrs, hsel⟩

theorem Fit.there (h : y.Fit) (hk : (y.log.logBuffers.get? k).isSome) : (y.disk.logs.get? k).isSome := by
  obtain ⟨b, hb⟩ := Option.isSome_iff_exists.mp hk
  exact (h.buffers hb).there

theorem Leads.stands (h : y.Leads cfg y') (hs : it.Stands y) : it.Stands y' := by
  refine ⟨hs.committed, h.reads.committed ▸ hs.le, hs.file.imp_right fun hf => ⟨h.kept _ hf.buffer, ?_, ?_⟩⟩
  · obtain ⟨front, hfront, heq⟩ := hf.position
    exact ⟨front, hfront.trans (h.reads.lengthens.records _), heq⟩
  · obtain ⟨z, hz, hmarks⟩ := hf.size
    exact ⟨z, hz, h.reads.lengthens.marks hmarks⟩

/-- The store opens files for the reader. -/
theorem Fit.reads (h : y.Fit) (cfg : StoreConfig) {s' : TransactionLogStore} {d' : Disk}
    (hr : Reads y.store y.disk s' d') (hf : Filed s' d') :
    y.Leads cfg { y with store := s', disk := d' } := by
  refine ⟨hr, ⟨hf, ?_, fun {k b} hb => ?_, h.current⟩, fun _ => id, fun k hk => ?_, rfl⟩
  · change Anchored s' d' s'.lastCommittedPosition
    rw [hr.committed]
    exact h.watermark.mono hr.lengthens hr.current.ge
  · obtain ⟨hid, hthere, hsize⟩ := h.buffers hb
    refine ⟨hid, hr.isSome hthere, fun z hz => ?_⟩
    rw [hr.current, hr.bytes hthere]
    exact hsize z hz
  · unfold mapLength
    simp only [hr.current, hr.bytes hk]

/-- A mapping comes in, or gets a limit. -/
theorem Fit.setBuffer (h : y.Fit) (hb : b.Sound y.store y.disk k) (hlen : b.length = y.mapLength cfg k) :
    y.Leads cfg (y.setBuffer b) := by
  obtain rfl := hb.logId
  have hget : ∀ q, (y.setBuffer b).log.logBuffers.get? q = if q = b.logId then some b else y.log.logBuffers.get? q :=
    fun q => SeqMap.get?_set _ _ _ _
  have hkept : ∀ q, (y.log.logBuffers.get? q).isSome → ((y.setBuffer b).log.logBuffers.get? q).isSome := by
    intro q hq
    rw [hget]
    split_ifs
    · rfl
    · exact hq
  refine ⟨.refl _ _, ⟨h.filed, h.watermark, fun {q c} hc => ?_, fun q hq => hkept q (h.current q hq)⟩,
    hkept, fun q _ => ?_, rfl⟩
  · rw [hget] at hc
    split_ifs at hc with hq
    · rw [hq, ← Option.some.inj hc]
      exact hb
    · exact h.buffers hc
  · by_cases hq : q = b.logId
    · rw [mapLength, hget, if_pos hq, hq]
      exact hlen
    · rw [mapLength, mapLength, hget, if_neg hq]
      rfl

/-- The files that a reader may open can be opened. -/
def CanOpen (y : Reading) (io : ReadCalls) : Prop := ∀ e ∈ y.store.sequenceFiles.entries, (io.openCalls e.1).Succeeds

theorem CanOpen.file (h : y.CanOpen io) (hk : (y.store.sequenceFiles.get? k).isSome) : (io.openCalls k).Succeeds := by
  obtain ⟨f, hf⟩ := Option.isSome_iff_exists.mp hk
  exact h (k, f) (SeqMap.get?_eq_some_iff.mp hf)

theorem Leads.canOpen (h : y.Leads cfg y') (ho : y.CanOpen io) : y'.CanOpen io := by
  intro e he
  refine ho.file ?_
  rw [← h.reads.registered, SeqMap.get?_eq_some_iff.mpr he]
  rfl

theorem Fit.getLogFileSize (h : y.Fit) (cfg : StoreConfig) (hthere : (y.disk.logs.get? k).isSome) (hio : y.CanOpen io) :
    ∃ y', y.getLogFileSize k io = (.ok (y.disk.bytes k).length, y') ∧ y.Leads cfg y' ∧ y'.log = y.log := by
  have hreg := h.filed.log hthere
  obtain ⟨s', d', hr, hfiled, hreads, -⟩ := h.filed.getLogFileSize hreg (hio.file hreg)
  refine ⟨{ y with store := s', disk := d' }, ?_, h.reads cfg hreads hfiled, rfl⟩
  rw [Reading.getLogFileSize, hr, ← hreads.bytes hthere]
  rfl

/-- The size of a file that has all its entries. -/
theorem Fit.cachedSize (h : y.Fit) (cfg : StoreConfig) (hb : y.log.logBuffers.get? k = some b)
    (hk : k < y.store.currentSequenceNumber) (hio : y.CanOpen io) :
    ∃ y', y.cachedSize b io = (.ok (y.disk.bytes k).length, y') ∧ y.Leads cfg y' := by
  obtain ⟨rfl, hthere, hsize⟩ := h.buffers hb
  unfold Reading.cachedSize
  cases hz : b.size with
  | some z =>
    refine ⟨y, ?_, .refl h⟩
    rw [(hsize z hz).2]
  | none =>
    obtain ⟨y', hr, hleads, -⟩ := h.getLogFileSize cfg hthere hio
    simp only [hr]
    have hsound : ({ b with size := some (y.disk.bytes b.logId).length } : LogBuffer).Sound
        y'.store y'.disk b.logId := by
      refine ⟨rfl, hleads.reads.isSome hthere, fun z hz => ?_⟩
      rw [hleads.reads.current, hleads.reads.bytes hthere]
      exact ⟨hk, (Option.some.inj hz).symm⟩
    have hlen : b.length = y'.mapLength cfg b.logId := by
      rw [hleads.maps _ hthere, mapLength, hb]
    exact ⟨_, rfl, hleads.trans (hleads.fit.setBuffer hsound hlen)⟩

theorem getMemoryMapLocked_none {fileSize : ℕ} {mmapOk : Bool} (h : getMemoryMapLocked fileSize mmapOk = none) :
    fileSize = 0 ∨ mmapOk = false := by
  unfold getMemoryMapLocked at h
  split_ifs at h with h0 hok
  · exact Or.inl h0
  · exact Or.inr (Bool.eq_false_of_not_eq_true hok)

theorem getMemoryMapLocked_length {fileSize length : ℕ} {mmapOk : Bool}
    (h : getMemoryMapLocked fileSize mmapOk = some length) :
    length = fileSize := by
  unfold getMemoryMapLocked at h
  split_ifs at h
  exact (Option.some.inj h).symm

/-- There is no mapping of the file. -/
def Unmapped (cfg : StoreConfig) (s : TransactionLogStore) (io : ReadCalls) (k : ℕ) : Prop :=
  s.sequenceFiles.get? k = none ∨ s.currentSequenceNumber = k ∧ cfg.maxFileSize = 0 ∨ io.mmapOk k = false

theorem Fit.getLogMemoryMap (h : y.Fit) (cfg : StoreConfig) (hpos : k ≠ 0) (hio : y.CanOpen io) : ∃ y', y.Leads cfg y' ∧
    (y.getLogMemoryMap cfg k io = (.ok none, y') ∧ Unmapped cfg y.store io k ∨
      ∃ b, y.getLogMemoryMap cfg k io = (.ok (some b), y') ∧ y'.log.logBuffers.get? k = some b) := by
  unfold Reading.getLogMemoryMap
  rw [if_neg hpos]
  cases hb : y.log.logBuffers.get? k with
  | some b => exact ⟨y, .refl h, Or.inr ⟨b, rfl, hb⟩⟩
  | none =>
    cases hf : y.store.sequenceFiles.get? k with
    | none =>
      simp only [getMemoryMap_none cfg y.disk io hf]
      exact ⟨y, .refl h, Or.inl ⟨rfl, Or.inl hf⟩⟩
    | some f =>
      have hreg : (y.store.sequenceFiles.get? k).isSome := by
        rw [hf]
        rfl
      obtain ⟨s', d', hr, hfiled, hreads, hthere⟩ := h.filed.getMemoryMap cfg hreg (hio.file hreg)
      have hleads := h.reads cfg hreads hfiled
      simp only [hr]
      cases hm : getMemoryMapLocked (if y.store.currentSequenceNumber = k then cfg.maxFileSize
        else (d'.bytes k).length) (io.mmapOk k) with
      | none =>
        refine ⟨_, hleads, Or.inl ⟨rfl, Or.inr ?_⟩⟩
        have hlen := hfiled.length hthere
        have h13 : TRANSACTION_LOG_FILE_HEADER_SIZE = 13 := rfl
        rcases getMemoryMapLocked_none hm with h0 | hfail
        · split_ifs at h0 with hcur
          · exact Or.inl ⟨hcur, h0⟩
          · omega
        · exact Or.inr hfail
      | some length =>
        have hsound : (⟨k, length, none⟩ : LogBuffer).Sound s' d' k := ⟨rfl, hthere, fun z hz => by cases hz⟩
        have hlen : length = ({ y with store := s', disk := d' } : Reading).mapLength cfg k := by
          rw [mapLength, show ({ y with store := s', disk := d' } : Reading).log.logBuffers.get? k = none from hb]
          simp only [hreads.current]
          exact getMemoryMapLocked_length hm
        refine ⟨_, hleads.trans (hleads.fit.setBuffer hsound hlen), Or.inr ⟨_, rfl, ?_⟩⟩
        exact SeqMap.get?_set_self _ _ _

/-- The fake buffer, of a log file that there is not. -/
theorem Fit.buffer_zero (h : y.Fit) : y.buffer 0 = ⟨0, 0, some 0⟩ := by
  unfold Reading.buffer
  cases hb : y.log.logBuffers.get? 0 with
  | none => rfl
  | some b => exact absurd (h.filed.file (h.filed.log (h.buffers hb).there)).1 (Nat.lt_irrefl 0)

theorem Fit.recordsFrom_zero (h : y.Fit) (position : ℕ) :
    y.disk.recordsFrom ⟨position, 0⟩ = y.disk.recordsFrom (endOf 1 []) := by
  have hall : ∀ p : LogPosition, p.logSequenceNumber = 0 ∨ p = ⟨0, 1⟩ →
      y.disk.recordsFrom p = y.disk.shelf.map Prod.snd := by
    intro p hp
    unfold Disk.recordsFrom
    rw [List.filter_eq_self.mpr]
    intro x hx
    obtain ⟨bytes, hb, -⟩ := mem_shelf.mp hx
    have hpos := (h.filed.file (h.filed.log (show (y.disk.logs.get? x.1.logSequenceNumber).isSome by rw [hb]; rfl))).1
    rw [decide_eq_true_iff, LogPosition.le_iff]
    rcases hp with hp | rfl
    · exact Or.inl (hp ▸ hpos)
    · rcases Nat.lt_or_ge 1 x.1.logSequenceNumber with hlt | hge
      · exact Or.inl hlt
      · exact Or.inr ⟨show 1 = _ by omega, Nat.zero_le _⟩
  rw [recordsFrom_begin, hall _ (Or.inl rfl), hall _ (Or.inr rfl)]

theorem Fit.marks_length (h : y.Fit) (hthere : (y.disk.logs.get? k).isSome) :
    y.disk.Marks ⟨(y.disk.bytes k).length, k⟩ :=
  Or.inr ⟨_, List.prefix_rfl, by rw [h.filed.length hthere]; rfl⟩

theorem Fit.no_records (h : y.Fit) (hthere : (y.disk.logs.get? k).isSome)
    (hle : (y.disk.bytes k).length ≤ TRANSACTION_LOG_FILE_HEADER_SIZE) :
    fileRecords (y.disk.bytes k) = [] := by
  have hlen := h.filed.length hthere
  have hge := frames_length_ge (fileRecords (y.disk.bytes k))
  exact List.length_eq_zero_iff.mp (by omega)

/-- At the end of its file an iterator has nothing left of it. -/
theorem Fit.at_end (h : y.Fit) (hf : it.InFile y) (hend : (y.disk.bytes it.logId).length ≤ it.position) :
    y.disk.recordsFrom it.place = y.disk.recordsFrom (endOf (it.logId + 1) []) := by
  obtain ⟨front, ⟨rest, hrest⟩, heq⟩ := hf.position
  have hlen := h.filed.length (h.there hf.buffer)
  have hpos : it.position = TRANSACTION_LOG_FILE_HEADER_SIZE + (frames front).length :=
    congrArg LogPosition.positionInLogFile heq
  rw [← hrest, frames_append, List.length_append] at hlen
  have hge := frames_length_ge rest
  have hnil : rest = [] := List.length_eq_zero_iff.mp (by omega)
  rw [hnil, List.append_nil] at hrest
  rw [heq, hrest, recordsFrom_end]

/-- An iterator begins with another file. -/
theorem enters {z : ℕ} (hmode : it.readUncommitted = false) (hb : (y.log.logBuffers.get? k).isSome)
    (hle : k ≤ y.store.lastCommittedPosition.logSequenceNumber) (hz : y.disk.Marks ⟨z, k⟩) :
    { it with logId := k, size := some z, position := TRANSACTION_LOG_FILE_HEADER_SIZE }.Stands y :=
  ⟨hmode, hle, Or.inr ⟨hb, ⟨[], List.nil_prefix, rfl⟩, z, rfl, hz⟩⟩

/-- Why a call that yields nothing stops at `it`: it has all that is committed, the next file cannot
be mapped, or it has come from `last` into a file without an entry. -/
def Halts (cfg : StoreConfig) (y : Reading) (io : ReadCalls) (last : ℕ) (it : LogIterator) : Prop :=
  it.logId = y.store.lastCommittedPosition.logSequenceNumber ∧
    y.store.lastCommittedPosition.positionInLogFile ≤ it.position ∨
    it.logId < y.store.lastCommittedPosition.logSequenceNumber ∧ Unmapped cfg y.store io (it.logId + 1) ∧
      y.disk.recordsFrom it.place = y.disk.recordsFrom (endOf (it.logId + 1) []) ∨
    last < it.logId ∧ fileRecords (y.disk.bytes it.logId) = []

/-- What the head of a call leaves. -/
structure HeadOk (cfg : StoreConfig) (y : Reading) (it : LogIterator) (io : ReadCalls) (y' : Reading)
    (it' : LogIterator) : Prop where
  leads : y.Leads cfg y'
  stands : it'.Stands y'
  passes : it.Passes y.disk it' []
  le : it.logId ≤ it'.logId
  place : it'.place = it.place ∨ it'.position = TRANSACTION_LOG_FILE_HEADER_SIZE
  halts : ∀ z ∈ it'.size, z ≤ it'.position → Halts cfg y io it.logId it'

/-- An iterator that is done with its file looks for the next one. -/
theorem Fit.hop (h : y.Fit) (cfg : StoreConfig) (hs : it.Stands y) (hio : y.CanOpen io)
    (hbefore : it.logId < y.store.lastCommittedPosition.logSequenceNumber)
    (hend : y.disk.recordsFrom it.place = y.disk.recordsFrom (endOf (it.logId + 1) [])) : ∃ y',
      y.getLogMemoryMap cfg (it.logId + 1) io = (.ok none, y') ∧ HeadOk cfg y it io y' it ∨
      ∃ b, y.getLogMemoryMap cfg (it.logId + 1) io = (.ok (some b), y') ∧ b.logId = it.logId + 1 ∧
        (it.logId + 1 < y.store.lastCommittedPosition.logSequenceNumber → ∃ y'' size,
          y'.cachedSize b io = (.ok size, y'') ∧
          HeadOk cfg y it io y'' { it with logId := it.logId + 1, size := some size,
                                           position := TRANSACTION_LOG_FILE_HEADER_SIZE }) ∧
        (¬ it.logId + 1 < y.store.lastCommittedPosition.logSequenceNumber → HeadOk cfg y it io y' { it with
          logId := it.logId + 1
          size := some y.store.lastCommittedPosition.positionInLogFile
          position := TRANSACTION_LOG_FILE_HEADER_SIZE }) := by
  obtain ⟨y', hleads, ⟨hr, hno⟩ | ⟨b, hr, hb⟩⟩ := h.getLogMemoryMap cfg (show it.logId + 1 ≠ 0 by omega) hio
  · exact ⟨y', Or.inl ⟨hr, hleads, hleads.stands hs, .refl _ _, le_rfl, Or.inl rfl,
      fun z hz hle => Or.inr (Or.inl ⟨hbefore, hno, hend⟩)⟩⟩
  have hw := hleads.reads.committed
  have hthere := (hleads.fit.buffers hb).there
  have hpass : ∀ z, it.Passes y.disk
      { it with logId := it.logId + 1, size := some z, position := TRANSACTION_LOG_FILE_HEADER_SIZE } [] :=
    fun z => .of_place ⟨rfl, rfl, rfl, rfl, rfl⟩ rfl hend.symm
  refine ⟨y', Or.inr ⟨b, hr, (hleads.fit.buffers hb).logId, fun hlt => ?_, fun hlt => ?_⟩⟩
  · have hcur : it.logId + 1 < y'.store.currentSequenceNumber := by
      rw [hleads.reads.current]
      exact hlt.trans_le h.watermark.le
    obtain ⟨y'', hc, hleads'⟩ := hleads.fit.cachedSize cfg hb hcur (hleads.canOpen hio)
    have hle : it.logId + 1 ≤ y''.store.lastCommittedPosition.logSequenceNumber := by
      rw [hleads'.reads.committed, hw]
      exact hlt.le
    refine ⟨y'', _, hc, hleads.trans hleads', enters hs.committed (hleads'.kept _ (by rw [hb]; rfl)) hle
      (hleads'.reads.lengthens.marks (hleads.fit.marks_length hthere)), hpass _, Nat.le_succ _, Or.inr rfl,
      fun z hz hle => Or.inr (Or.inr ⟨Nat.lt_succ_self _, ?_⟩)⟩
    obtain rfl := Option.some.inj hz
    exact List.prefix_nil.mp (hleads.fit.no_records hthere hle ▸ hleads.reads.lengthens.records _)
  · have heq : it.logId + 1 = y.store.lastCommittedPosition.logSequenceNumber := by omega
    have hmarks := hleads.fit.watermark.marks
    rw [hw] at hmarks
    refine ⟨hleads, enters hs.committed (by rw [hb]; rfl) (by rw [hw, heq]) (by rw [heq]; exact hmarks), hpass _,
      Nat.le_succ _, Or.inr rfl, fun z hz hle => Or.inl ⟨heq, ?_⟩⟩
    obtain rfl := Option.some.inj hz
    exact hle

theorem Leads.records (h : y.Leads cfg y') (k : ℕ) : fileRecords (y'.disk.bytes k) = fileRecords (y.disk.bytes k) := by
  have hfile : ∀ d : Disk, d.recordsFrom (endOf k []) = fileRecords (d.bytes k) ++ d.recordsFrom ⟨0, k + 1⟩ := fun d =>
    recordsFrom_file rfl
  have hfrom := h.recordsFrom (endOf k [])
  rw [hfile, hfile, h.recordsFrom] at hfrom
  exact List.append_cancel_right hfrom

theorem Leads.unmapped_iff (h : y.Leads cfg y') : Unmapped cfg y'.store io k ↔ Unmapped cfg y.store io k := by
  have hreg : y'.store.sequenceFiles.get? k = none ↔ y.store.sequenceFiles.get? k = none := by
    rw [← Option.isNone_iff_eq_none, ← Option.isNone_iff_eq_none, ← Option.not_isSome, ← Option.not_isSome,
      h.reads.registered]
  unfold Unmapped
  rw [h.reads.current, hreg]

theorem Leads.halts_iff (h : y.Leads cfg y') {last : ℕ} : Halts cfg y' io last it ↔ Halts cfg y io last it := by
  unfold Halts
  rw [h.reads.committed, h.unmapped_iff, h.recordsFrom, h.recordsFrom, h.records]

theorem Halts.mono {last last' : ℕ} (h : Halts cfg y io last' it) (hle : last ≤ last') : Halts cfg y io last it :=
  h.imp_right (Or.imp_right fun ⟨hlt, hnil⟩ => ⟨hle.trans_lt hlt, hnil⟩)

theorem HeadOk.after {y1 y2 : Reading} {it1 it2 : LogIterator} (h : HeadOk cfg y1 it1 io y2 it2)
    (hleads : y.Leads cfg y1) (hp : it.Passes y.disk it1 []) (hplace : it1.place = it.place) :
    HeadOk cfg y it io y2 it2 := by
  have hid : it1.logId = it.logId := congrArg LogPosition.logSequenceNumber hplace
  exact ⟨hleads.trans h.leads, h.stands, hp.trans (hleads.passes_iff.mp h.passes), hid.ge.trans h.le, hplace ▸ h.place,
    fun z hz hle => (hleads.halts_iff.mp (h.halts z hz hle)).mono hid.ge⟩

/-- In the watermark's file the limit is the watermark. -/
theorem Fit.rests (h : y.Fit) (hs : it.Stands y) (heq : it.logId = y.store.lastCommittedPosition.logSequenceNumber) :
    { it with size := some y.store.lastCommittedPosition.positionInLogFile }.Stands y := by
  have hmarks := h.watermark.marks
  refine ⟨hs.committed, hs.le, ?_⟩
  rcases hs.file with ⟨h0, -⟩ | hf
  · left
    refine ⟨h0, ?_⟩
    rw [h.watermark.zero (heq.symm.trans h0)]
  · refine Or.inr ⟨hf.buffer, hf.position, _, rfl, ?_⟩
    rw [show ({ it with size := some y.store.lastCommittedPosition.positionInLogFile } : LogIterator).logId =
      y.store.lastCommittedPosition.logSequenceNumber from heq]
    exact hmarks

/-- The size of the file of an iterator that is not in the watermark's. -/
theorem Fit.ownSize (h : y.Fit) (cfg : StoreConfig) (hs : it.Stands y) (hio : y.CanOpen io)
    (hbefore : it.logId < y.store.lastCommittedPosition.logSequenceNumber) : ∃ y' z,
      y.cachedSize (y.buffer it.logId) io = (.ok z, y') ∧ y.Leads cfg y' ∧ { it with size := some z }.Stands y' ∧
        (z ≤ it.position → y.disk.recordsFrom it.place = y.disk.recordsFrom (endOf (it.logId + 1) [])) := by
  rcases hs.file with ⟨h0, -⟩ | hf
  · refine ⟨y, 0, ?_, .refl h, ⟨hs.committed, hs.le, Or.inl ⟨h0, rfl⟩⟩, fun _ => ?_⟩
    · rw [h0, h.buffer_zero]
      rfl
    · rw [LogIterator.place, h0]
      exact h.recordsFrom_zero _
  · obtain ⟨b, hb⟩ := Option.isSome_iff_exists.mp hf.buffer
    have hthere := h.there hf.buffer
    obtain ⟨y', hc, hleads⟩ := h.cachedSize cfg hb (hbefore.trans_le h.watermark.le) hio
    refine ⟨y', _, ?_, hleads, ?_, h.at_end hf⟩
    · rw [buffer, hb]
      exact hc
    · have hs' := hleads.stands hs
      obtain ⟨h0, -⟩ | hf' := hs'.file
      · exact absurd h0 (h.filed.file (h.filed.log hthere)).1.ne'
      · exact ⟨hs'.committed, hs'.le, Or.inr ⟨hf'.buffer, hf'.position, _, rfl,
          hleads.reads.lengthens.marks (h.marks_length hthere)⟩⟩

/-- The head of a call never throws, and leaves the iterator ready to read on, or to stop. -/
theorem Fit.nextHead (h : y.Fit) (cfg : StoreConfig) (hs : it.Stands y) (hio : y.CanOpen io) :
    ∃ y' it', y.nextHead cfg it io = (.ok (), y', it') ∧ HeadOk cfg y it io y' it' := by
  unfold Reading.nextHead
  by_cases hsize : it.size.any (· ≤ it.position) = true
  · have hlast : y.loadLastPosition it.readUncommitted io = (.ok
        (y.store.lastCommittedPosition.logSequenceNumber, y.store.lastCommittedPosition.positionInLogFile), y) := by
      rw [hs.committed]
      rfl
    rw [if_pos hsize, hlast]
    simp only
    by_cases hbefore : it.logId < y.store.lastCommittedPosition.logSequenceNumber
    · rw [if_pos hbefore]
      -- the size of its own file, which has all its entries
      obtain ⟨y1, z, hc, hleads, hs', hz⟩ := h.ownSize cfg hs hio hbefore
      rw [show y.cachedSize (y.buffer it.logId) io = _ from hc]
      simp only
      have hw := hleads.reads.committed
      have hpass : it.Passes y.disk { it with size := some z } [] := .of_place ⟨rfl, rfl, rfl, rfl, rfl⟩ rfl rfl
      by_cases hend : z ≤ it.position
      · rw [if_pos hend]
        have hleft : y1.disk.recordsFrom it.place = y1.disk.recordsFrom (endOf (it.logId + 1) []) := by
          rw [hleads.recordsFrom, hleads.recordsFrom]
          exact hz hend
        obtain ⟨y2, ⟨hm, hk⟩ | ⟨b, hm, hid, hmore, hlatest⟩⟩ :=
          hleads.fit.hop cfg hs' (hleads.canOpen hio) (hw ▸ hbefore) hleft
        · rw [hm]
          exact ⟨_, _, rfl, hk.after hleads hpass rfl⟩
        · rw [hm]
          simp only [hid]
          rw [hw] at hmore hlatest
          split_ifs with hlt
          · obtain ⟨y3, size, hc', hk⟩ := hmore hlt
            rw [hc']
            exact ⟨_, _, rfl, hk.after hleads hpass rfl⟩
          · exact ⟨_, _, rfl, (hlatest hlt).after hleads hpass rfl⟩
      · rw [if_neg hend]
        exact ⟨_, _, rfl, hleads, hs', hpass, le_rfl, Or.inl rfl, fun z' hz' hle =>
          absurd (Option.some.inj hz' ▸ hle) hend⟩
    · rw [if_neg hbefore]
      have heq := le_antisymm hs.le (not_lt.mp hbefore)
      refine ⟨_, _, rfl, .refl h, ?_, .of_place ⟨rfl, rfl, rfl, rfl, rfl⟩ rfl rfl, le_rfl, Or.inl rfl,
        fun z hz hle => Or.inl ⟨heq, ?_⟩⟩
      · exact h.rests hs heq
      · obtain rfl := Option.some.inj hz
        exact hle
  · rw [if_neg hsize]
    refine ⟨y, it, rfl, .refl h, hs, .refl _ _, le_rfl, Or.inl rfl, fun z hz hle => absurd ?_ hsize⟩
    rw [Option.mem_def.mp hz, Option.any_some]
    exact decide_eq_true hle

/-- What the loop inside one file leaves. -/
structure ScanOk (y : Reading) (it : LogIterator) (size : ℕ) (r : ScanResult × LogIterator) : Prop where
  logId : r.2.logId = it.logId
  stands : r.2.Stands y
  passes : it.Passes y.disk r.2 r.1.entries
  ended : r.1 = .ended → r.2 = it ∧ size ≤ it.position
  passed : r.1 = .passed → it.position < size ∧ size ≤ r.2.position ∧ it.InFile y
  not_done : r.1 ≠ .done
  torn : r.1 = .rangeError → it.InFile y ∧ (y.buffer it.logId).length < size ∧ fileRecords (y.disk.bytes it.logId) ≠ []
  reach : r.2.position = it.position ∨ r.2.position ≤ size

theorem Fit.scan (h : y.Fit) (hs : it.Stands y) : ∃ size, it.size = some size ∧
    ScanOk y it size (scanBuffer (y.view it.logId) size ((y.view it.logId).length + 1) it) := by
  rcases hs.file with ⟨h0, hzero⟩ | hf
  · refine ⟨0, hzero, ?_⟩
    rw [scanBuffer]
    simp only
    rw [if_pos (Nat.zero_le _)]
    exact ⟨rfl, hs, .refl _ _, fun _ => ⟨rfl, Nat.zero_le _⟩, fun hp => (by cases hp), fun hd => (by cases hd),
      fun he => (by cases he), Or.inl rfl⟩
  · obtain ⟨bytes, hb⟩ := Option.isSome_iff_exists.mp (h.there hf.buffer)
    obtain ⟨timestamp, rs, hw⟩ := h.filed.stamped.disk.whole hb
    obtain ⟨front, ⟨back, hrs⟩, hplace⟩ := hf.position
    obtain ⟨size, hsize, hmarks⟩ := hf.size
    refine ⟨size, hsize, ?_⟩
    have hbytes := Disk.bytes_eq hb
    have hpos : it.position = TRANSACTION_LOG_FILE_HEADER_SIZE + (frames front).length :=
      congrArg LogPosition.positionInLogFile hplace
    have hrecords : rs = front ++ back := by rw [hrs, hbytes, hw.records]
    have hlimit : ∃ limit, limit <+: front ++ back ∧
        (size = 0 ∨ size = TRANSACTION_LOG_FILE_HEADER_SIZE + (frames limit).length) := by
      rcases hmarks with h0 | ⟨limit, hlimit, heq⟩
      · exact ⟨[], List.nil_prefix, Or.inl h0⟩
      · exact ⟨limit, by rw [hrs]; exact hlimit, Or.inr (congrArg LogPosition.positionInLogFile heq)⟩
    obtain ⟨limit, hlimit, hat⟩ := hlimit
    rw [hrecords] at hw
    unfold view
    rw [hbytes, length_mapView]
    have hfuel : (y.buffer it.logId).length < it.position + ((y.buffer it.logId).length + 1) := by omega
    obtain ⟨taken, hk⟩ := scanBuffer_walk back front _ it hw hlimit hat hpos hfuel (Nat.succ_pos _)
    generalize scanBuffer (mapView bytes (y.buffer it.logId).length) size ((y.buffer it.logId).length + 1) it = r at hk
    have heq := hk.iterator
    have hid : r.2.logId = it.logId := by rw [heq]
    obtain ⟨rest, hrest⟩ := hk.next
    have hplace' : r.2.place = endOf it.logId (front ++ taken) := by
      rw [heq]
      rfl
    have hfront : front ++ taken <+: fileRecords (y.disk.bytes it.logId) :=
      ⟨rest, by rw [List.append_assoc, hrest, hrs]⟩
    have hlike : it.Like r.2 := by
      rw [heq]
      exact ⟨rfl, rfl, rfl, rfl, rfl⟩
    have hsame : r.2.size = it.size := by rw [heq]
    refine ⟨hid, ⟨?_, by rw [hid]; exact hs.le, Or.inr ⟨by rw [hid]; exact hf.buffer, ?_, ?_⟩⟩,
      ⟨hlike, taken, ?_, hk.selects⟩, fun he => ?_,
      fun hp => ⟨(hk.passed hp).1, (hk.passed hp).2, hf⟩, hk.not_done, fun he => ⟨hf, (hk.torn he).1, ?_⟩, hk.reach⟩
    · rw [hlike.readUncommitted, hs.committed]
    · refine ⟨front ++ taken, ?_, ?_⟩
      · rw [hid]
        exact hfront
      · rw [hid, hplace']
    · refine ⟨size, hsame.trans hsize, ?_⟩
      rw [hid]
      exact hmarks
    · have hall : fileRecords (y.disk.bytes it.logId) = (front ++ taken) ++ rest := by
        rw [List.append_assoc, hrest, hrs]
      rw [hplace, hplace', recordsFrom_file hall, recordsFrom_file hrs.symm, ← hrest, List.append_assoc]
    · obtain ⟨hnil, hle⟩ := hk.ended he
      have hsel := hk.selects
      rw [hnil, LogIterator.selects] at hsel
      have hfound : r.2.foundExactStart = it.foundExactStart := (congrArg Prod.snd hsel).symm
      refine ⟨heq.trans ?_, hle⟩
      rw [hnil, List.append_nil, ← hpos, hfound]
    · rw [← hrs]
      exact List.append_ne_nil_of_right_ne_nil _ (hk.torn he).2

/-- Within the call, the loop of `next` passes an entry out of the range at a limit that its file has
outgrown, gets no mapping of the next file, or goes on in one that may still grow. -/
def stray : LoopTrap where
  leaves y it := decide (it.position < (y.disk.bytes it.logId).length)
  enters y logId _ := decide (logId = y.store.currentSequenceNumber)
  unmapped := true

def callStrays (cfg : StoreConfig) (y : Reading) (it : LogIterator) (io : ReadCalls) : Bool :=
  callMeets stray cfg y it io

/-- What the loop of a call leaves. -/
structure LoopOk (cfg : StoreConfig) (y : Reading) (it : LogIterator)
    (r : NextResult × Reading × LogIterator) : Prop where
  leads : y.Leads cfg r.2.1
  stands : r.2.2.Stands r.2.1
  passes : it.Passes y.disk r.2.2 r.1.entries
  le : it.logId ≤ r.2.2.logId

theorem LoopOk.after {it' : LogIterator} {r : NextResult × Reading × LogIterator} (h : LoopOk cfg y' it' r)
    (hleads : y.Leads cfg y') (hp : it.Passes y.disk it' []) (hle : it.logId ≤ it'.logId) : LoopOk cfg y it r :=
  ⟨hleads.trans h.leads, h.stands, hp.trans (hleads.passes_iff.mp h.passes), hle.trans h.le⟩

/-- A round of the loop of `next` that ends the call. -/
structure RoundEnds (y : Reading) (it : LogIterator) (size : ℕ) (r : NextResult) (it' : LogIterator) : Prop where
  stands : it'.Stands y
  passes : it.Passes y.disk it' r.entries
  logId : it'.logId = it.logId
  reach : it'.position = it.position ∨ it'.position ≤ size
  done : r = .done → it' = it ∧ size ≤ it.position
  threw : ∀ e, r = .threw e → it.InFile y ∧ (y.buffer it.logId).length < size ∧ fileRecords (y.disk.bytes it.logId) ≠ []

/-- The iterator has gone on to the next file, with all of it for its limit. -/
structure Entered (y : Reading) (it : LogIterator) (y' : Reading) (it' : LogIterator) : Prop where
  before : it.logId < y.store.lastCommittedPosition.logSequenceNumber
  logId : it'.logId = it.logId + 1
  position : it'.position = TRANSACTION_LOG_FILE_HEADER_SIZE
  limit : it'.size = some (y'.disk.bytes it'.logId).length

/-- The iterator is in the watermark's file still, with the watermark for its limit. -/
structure Stayed (y : Reading) (it : LogIterator) (size : ℕ) (it' : LogIterator) : Prop where
  last : it.logId = y.store.lastCommittedPosition.logSequenceNumber
  logId : it'.logId = it.logId
  limit : it'.size = some y.store.lastCommittedPosition.positionInLogFile
  lt : it.position < size
  le : size ≤ it'.position

/-- A round that does not end it. -/
structure RoundGoes (cfg : StoreConfig) (y : Reading) (it : LogIterator) (size : ℕ) (y' : Reading)
    (it' : LogIterator) : Prop where
  leads : y.Leads cfg y'
  stands : it'.Stands y'
  passes : it.Passes y.disk it' []
  reach : it'.logId = it.logId → it'.position ≤ size
  moves : Entered y it y' it' ∨ Stayed y it size it'

/-- After such a round the loop meets a trap where it met it before; in the file entered it has not yet. -/
def StillMissed (cfg : StoreConfig) (io : ReadCalls) (fuel : ℕ) (y : Reading) (it : LogIterator)
    (y' : Reading) (it' : LogIterator) : Prop :=
  ∀ trap : LoopTrap, loopMeets trap cfg io (fuel + 1) y it = false → loopMeets trap cfg io fuel y' it' = false ∧
    (it'.logId ≠ it.logId → ∃ y1, y.Leads cfg y1 ∧ ∃ limit ∈ it'.size, trap.enters y1 it'.logId limit = false)

/-- What one round of the loop does. -/
theorem Fit.round (h : y.Fit) (cfg : StoreConfig) (hs : it.Stands y) (hio : y.CanOpen io) {fuel : ℕ}
    (hno : loopMeets stray cfg io (fuel + 1) y it = false) : ∃ size, it.size = some size ∧
      ((∃ r it', nextLoop cfg io (fuel + 1) y it = (r, y, it') ∧ RoundEnds y it size r it') ∨
        ∃ y' it', nextLoop cfg io (fuel + 1) y it = nextLoop cfg io fuel y' it' ∧ RoundGoes cfg y it size y' it' ∧
          StillMissed cfg io fuel y it y' it') := by
  obtain ⟨size, hsize, hscan⟩ := h.scan hs
  refine ⟨size, hsize, ?_⟩
  unfold StillMissed
  simp only [Reading.nextLoop, loopMeets, hsize] at hno ⊢
  rcases hr : scanBuffer (y.view it.logId) size ((y.view it.logId).length + 1) it with ⟨res, it1⟩
  rw [hr] at hno hscan
  obtain ⟨hid, hs1, hpass, hended, hpassed, hnotdone, htorn, hreach⟩ := hscan
  simp only at hid hs1 hpass hended hpassed hnotdone htorn hreach
  cases res with
  | ended => exact Or.inl ⟨_, _, rfl, hs1, hpass, hid, hreach, fun _ => hended rfl, fun e he => by cases he⟩
  | done => exact absurd rfl hnotdone
  | rangeError => exact Or.inl ⟨_, _, rfl, hs1, hpass, hid, hreach, fun hd => (by cases hd), fun e _ => htorn rfl⟩
  | value entry place =>
    exact Or.inl ⟨_, _, rfl, hs1, hpass, hid, hreach, fun hd => (by cases hd), fun e he => by cases he⟩
  | passed =>
    refine Or.inr ?_
    obtain ⟨hlt, hle, hin⟩ := hpassed rfl
    have hat : it1.position ≤ size := hreach.elim (fun heq => heq ▸ hlt.le) id
    have hlast : y.loadLastPosition it1.readUncommitted io = (.ok
        (y.store.lastCommittedPosition.logSequenceNumber, y.store.lastCommittedPosition.positionInLogFile), y) := by
      rw [hs1.committed]
      rfl
    simp only [hlast] at hno ⊢
    by_cases hbefore : it1.logId < y.store.lastCommittedPosition.logSequenceNumber
    · simp only [if_pos hbefore] at hno ⊢
      rw [Bool.or_eq_false_iff] at hno
      obtain ⟨hfull, hno⟩ := hno
      have hfull : (y.disk.bytes it1.logId).length ≤ it1.position := not_lt.mp (of_decide_eq_false hfull)
      have hin1 : it1.InFile y := hs1.file.resolve_left fun h0 => by
        have := (h.filed.file (h.filed.log (h.there hin.buffer))).1
        omega
      have hend := h.at_end hin1 hfull
      obtain ⟨y1, hleads, ⟨hm, -⟩ | ⟨b, hm, hb⟩⟩ := h.getLogMemoryMap cfg (show it1.logId + 1 ≠ 0 by omega) hio
      · rw [hm] at hno
        cases hno
      rw [hm] at hno
      have hbid := (hleads.fit.buffers hb).logId
      have hthere := (hleads.fit.buffers hb).there
      simp only [hm] at hno ⊢
      -- neither a file that may grow nor one whose size is not found
      have hgrows : b.logId ≠ y1.store.currentSequenceNumber := by
        rcases hc : y1.cachedSize b io with ⟨e | limit, y2⟩
        · rw [hc] at hno
          cases hno
        · simp only [hc, Bool.or_eq_false_iff] at hno
          exact of_decide_eq_false hno.1
      have hw := hleads.reads.committed
      have hcur : it1.logId + 1 < y1.store.currentSequenceNumber := by
        have hle := h.watermark.le
        rw [hleads.reads.current]
        rw [hbid, hleads.reads.current] at hgrows
        omega
      obtain ⟨y2, hc, hleads'⟩ := hleads.fit.cachedSize cfg hb hcur (hleads.canOpen hio)
      have hmode := hs1.committed
      have hall := hleads.trans hleads'
      have hle2 : it1.logId + 1 ≤ y2.store.lastCommittedPosition.logSequenceNumber := by
        rw [hall.reads.committed]
        exact hbefore
      have hs2 := enters hmode (hleads'.kept _ (show (y1.log.logBuffers.get? (it1.logId + 1)).isSome by rw [hb]; rfl))
        hle2
        (hleads'.reads.lengthens.marks (hleads.fit.marks_length hthere))
      have hstep : it1.Passes y.disk { it1 with
          logId := it1.logId + 1
          size := some (y1.disk.bytes (it1.logId + 1)).length
          position := TRANSACTION_LOG_FILE_HEADER_SIZE } [] := .of_place ⟨rfl, rfl, rfl, rfl, rfl⟩ rfl hend.symm
      refine ⟨y2, { it1 with
          logId := it1.logId + 1
          size := some (y1.disk.bytes (it1.logId + 1)).length
          position := TRANSACTION_LOG_FILE_HEADER_SIZE }, ?next, ⟨hall, hs2, hpass.trans hstep, ?reach,
            Or.inl ⟨hid ▸ hbefore, ?logId, rfl, ?limit⟩⟩, ?missed⟩
      case next =>
        -- the loop goes on as after `cachedSize`
        unfold Reading.cachedSize at hc
        cases hz : b.size with
        | some z =>
          simp only [hz, Prod.mk.injEq, Except.ok.injEq] at hc
          simp only [hbid, hc.1, hc.2]
        | none =>
          rw [hz] at hc
          simp only at hc ⊢
          rcases hg : y1.getLogFileSize b.logId io with ⟨e | limit, y3⟩
          · rw [hg] at hc
            cases hc
          · rw [hg] at hc
            obtain ⟨rfl, rfl⟩ : limit = (y1.disk.bytes (it1.logId + 1)).length ∧
                y3.setBuffer { b with size := some limit } = y2 := by
              simp only [Prod.mk.injEq, Except.ok.injEq] at hc
              exact hc
            simp only [hmode, Bool.false_eq_true, if_false, hbid]
      case reach =>
        intro heq
        change it1.logId + 1 = it.logId at heq
        omega
      case logId => rw [hid]
      case limit =>
        change some _ = some (y2.disk.bytes (it1.logId + 1)).length
        rw [hleads'.reads.bytes hthere]
      case missed =>
        intro trap htrap
        simp only [hc, Bool.or_eq_false_iff, hbid] at htrap
        exact ⟨htrap.2.2, fun _ => ⟨y1, hleads, _, rfl, htrap.2.1⟩⟩
    · -- in the watermark's file the limit becomes the watermark
      have heq := le_antisymm hs1.le (not_lt.mp hbefore)
      simp only [if_neg hbefore]
      refine ⟨y, _, rfl, ⟨.refl h, h.rests hs1 heq, hpass.trans (.of_place ⟨rfl, rfl, rfl, rfl, rfl⟩ rfl rfl),
        fun _ => hat,
        Or.inr ⟨hid ▸ heq, hid, rfl, hlt, hle⟩⟩, fun trap _ => ⟨loopMeets_of_not_before trap fuel hbefore,
        fun hne => absurd hid hne⟩⟩

/-- So many rounds take the loop to the watermark. -/
def Enough (y : Reading) (it : LogIterator) (fuel : ℕ) : Prop :=
  y.store.lastCommittedPosition.logSequenceNumber + 3 ≤ fuel + it.logId ∨
    it.logId = y.store.lastCommittedPosition.logSequenceNumber ∧
      it.size = some y.store.lastCommittedPosition.positionInLogFile ∧
      (2 ≤ fuel ∨ 1 ≤ fuel ∧ y.store.lastCommittedPosition.positionInLogFile ≤ it.position)

/-- A round leaves as many as the others need. -/
theorem RoundGoes.enough {y' : Reading} {it' : LogIterator} {size fuel : ℕ} (h : RoundGoes cfg y it size y' it')
    (hsize : it.size = some size) (henough : Enough y it (fuel + 1)) : Enough y' it' fuel := by
  unfold Enough at henough ⊢
  rw [h.leads.reads.committed]
  rcases h.moves with hm | hm
  · have hbefore := hm.before
    have hid := hm.logId
    left
    rcases henough with henough | ⟨henough, -⟩ <;> omega
  · refine Or.inr ⟨hm.logId.trans hm.last, hm.limit, ?_⟩
    have hlast := hm.last
    have hlt := hm.lt
    have hle := hm.le
    rcases henough with henough | ⟨-, hsz, henough | ⟨-, henough⟩⟩
    · left
      omega
    · -- the limit was the watermark already, and is reached
      obtain rfl := Option.some.inj (hsize.symm.trans hsz)
      exact Or.inr ⟨by omega, hle⟩
    · obtain rfl := Option.some.inj (hsize.symm.trans hsz)
      omega

theorem RoundGoes.le {y' : Reading} {it' : LogIterator} {size : ℕ} (h : RoundGoes cfg y it size y' it') :
    it.logId ≤ it'.logId := by
  rcases h.moves with hm | hm
  · exact hm.logId ▸ Nat.le_succ _
  · exact hm.logId.ge

/-- At its limit already after a round, an iterator is at the watermark or in a file without an entry. -/
theorem RoundGoes.halts {y' : Reading} {it' : LogIterator} {size last : ℕ}
    (h : RoundGoes cfg y it size y' it') (hlast : last ≤ it.logId) :
    ∀ z ∈ it'.size, z ≤ it'.position → Halts cfg y' io last it' := by
  intro z hz hle
  rcases h.moves with hm | hm
  · obtain rfl := Option.some.inj (hz.symm.trans hm.limit)
    have hid := hm.logId
    have hin : it'.InFile y' := h.stands.file.resolve_left fun h0 => by
      have := h0.1
      omega
    refine Or.inr (Or.inr ⟨by omega, h.leads.fit.no_records (h.leads.fit.there hin.buffer) ?_⟩)
    rw [← hm.position]
    exact hle
  · obtain rfl := Option.some.inj (hz.symm.trans hm.limit)
    refine Or.inl ⟨?_, ?_⟩
    · rw [h.leads.reads.committed, hm.logId, hm.last]
    · rw [h.leads.reads.committed]
      exact hle

theorem Fit.nextLoop (cfg : StoreConfig) (fuel : ℕ) :
    ∀ {y : Reading} {it : LogIterator}, y.Fit → it.Stands y → y.CanOpen io →
    loopMeets stray cfg io fuel y it = false → LoopOk cfg y it (nextLoop cfg io fuel y it) ∧
      ∀ last ≤ it.logId, Enough y it fuel → (∀ z ∈ it.size, z ≤ it.position → Halts cfg y io last it) →
        (nextLoop cfg io fuel y it).1 = .done → Halts cfg y io last (nextLoop cfg io fuel y it).2.2 := by
  induction fuel with
  | zero =>
    intro y it h hs _ _
    refine ⟨⟨.refl h, hs, .refl _ _, le_rfl⟩, fun last _ henough _ _ => ?_⟩
    have := hs.le
    rcases henough with henough | ⟨-, -, henough | ⟨henough, -⟩⟩ <;> omega
  | succ fuel ih =>
    intro y it h hs hio hno
    obtain ⟨size, hsize, ⟨r, it', hr, hends⟩ | ⟨y', it', hr, hgoes, hmissed⟩⟩ := h.round cfg hs hio hno
    · rw [hr]
      refine ⟨⟨.refl h, hends.stands, hends.passes, hends.logId.ge⟩, fun last _ _ hhead hd => ?_⟩
      obtain ⟨rfl, hle⟩ := hends.done hd
      exact hhead size hsize hle
    · rw [hr]
      obtain ⟨hok, hhalts⟩ := ih hgoes.leads.fit hgoes.stands (hgoes.leads.canOpen hio) (hmissed stray hno).1
      refine ⟨hok.after hgoes.leads hgoes.passes hgoes.le, fun last hlast henough _ hd => ?_⟩
      exact hgoes.leads.halts_iff.mp (hhalts last (hlast.trans hgoes.le) (hgoes.enough hsize henough)
        (hgoes.halts hlast) hd)

/-- A call of `next`. -/
theorem Fit.next (h : y.Fit) (cfg : StoreConfig) (hs : it.Stands y) (hio : y.CanOpen io)
    (hno : callStrays cfg y it io = false) : LoopOk cfg y it (y.next cfg it io) ∧
      ((y.next cfg it io).1 = .done → Halts cfg y io it.logId (y.next cfg it io).2.2) := by
  obtain ⟨y', it', hr, hk⟩ := h.nextHead cfg hs hio
  unfold callStrays callMeets at hno
  unfold Reading.next
  rw [hr] at hno ⊢
  simp only at hno ⊢
  obtain ⟨hok, hhalts⟩ := hk.leads.fit.nextLoop cfg _ hk.stands (hk.leads.canOpen hio) hno
  refine ⟨hok.after hk.leads hk.passes hk.le, fun hd =>
    hk.leads.halts_iff.mp (hhalts it.logId hk.le (Or.inl (by omega)) (fun z hz hle => ?_) hd)⟩
  exact hk.leads.halts_iff.mpr (hk.halts z hz hle)

/-- Before the whole log, or between two entries of it. -/
def Bounds (d : Disk) (p : LogPosition) : Prop :=
  p.logSequenceNumber = 0 ∨ (d.logs.get? p.logSequenceNumber).isSome ∧
    ∃ front, front <+: fileRecords (d.bytes p.logSequenceNumber) ∧ p = endOf p.logSequenceNumber front

theorem Fit.bounds (h : y.Fit) (hs : it.Stands y) : Bounds y.disk it.place :=
  hs.file.imp And.left fun hf => ⟨h.there hf.buffer, hf.position⟩

theorem Bounds.lengthens {d d' : Disk} {p : LogPosition} {more : List (LogPosition × LogRecord)} (h : Bounds d p)
    (hl : d.Lengthens d' more) : Bounds d' p :=
  h.imp_right fun ⟨hthere, front, hfront, heq⟩ => ⟨hl.kept _ hthere, front, hfront.trans (hl.records _), heq⟩

/-- What is added to the log is behind it. -/
theorem Bounds.behind {d d' : Disk} {p : LogPosition} {more : List (LogPosition × LogRecord)} (h : Bounds d p)
    (hl : d.Lengthens d' more) (hpos : ∀ q, (d'.logs.get? q).isSome → 0 < q) : ∀ x ∈ more, p ≤ x.1 := by
  intro x hx
  rcases h with h0 | ⟨hthere, front, hfront, heq⟩
  · obtain ⟨bytes, hb, -⟩ := mem_shelf.mp (show x ∈ d'.shelf by rw [hl.shelf]; exact List.mem_append_right _ hx)
    rw [LogPosition.le_iff, h0]
    exact Or.inl (hpos _ (by rw [hb]; rfl))
  · rw [heq]
    exact (endOf_le hfront).trans (hl.behind _ hthere x hx)

section Grows
variable {w w' : World} {flushes : List LogPosition} {more : List (LogPosition × LogRecord)} {log : TransactionLog}

/-- The reader's mappings while the log grows. -/
theorem Fit.grows (h : Fit ⟨w.store, w.disk, log⟩) (hk : Kept w' flushes) (hg : LogGrows w w' more) :
    Fit ⟨w'.store, w'.disk, log⟩ := by
  refine ⟨hk.filed, hk.held .committed, fun {k b} hb => ?_, h.current⟩
  obtain ⟨hid, hthere, hsize⟩ := h.buffers hb
  refine ⟨hid, hg.lengthens.kept k hthere, fun z hz => ?_⟩
  obtain ⟨hlt, heq⟩ := hsize z hz
  refine ⟨hlt.trans_le hg.current, ?_⟩
  rw [heq, Disk.bytes, Disk.bytes, hg.settled k hlt]

theorem stands_grows (hs : it.Stands ⟨w.store, w.disk, log⟩) (hg : LogGrows w w' more)
    (hle : w.store.lastCommittedPosition ≤ w'.store.lastCommittedPosition) : it.Stands ⟨w'.store, w'.disk, log⟩ := by
  have hseq : w.store.lastCommittedPosition.logSequenceNumber ≤ w'.store.lastCommittedPosition.logSequenceNumber := by
    rcases LogPosition.le_iff.mp hle with hlt | ⟨heq, -⟩
    · exact hlt.le
    · exact heq.le
  refine ⟨hs.committed, hs.le.trans hseq, hs.file.imp_right fun hf => ⟨hf.buffer, ?_, ?_⟩⟩
  · obtain ⟨front, hfront, heq⟩ := hf.position
    exact ⟨front, hfront.trans (hg.lengthens.records _), heq⟩
  · obtain ⟨z, hz, hmarks⟩ := hf.size
    exact ⟨z, hz, hg.lengthens.marks hmarks⟩

end Grows

end

end Reading

end RocksdbJs
