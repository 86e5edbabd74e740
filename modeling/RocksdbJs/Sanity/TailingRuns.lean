import RocksdbJs.Sanity.Tailing
import RocksdbJs.Proofs.ReaderSoundness
import RocksdbJs.Proofs.TimestampLookup

/-! The readers of a log over a run in which it is written, committed, flushed and rotated. A query
starts where what it asks for begins, and the log grows behind what the iterators have passed, each
record once and in order. -/

namespace RocksdbJs

open TransactionLogStore

namespace Reading
variable {cfg : StoreConfig} {y y' : Reading} {it : LogIterator} {io : ReadCalls} {options : TransactionLogQueryOptions}

/-- The place that a query starts at for a position of the log. -/
def afterHeader (p : LogPosition) : LogPosition :=
  ⟨if p.positionInLogFile = 0 then TRANSACTION_LOG_FILE_HEADER_SIZE else p.positionInLogFile, p.logSequenceNumber⟩

theorem le_afterHeader (p : LogPosition) : p ≤ afterHeader p := by
  rw [LogPosition.le_iff, afterHeader]
  refine Or.inr ⟨rfl, ?_⟩
  split_ifs with h0
  · exact h0 ▸ Nat.zero_le _
  · exact le_rfl

theorem afterHeader_le {d : Disk} {p : LogPosition} {x : LogPosition × LogRecord} (hx : x ∈ d.shelf) (hle : p ≤ x.1) :
    afterHeader p ≤ x.1 := by
  obtain ⟨bytes, -, hx⟩ := mem_shelf.mp hx
  have hhead := (mem_fileShelf hx).2.1
  rw [LogPosition.le_iff] at hle ⊢
  unfold afterHeader
  split_ifs
  · exact hle.imp_right fun h => ⟨h.1, hhead⟩
  · exact hle

theorem anchored_start {s : TransactionLogStore} {d : Disk} {p : LogPosition} (h : Anchored s d p) :
    ∃ front, front <+: fileRecords (d.bytes p.logSequenceNumber) ∧ afterHeader p = endOf p.logSequenceNumber front := by
  unfold afterHeader
  rcases h.marks with h0 | ⟨front, hfront, heq⟩
  · refine ⟨[], List.nil_prefix, ?_⟩
    rw [if_pos h0]
    rfl
  · have hpos : p.positionInLogFile = TRANSACTION_LOG_FILE_HEADER_SIZE + (frames front).length :=
      congrArg LogPosition.positionInLogFile heq
    have h13 : TRANSACTION_LOG_FILE_HEADER_SIZE = 13 := rfl
    refine ⟨front, hfront, ?_⟩
    rw [if_neg (by omega), hpos]
    rfl

/-- The position that the options name: the flushed one, with a timestamp the beginning, else the watermark. -/
def askedFrom (y : Reading) (options : TransactionLogQueryOptions) : LogPosition :=
  if options.startFromLastFlushed then getLastFlushedPosition y.disk
  else if options.start.isSome then ⟨0, 0⟩ else y.store.lastCommittedPosition

/-- The place `p` is at or past the position asked for, and no entry from `t` on lies between them. -/
structure StartsAt (d : Disk) (t : Binary64) (position p : LogPosition) : Prop where
  le : position ≤ p
  back : ∀ x ∈ d.shelf, Binary64.ge x.2.timestamp t = true → position ≤ x.1 → p ≤ x.1

theorem startsAt_afterHeader (d : Disk) (t : Binary64) (p : LogPosition) : StartsAt d t p (afterHeader p) :=
  ⟨le_afterHeader p, fun _ hx _ hle => afterHeader_le hx hle⟩

theorem startsAt_find {d : Disk} {t : Binary64} {p : LogPosition} (h : ∀ q, NotSkipped d t p q) :
    StartsAt d t ⟨0, 0⟩ (afterHeader p) := by
  refine ⟨LogPosition.zero_le _, fun x hx ht _ => afterHeader_le hx ?_⟩
  obtain ⟨bytes, hb, hx⟩ := mem_shelf.mp hx
  obtain ⟨z, hz, heq⟩ := List.mem_map.mp hx
  have hle := h x.1.logSequenceNumber bytes hb z hz (by rw [← heq] at ht; exact ht)
  rw [← heq]
  exact hle

/-- What a query finds: a place between two entries, where what its options ask for begins. -/
structure StartOk (y : Reading) (t : Binary64) (asked : LogPosition) (logId position : ℕ) : Prop where
  place : ∃ front, front <+: fileRecords (y.disk.bytes logId) ∧ (⟨position, logId⟩ : LogPosition) = endOf logId front
  starts : StartsAt y.disk t asked ⟨position, logId⟩
  file : asked = ⟨0, 0⟩ ∨ asked.logSequenceNumber = logId

/-- A lookup of the reader. -/
theorem Fit.find (h : y.Fit) (t : Binary64) (hok : FindOk cfg y.store y.disk io) : ∃ p s',
    y.store.findPositionByTimestamp cfg y.disk t io = (.ok p, s') ∧ y.Leads cfg { y with store := s' } ∧
      Anchored s' y.disk p ∧
      ∀ q, NotSkipped y.disk t p q := by
  obtain ⟨p, s', hr, hfiled, hreads, hp, -, hskip⟩ := h.filed.findPosition (t := t) hok
  exact ⟨p, s', hr, h.reads cfg hreads hfiled, hp.mono hreads.lengthens hreads.current.ge, hskip⟩

/-- Every entry is from timestamp zero on. -/
theorem Fit.ge_zero (h : y.Fit) {x : LogPosition × LogRecord} (hx : x ∈ y.disk.shelf) :
    Binary64.ge x.2.timestamp Binary64.zero = true := by
  obtain ⟨bytes, hb, hx⟩ := mem_shelf.mp hx
  obtain ⟨timestamp, rs, hw⟩ := h.filed.stamped.disk.whole hb
  obtain ⟨z, hz, heq⟩ := List.mem_map.mp hx
  rw [hw.records] at hz
  have hpos := hw.pos z.2 (located_mem z hz).1
  rw [← heq]
  exact Binary64.lt_ge hpos

theorem Fit.queryStart (h : y.Fit) (hflushed : ∀ p ∈ y.disk.txnState, Anchored y.store y.disk p)
    (hfind : options.start.isSome = true ∨ options.startFromLastFlushed = true → FindOk cfg y.store y.disk io) :
    ∃ y' logId position, y.queryStart cfg options
        (y.store.lastCommittedPosition.logSequenceNumber, y.store.lastCommittedPosition.positionInLogFile) io =
          (.ok (logId, position, options.start.getD Binary64.zero), y') ∧
      y.Leads cfg y' ∧ StartOk y' (options.start.getD Binary64.zero) (y.askedFrom options) logId position := by
  unfold Reading.queryStart askedFrom
  simp only
  by_cases hlast : options.startFromLastFlushed = true
  · rw [if_pos hlast, if_pos hlast]
    by_cases hzero : (getLastFlushedPosition y.disk).isZero = true
    · obtain ⟨p, s', hr, hleads, hp, hskip⟩ := h.find Binary64.zero (hfind (Or.inr hlast))
      rw [if_pos hzero, hr, LogPosition.isZero_iff.mp hzero]
      have hstarts := startsAt_find hskip
      exact ⟨_, _, _, rfl, hleads, anchored_start hp,
        ⟨hstarts.le, fun x hx _ hle => hstarts.back x hx (h.ge_zero hx) hle⟩, Or.inl rfl⟩
    · have hplace : Anchored y.store y.disk (getLastFlushedPosition y.disk) := by
        unfold getLastFlushedPosition
        cases hstate : y.disk.txnState with
        | none => exact anchored_zero _ _
        | some p => exact hflushed p hstate
      rw [if_neg hzero]
      exact ⟨_, _, _, rfl, .refl h, anchored_start hplace, startsAt_afterHeader _ _ _, Or.inr rfl⟩
  · rw [if_neg hlast, if_neg hlast]
    cases hstart : options.start with
    | none => exact ⟨_, _, _, rfl, .refl h, anchored_start h.watermark, startsAt_afterHeader _ _ _, Or.inr rfl⟩
    | some t =>
      obtain ⟨p, s', hr, hleads, hp, hskip⟩ := h.find t (hfind (Or.inl (by rw [hstart]; rfl)))
      simp only [hr]
      exact ⟨_, _, _, rfl, hleads, anchored_start hp, startsAt_find hskip, Or.inl rfl⟩

/-- The iterator that a query with these options makes. -/
structure Asks (options : TransactionLogQueryOptions) (it : LogIterator) : Prop where
  start : it.start = options.start.getD Binary64.zero
  «end» : it.end = options.end.getD Binary64.maxValue
  exactStart : it.exactStart = options.exactStart
  exclusiveStart : it.exclusiveStart = options.exclusiveStart
  found : it.foundExactStart = false

/-- What a query leaves. -/
structure QueryOk (cfg : StoreConfig) (y : Reading) (options : TransactionLogQueryOptions)
    (io : ReadCalls) (y' : Reading)
    (it : LogIterator) : Prop where
  leads : y.Leads cfg y'
  stands : it.Stands y'
  asks : Asks options it
  starts : y.askedFrom options = ⟨0, 0⟩ ∨ ¬ Unmapped cfg y.store io (y.askedFrom options).logSequenceNumber →
    StartsAt y'.disk (options.start.getD Binary64.zero) (y.askedFrom options) it.place

/-- The log grows behind the place. -/
theorem StartsAt.grows {d d' : Disk} {t : Binary64} {asked p : LogPosition} {more : List (LogPosition × LogRecord)}
    (h : StartsAt d t asked p) (hd : d.Lengthens d' more) (hbehind : ∀ x ∈ more, p ≤ x.1) : StartsAt d' t asked p := by
  refine ⟨h.le, fun x hx ht hle => ?_⟩
  rw [hd.shelf] at hx
  rcases List.mem_append.mp hx with hx | hx
  · exact h.back x hx ht hle
  · exact hbehind x hx

theorem StartsAt.leads {t : Binary64} {asked p : LogPosition} (h : StartsAt y.disk t asked p) (hl : y.Leads cfg y') :
    StartsAt y'.disk t asked p :=
  h.grows hl.reads.lengthens fun x hx => by cases hx

/-- On the fake buffer an iterator is before all there is. -/
theorem Fit.startsAt_zero (h : y.Fit) (t : Binary64) (position : ℕ) : StartsAt y.disk t ⟨0, 0⟩ ⟨position, 0⟩ := by
  refine ⟨LogPosition.zero_le _, fun x hx _ _ => ?_⟩
  obtain ⟨bytes, hb, -⟩ := mem_shelf.mp hx
  rw [LogPosition.le_iff]
  exact Or.inl (h.filed.file (h.filed.log (show (y.disk.logs.get? x.1.logSequenceNumber).isSome by rw [hb]; rfl))).1

theorem StartOk.leads {t : Binary64} {asked : LogPosition} {logId position : ℕ} (h : StartOk y t asked logId position)
    (hl : y.Leads cfg y') : StartOk y' t asked logId position := by
  obtain ⟨front, hfront, heq⟩ := h.place
  exact ⟨⟨front, hfront.trans (hl.reads.lengthens.records _), heq⟩, h.starts.leads hl, h.file⟩

/-- The buffer that a query starts on: a mapping of the file asked for, or the fake one. -/
theorem Fit.queryBuffer (h : y.Fit) (cfg : StoreConfig) (hio : y.CanOpen io) (latest : ℕ × ℕ) (logId : ℕ) :
    ∃ y', y.Leads cfg y' ∧
    (y.queryBuffer cfg false latest logId io = (.ok (⟨0, 0, some 0⟩, 0), y') ∧ Unmapped cfg y.store io logId ∨
      ∃ b, y.queryBuffer cfg false latest logId io = (.ok (b, latest.2), y') ∧
      y'.log.logBuffers.get? logId = some b) := by
  unfold Reading.queryBuffer
  by_cases hcur : y.log.currentLogBuffer = some logId
  · obtain ⟨b, hb⟩ := Option.isSome_iff_exists.mp (h.current logId hcur)
    rw [if_pos hcur, buffer, hb]
    exact ⟨y, .refl h, Or.inr ⟨b, rfl, hb⟩⟩
  rw [if_neg hcur]
  by_cases h0 : logId = 0
  · rw [Reading.getLogMemoryMap, if_pos h0]
    refine ⟨y, .refl h, Or.inl ⟨rfl, Or.inl ?_⟩⟩
    rw [h0]
    by_contra hreg
    exact absurd (h.filed.file (Option.isSome_iff_ne_none.mpr hreg)).1 (Nat.lt_irrefl 0)
  obtain ⟨y', hleads, ⟨hr, hno⟩ | ⟨b, hr, hb⟩⟩ := h.getLogMemoryMap cfg h0 hio
  · rw [hr]
    exact ⟨y', hleads, Or.inl ⟨rfl, hno⟩⟩
  · rw [hr]
    simp only
    split_ifs
    · refine ⟨{ y' with log := { y'.log with currentLogBuffer := some logId } },
        ⟨hleads.reads, ⟨hleads.fit.filed, hleads.fit.watermark, hleads.fit.buffers, fun k hk => ?_⟩, hleads.kept,
          hleads.maps, hleads.queried⟩,
        Or.inr ⟨b, rfl, hb⟩⟩
      obtain rfl := Option.some.inj hk
      change (y'.log.logBuffers.get? logId).isSome
      rw [hb]
      rfl
    · exact ⟨y', hleads, Or.inr ⟨b, rfl, hb⟩⟩

theorem Fit.query (h : y.firstQuery.Fit) (hmode : options.readUncommitted = false)
    (hio : y.firstQuery.CanOpen io)
    (hflushed : ∀ p ∈ y.firstQuery.disk.txnState, Anchored y.firstQuery.store y.firstQuery.disk p)
    (hfind : options.start.isSome = true ∨ options.startFromLastFlushed = true →
      FindOk cfg y.firstQuery.store y.firstQuery.disk io)
    (hfile : ∀ logId ∈ y.firstQuery.startFile cfg options io,
      logId ≤ y.firstQuery.store.lastCommittedPosition.logSequenceNumber) :
    ∃ it y', y.query cfg options io = (.ok it, y') ∧ QueryOk cfg y.firstQuery options io y' it := by
  unfold Reading.query
  rw [show (if y.log.queried = true then y else { y with
    store := y.store.getLastCommittedPosition y.disk
    log := { y.log with queried := true, logBuffers := SeqMap.empty } }) = y.firstQuery from rfl]
  generalize y.firstQuery = y0 at h hio hflushed hfind hfile
  rw [hmode]
  simp only [loadLastPosition_committed]
  obtain ⟨y1, logId, position, hs, hleads1, hstart⟩ := h.queryStart hflushed hfind
  have hspec := (queryStart_spec cfg y0 options
    (y0.store.lastCommittedPosition.logSequenceNumber, y0.store.lastCommittedPosition.positionInLogFile) io).2 _ (by
      rw [hs])
  have hle : logId ≤ y0.store.lastCommittedPosition.logSequenceNumber := by
    rcases hspec with heq | heq
    · exact le_of_eq heq
    · exact hfile logId heq
  rw [hs]
  simp only
  obtain ⟨y2, hleads2, ⟨hb, hno⟩ | ⟨b, hb, hget⟩⟩ := hleads1.fit.queryBuffer cfg (hleads1.canOpen hio)
    (y0.store.lastCommittedPosition.logSequenceNumber, y0.store.lastCommittedPosition.positionInLogFile) logId
  · rw [hb]
    have hzero : y2.cachedSize ⟨0, 0, some 0⟩ io = (.ok 0, y2) := rfl
    have hok : QueryOk cfg y0 options io y2 {
        start := options.start.getD Binary64.zero
        «end» := options.end.getD Binary64.maxValue
        exactStart := options.exactStart
        readUncommitted := false
        exclusiveStart := options.exclusiveStart
        position
        size := some 0
        logId := 0 } := by
      refine ⟨hleads1.trans hleads2, ⟨rfl, Nat.zero_le _, Or.inl ⟨rfl, rfl⟩⟩,
        ⟨rfl, rfl, rfl, rfl, rfl⟩, fun hasked => ?_⟩
      have h0 : y0.askedFrom options = ⟨0, 0⟩ := by
        rcases hasked with h0 | hmapped
        · exact h0
        · refine hstart.file.resolve_right fun hid => hmapped ?_
          rw [hid, ← hleads1.unmapped_iff]
          exact hno
      rw [h0]
      exact hleads2.fit.startsAt_zero _ position
    simp only [hzero]
    split_ifs
    · exact ⟨_, _, rfl, hok⟩
    · exact ⟨_, _, rfl, hok⟩
  · rw [hb]
    obtain ⟨hid, hthere, -⟩ := hleads2.fit.buffers hget
    have hleads := hleads1.trans hleads2
    have hplace := hstart.leads hleads2
    have hmade : ∀ {y3 : Reading} {z : ℕ}, y2.Leads cfg y3 → y3.disk.Marks ⟨z, logId⟩ → QueryOk cfg y0 options io y3 {
        start := options.start.getD Binary64.zero
        «end» := options.end.getD Binary64.maxValue
        exactStart := options.exactStart
        readUncommitted := false
        exclusiveStart := options.exclusiveStart
        position
        size := some z
        logId } := by
      intro y3 z hleads3 hz
      have hplace' := hplace.leads hleads3
      refine ⟨hleads.trans hleads3, ⟨rfl, ?_, Or.inr ⟨hleads3.kept logId (by rw [hget]; rfl),
        hplace'.place, z, rfl, hz⟩⟩,
        ⟨rfl, rfl, rfl, rfl, rfl⟩, fun _ => hplace'.starts⟩
      rw [(hleads.trans hleads3).reads.committed]
      exact hle
    simp only [hid]
    by_cases hlast : y0.store.lastCommittedPosition.logSequenceNumber = logId
    · rw [if_pos hlast]
      refine ⟨_, _, rfl, hmade (.refl hleads2.fit) ?_⟩
      have hmarks := hleads2.fit.watermark.marks
      rw [hleads.reads.committed] at hmarks
      rw [← hlast]
      exact hmarks
    · rw [if_neg hlast]
      have hcur : logId < y2.store.currentSequenceNumber := by
        rw [hleads.reads.current]
        exact (lt_of_le_of_ne hle (Ne.symm hlast)).trans_le h.watermark.le
      obtain ⟨y3, hc, hleads3⟩ := hleads2.fit.cachedSize cfg hget hcur (hleads.canOpen hio)
      rw [hc]
      exact ⟨_, _, rfl, hmade hleads3 (hleads3.reads.lengthens.marks (hleads2.fit.marks_length hthere))⟩

end Reading

namespace Querying

/-- What a step has to meet: for the log what `Life.Tidy` says; the readers read the committed part,
and can open the files; a query that looks for its start finds all files open, and does not start
in a file past the watermark's; no call of `next` strays. -/
def TailOk (cfg : StoreConfig) (y : Querying) : QueryEvent → Prop
  | .life e => Life.Tidy cfg y.life e
  | .query options io => options.readUncommitted = false ∧ y.reading.CanOpen io ∧
      (options.start.isSome = true ∨ options.startFromLastFlushed = true → FindOk cfg y.store y.life.world.disk io) ∧
      ∀ logId ∈ y.reading.firstQuery.startFile cfg options io,
        logId ≤ y.reading.firstQuery.store.lastCommittedPosition.logSequenceNumber
  | .next i io => y.reading.CanOpen io ∧ ∀ it ∈ y.iterators[i]?, Reading.callStrays cfg y.reading it io = false

/-- The invariant: every iterator stands in the log. -/
structure Tailing (y : Querying) : Prop where
  life : y.life.Keeping
  fit : y.life.isOpen = true → y.reading.Fit
  unqueried : y.log.queried = false → y.log.currentLogBuffer = none ∧ y.iterators = []
  left : y.life.isOpen = false → y.iterators = []
  stands : ∀ it ∈ y.iterators, it.Stands y.reading

variable {cfg : StoreConfig} {y y' : Querying}

theorem Tailing.fresh {life : Life} (h : life.Keeping) : Tailing { life } := by
  refine ⟨h, fun hopen => ?_, fun _ => ⟨rfl, rfl⟩, fun _ => rfl, fun it hit => by cases hit⟩
  have hk := h.opened hopen
  exact ⟨hk.filed, hk.held .committed, fun hb => (by cases hb), fun k hk => by cases hk⟩

/-- The reader as a query finds it. -/
theorem Tailing.first (h : y.Tailing) (hopen : y.life.isOpen = true) : y.reading.firstQuery.Fit ∧
    Kept { y.life.world with store := y.reading.firstQuery.store, disk := y.reading.firstQuery.disk } y.life.flushes ∧
      (∀ it ∈ y.iterators, it.Stands y.reading.firstQuery) ∧ y.reading.firstQuery.log.queried = true ∧
        y.reading.firstQuery.disk = y.life.world.disk := by
  have hk := h.life.opened hopen
  unfold Reading.firstQuery
  split_ifs with hq
  · exact ⟨h.fit hopen, hk, h.stands, hq, rfl⟩
  · obtain ⟨hnone, hnil⟩ := h.unqueried (Bool.eq_false_of_not_eq_true hq)
    have hk' := hk.getLastCommittedPosition.1
    refine ⟨⟨hk'.filed, hk'.held .committed, fun hb => (by cases hb), fun k hk => ?_⟩, hk', fun it hit => ?_, rfl, rfl⟩
    · change k ∈ y.log.currentLogBuffer at hk
      rw [hnone] at hk
      cases hk
    · rw [hnil] at hit
      cases hit

/-- What the calls of a reader leave behind. -/
theorem after_keeping (r0 : Reading) {r : Reading} (hopen : y.life.isOpen = true)
    (hk : Kept { y.life.world with store := r0.store, disk := r0.disk } y.life.flushes) (hleads : r0.Leads cfg r) :
    (y.after r).life.Keeping :=
  .of_kept (hk.reads hleads.reads hleads.fit.filed).1 hopen

/-- What the event yields on iterator `i`. -/
def yielded (cfg : StoreConfig) (y : Querying) (i : ℕ) : QueryEvent → List TransactionEntry
  | .next j io => if j = i then ((y.nextResult cfg i io).map NextResult.entries).getD [] else []
  | _ => []

/-- The log has grown, and the iterators have moved on in it. -/
structure Moves (cfg : StoreConfig) (y y' : Querying) (e : QueryEvent) : Prop where
  isOpen : y'.life.isOpen = true
  lengthens : ∃ more, y.life.world.disk.Lengthens y'.life.world.disk more
  passes : ∀ {i it}, y.iterators[i]? = some it → ∃ it', y'.iterators[i]? = some it' ∧
    LogIterator.Passes y'.life.world.disk it it' (yielded cfg y i e)
  rests : ∀ {i it}, y.iterators[i]? = some it → (∀ io, e ≠ .next i io) → y'.iterators[i]? = some it

theorem stepLife_tailing {e : Event} (h : y.Tailing) (hok : Life.Tidy cfg y.life e)
    (hstep : step cfg y (.life e) = some y') :
    y'.Tailing ∧ (y.life.isOpen = true → e.ends = false → Moves cfg y y' (.life e)) := by
  simp only [step] at hstep
  split_ifs at hstep with hpurge
  obtain ⟨life, hlife, rfl⟩ := Option.map_eq_some_iff.mp hstep
  have hkeeping := Life.step_keeping h.life hok hlife
  split_ifs with hboth
  · obtain ⟨hopen, hopen'⟩ := hboth
    have hsound : SoundOk cfg y (.life e) := by
      cases e with
      | commitFinished position seq => exact hok.1
      | commitAborted position => exact hok.1
      | _ => trivial
    have hle := step_life_le hsound (Bool.eq_false_of_not_eq_true hpurge) hopen hopen' hlife
    rw [Life.step, if_pos hopen] at hlife
    obtain ⟨hk, more, hgrows⟩ := Life.stepOpen_kept (h.life.opened hopen) hok hlife hopen'
    have hfit := h.fit hopen
    refine ⟨⟨hkeeping, fun _ => hfit.grows hk hgrows, h.unqueried, fun hno => ?_, fun it hit => ?_⟩,
      fun _ _ => ⟨hopen', ⟨more, hgrows.lengthens⟩, fun {i it} hit => ⟨it, hit, .refl _ _⟩, fun hit _ => hit⟩⟩
    · change life.isOpen = false at hno
      rw [hopen'] at hno
      cases hno
    · exact Reading.stands_grows (h.stands it hit) hgrows hle
  · refine ⟨.fresh hkeeping, fun hopen he => absurd ⟨hopen, ?_⟩ hboth⟩
    rw [Life.step, if_pos hopen] at hlife
    rw [Life.stepOpen_isOpen he hlife, hopen]

theorem stepQuery_eq {options : TransactionLogQueryOptions} {io : ReadCalls} (h : y.Tailing)
    (hok : TailOk cfg y (.query options io)) (hopen : y.life.isOpen = true) :
    ∃ it r, step cfg y (.query options io) = some { y.after r with iterators := y.iterators ++ [it] } ∧
      y.reading.firstQuery.QueryOk cfg options io r it := by
  obtain ⟨hfit, hk, hstands, -, hdisk⟩ := h.first hopen
  obtain ⟨hmode, hio, hfind, hfile⟩ := hok
  have hfiles : y.reading.firstQuery.store.sequenceFiles = y.store.sequenceFiles ∧
      y.reading.firstQuery.store.currentSequenceNumber = y.store.currentSequenceNumber := by
    unfold Reading.firstQuery
    split_ifs
    · exact ⟨rfl, rfl⟩
    · obtain ⟨position, hs⟩ := getLastCommittedPosition_store y.reading.store y.reading.disk
      simp only [hs]
      exact ⟨rfl, rfl⟩
  have hio' : y.reading.firstQuery.CanOpen io := by
    intro e he
    rw [hfiles.1] at he
    exact hio e he
  have hfind' : options.start.isSome = true ∨ options.startFromLastFlushed = true →
      FindOk cfg y.reading.firstQuery.store y.reading.firstQuery.disk io := by
    intro hlook
    obtain ⟨h1, h2, h3⟩ := hfind hlook
    rw [hdisk]
    exact ⟨by rw [hfiles.1, hfiles.2]; exact h1, by rw [hfiles.1]; exact h2, by rw [hfiles.1, hfiles.2]; exact h3⟩
  have hflushed : ∀ p ∈ y.reading.firstQuery.disk.txnState,
      Anchored y.reading.firstQuery.store y.reading.firstQuery.disk p :=
    fun p hp => hk.held (.flushed hp)
  obtain ⟨it, r, hr, hq⟩ := hfit.query hmode hio' hflushed hfind' hfile
  refine ⟨it, r, ?_, hq⟩
  rw [step, if_pos hopen, hr]

theorem stepQuery_tailing {options : TransactionLogQueryOptions} {io : ReadCalls} (h : y.Tailing)
    (hok : TailOk cfg y (.query options io)) (hstep : step cfg y (.query options io) = some y') :
    y'.Tailing ∧ Moves cfg y y' (.query options io) := by
  have hopen : y.life.isOpen = true := by
    simp only [step] at hstep
    split_ifs at hstep with hopen
    exact hopen
  obtain ⟨hfit, hk, hstands, hqueried, hdisk⟩ := h.first hopen
  obtain ⟨it, r, heq, hq⟩ := stepQuery_eq h hok hopen
  obtain rfl := Option.some.inj (hstep.symm.trans heq)
  refine ⟨⟨after_keeping y.reading.firstQuery hopen hk hq.leads, fun _ => hq.leads.fit, fun hno => ?_, fun hno => ?_,
    fun it' hit' => ?_⟩, hopen,
    ⟨[], hdisk ▸ hq.leads.reads.lengthens⟩, fun {i it'} hit' => ⟨it', ?_, .refl _ _⟩, fun {i it'} hit' _ => ?_⟩
  · rw [show (y.after r).log.queried = true from hq.leads.queried.trans hqueried] at hno
    cases hno
  · rw [show (y.after r).life.isOpen = true from hopen] at hno
    cases hno
  · rcases List.mem_append.mp hit' with hit' | hit'
    · exact hq.leads.stands (hstands it' hit')
    · obtain rfl := List.mem_singleton.mp hit'
      exact hq.stands
  · exact List.getElem?_append_left (List.getElem?_eq_some_iff.mp hit').1 ▸ hit'
  · exact List.getElem?_append_left (List.getElem?_eq_some_iff.mp hit').1 ▸ hit'

theorem stepNext_tailing {i : ℕ} {io : ReadCalls} (h : y.Tailing) (hok : TailOk cfg y (.next i io))
    (hstep : step cfg y (.next i io) = some y') : y'.Tailing ∧ Moves cfg y y' (.next i io) := by
  simp only [step] at hstep
  split_ifs at hstep with hopen
  obtain ⟨it, hit, rfl⟩ := Option.map_eq_some_iff.mp hstep
  have hfit := h.fit hopen
  have hk := h.life.opened hopen
  obtain ⟨hio, hno⟩ := hok
  have hqueried : y.log.queried = true := by
    cases hq : y.log.queried with
    | true => rfl
    | false =>
      rw [(h.unqueried hq).2] at hit
      cases hit
  obtain ⟨hloop, -⟩ := hfit.next cfg (h.stands it (List.mem_of_getElem? hit)) hio (hno it hit)
  refine ⟨⟨after_keeping y.reading hopen hk hloop.leads, fun _ => hloop.leads.fit, fun hno => ?_,
    fun hno => ?_, fun it' hit' => ?_⟩,
    hopen, ⟨[], hloop.leads.reads.lengthens⟩, fun {j it'} hit' => ?_, fun {j it'} hit' hne => ?_⟩
  · rw [show (y.after _).log.queried = true from hloop.leads.queried.trans hqueried] at hno
    cases hno
  · rw [show (y.after _).life.isOpen = true from hopen] at hno
    cases hno
  · rcases List.mem_or_eq_of_mem_set hit' with hit' | rfl
    · exact hloop.leads.stands (h.stands it' hit')
    · exact hloop.stands
  · simp only [yielded, nextResult, List.getElem?_set]
    by_cases hj : i = j
    · subst hj
      obtain rfl := Option.some.inj (hit.symm.trans hit')
      have hlt := (List.getElem?_eq_some_iff.mp hit).1
      refine ⟨_, by rw [if_pos rfl, if_pos hlt], ?_⟩
      rw [if_pos rfl, hit, Option.map_some, Option.map_some, Option.getD_some]
      exact hloop.leads.passes_iff.mpr hloop.passes
    · rw [if_neg hj]
      exact ⟨it', hit', by rw [if_neg hj]; exact .refl _ _⟩
  · rw [List.getElem?_set, if_neg (fun hj => hne io (by rw [hj]))]
    exact hit'

theorem step_tailing {e : QueryEvent} (h : y.Tailing) (hok : TailOk cfg y e)
    (hstep : step cfg y e = some y') : y'.Tailing := by
  cases e with
  | life e => exact (stepLife_tailing h hok hstep).1
  | query options io => exact (stepQuery_tailing h hok hstep).1
  | next i io => exact (stepNext_tailing h hok hstep).1

/-- The store is still there after the event. -/
def stays : QueryEvent → Bool
  | .life e => !e.ends
  | _ => true

theorem step_moves {e : QueryEvent} (h : y.Tailing) (hopen : y.life.isOpen = true)
    (hstay : stays e = true) (hok : TailOk cfg y e) (hstep : step cfg y e = some y') : Moves cfg y y' e := by
  cases e with
  | life e =>
    refine (stepLife_tailing h hok hstep).2 hopen ?_
    rw [stays, Bool.not_eq_true'] at hstay
    exact hstay
  | query options io => exact (stepQuery_tailing h hok hstep).2
  | next i io => exact (stepNext_tailing h hok hstep).2

/-- What the events yield on iterator `i`, in order. -/
def yields (cfg : StoreConfig) (i : ℕ) : Querying → List QueryEvent → List TransactionEntry
  | _, [] => []
  | y, e :: es => yielded cfg y i e ++ ((step cfg y e).map fun y' => yields cfg i y' es).getD []

/-- Over a run that the store survives the log grows behind what an iterator has passed. -/
theorem run_moves {es : List QueryEvent} (h : y.Tailing) (hopen : y.life.isOpen = true)
    (hstay : ∀ e ∈ es, stays e = true) (hall : Runs.Along (step cfg) (TailOk cfg) y es)
    (hrun : Runs.exec (step cfg) y es = some y') :
    (∃ more, y.life.world.disk.Lengthens y'.life.world.disk more) ∧ ∀ {i : ℕ} {it : LogIterator},
      y.iterators[i]? = some it → ∃ it', y'.iterators[i]? = some it' ∧
      it.Passes y'.life.world.disk it' (yields cfg i y es) := by
  induction es generalizing y with
  | nil =>
    obtain rfl := Option.some.inj hrun
    exact ⟨⟨[], .refl _⟩, fun {i it} hit => ⟨it, hit, .refl _ _⟩⟩
  | cons e es ih =>
    obtain ⟨y1, hstep, hrest⟩ := Runs.exec_cons.mp hrun
    have hmoves := step_moves h hopen (hstay e List.mem_cons_self) hall.1 hstep
    have h1 := step_tailing h hall.1 hstep
    obtain ⟨⟨more, hgrows⟩, hpasses⟩ := ih h1 hmoves.isOpen (fun e he => hstay e (List.mem_cons_of_mem _ he))
      (hall.2 y1 hstep) hrest
    obtain ⟨more0, hgrows0⟩ := hmoves.lengthens
    refine ⟨⟨more0 ++ more, hgrows0.trans hgrows⟩, fun {i it} hit => ?_⟩
    obtain ⟨it1, hit1, hp⟩ := hmoves.passes hit
    obtain ⟨it', hit', hp'⟩ := hpasses hit1
    refine ⟨it', hit', ?_⟩
    have hpos : ∀ q, (y'.life.world.disk.logs.get? q).isSome → 0 < q := by
      have h' : y'.Tailing := Runs.exec_invariant (fun _ _ _ hi ho hs => step_tailing hi ho hs) h hall hrun
      exact h'.life.numbers
    have hb : Reading.Bounds y.life.world.disk it.place := (h.fit hopen).bounds (h.stands it (List.mem_of_getElem? hit))
    have hb1 : Reading.Bounds y1.life.world.disk it1.place :=
      (h1.fit hmoves.isOpen).bounds (h1.stands it1 (List.mem_of_getElem? hit1))
    rw [yields, hstep, Option.map_some, Option.getD_some]
    exact (hp.lengthens hgrows ((hb.lengthens hgrows0).behind hgrows hpos) (hb1.behind hgrows hpos)).trans hp'

theorem tailing_new : Tailing {} := .fresh Life.keeping_new

/-- What a query leaves in a run: its iterator stands where what it asks for begins. -/
structure Queried (cfg : StoreConfig) (y : Querying) (options : TransactionLogQueryOptions)
    (io : ReadCalls) (y' : Querying)
    (it : LogIterator) : Prop where
  tailing : y'.Tailing
  isOpen : y'.life.isOpen = true
  made : y'.iterators[y.iterators.length]? = some it
  length : y'.iterators.length = y.iterators.length + 1
  asks : Reading.Asks options it
  starts : y.reading.firstQuery.askedFrom options = ⟨0, 0⟩ ∨
      ¬ Reading.Unmapped cfg y.reading.firstQuery.store io (y.reading.firstQuery.askedFrom options).logSequenceNumber →
    Reading.StartsAt y'.life.world.disk (options.start.getD Binary64.zero)
      (y.reading.firstQuery.askedFrom options) it.place

theorem stepQuery_queried {options : TransactionLogQueryOptions} {io : ReadCalls} (h : y.Tailing)
    (hok : TailOk cfg y (.query options io)) (hstep : step cfg y (.query options io) = some y') :
    ∃ it, Queried cfg y options io y' it := by
  have hopen : y.life.isOpen = true := by
    simp only [step] at hstep
    split_ifs at hstep with hopen
    exact hopen
  obtain ⟨h', hmoves⟩ := stepQuery_tailing h hok hstep
  obtain ⟨it, r, heq, hq⟩ := stepQuery_eq h hok hopen
  obtain rfl := Option.some.inj (hstep.symm.trans heq)
  exact ⟨it, h', hmoves.isOpen, List.getElem?_concat_length, List.length_append, hq.asks, hq.starts⟩

/-- What has been added to the log since lies behind an iterator. -/
theorem Tailing.behind {it : LogIterator} {more : List (LogPosition × LogRecord)} (h : y.Tailing)
    (h' : y'.Tailing) (hopen : y.life.isOpen = true) (hit : it ∈ y.iterators)
    (hgrows : y.life.world.disk.Lengthens y'.life.world.disk more) :
    ∀ x ∈ more, it.place ≤ x.1 :=
  ((h.fit hopen).bounds (h.stands it hit)).behind hgrows h'.life.numbers

/-- The timestamp is in the range of a query from `t` on. -/
def inRange (options : TransactionLogQueryOptions) (t timestamp : Binary64) : Bool :=
  (if options.exclusiveStart then Binary64.lt t timestamp else Binary64.ge timestamp t) &&
    Binary64.lt timestamp (options.end.getD Binary64.maxValue)

/-- The entries among `rs` that such a query asks for. -/
def asked (options : TransactionLogQueryOptions) (t : Binary64) (rs : List LogRecord) : List TransactionEntry :=
  (rs.filter fun r => inRange options t r.timestamp).map LogRecord.yielded

theorem selects_asked {options : TransactionLogQueryOptions} {it : LogIterator} (hasks : Reading.Asks options it)
    (hexact : options.exactStart = false) (rs : List LogRecord) :
    it.selects rs = (asked options (options.start.getD Binary64.zero) rs, false) := by
  have hmatch : ∀ timestamp, it.matchesRange timestamp =
      (inRange options (options.start.getD Binary64.zero) timestamp, false) := by
    intro timestamp
    unfold LogIterator.matchesRange inRange
    rw [hasks.found, hasks.exactStart, hasks.exclusiveStart, hasks.start, hasks.end, hexact]
    rfl
  induction rs with
  | nil => rw [LogIterator.selects, hasks.found]; rfl
  | cons r rs ih =>
    have hsame : ({ it with foundExactStart := false } : LogIterator) = it := by rw [← hasks.found]
    rw [LogIterator.selects, hmatch]
    simp only [hsame, ih, asked, List.filter_cons]
    split_ifs <;> rfl

theorem asked_append (options : TransactionLogQueryOptions) (t : Binary64) (rs rs' : List LogRecord) :
    asked options t (rs ++ rs') = asked options t rs ++ asked options t rs' := by
  rw [asked, List.filter_append, List.map_append]
  rfl

theorem inRange_ge {options : TransactionLogQueryOptions} {t timestamp : Binary64}
    (h : inRange options t timestamp = true) :
    Binary64.ge timestamp t = true := by
  unfold inRange at h
  rw [Bool.and_eq_true] at h
  have hstart := h.1
  split_ifs at hstart
  · exact Binary64.lt_ge hstart
  · exact hstart

/-- What is asked for of a part of the log is the same from a position as from the place where it begins. -/
theorem asked_starts {options : TransactionLogQueryOptions} {t : Binary64} {d : Disk} {p q : LogPosition}
    (h : Reading.StartsAt d t p q) {l : List (LogPosition × LogRecord)} (hl : ∀ x ∈ l, x ∈ d.shelf) :
    asked options t ((l.filter fun x => p ≤ x.1).map Prod.snd) = asked options t
      ((l.filter fun x => q ≤ x.1).map Prod.snd) := by
  rw [asked, asked, List.filter_map, List.filter_map, List.filter_filter, List.filter_filter]
  congr 2
  refine List.filter_congr fun x hx => ?_
  rw [Function.comp_apply]
  cases hin : inRange options t x.2.timestamp with
  | false => rfl
  | true =>
    rw [Bool.true_and, Bool.true_and]
    exact decide_eq_decide.mpr ⟨h.back x (hl x hx) (inRange_ge hin), h.le.trans⟩

theorem asked_recordsFrom {options : TransactionLogQueryOptions} {t : Binary64} {d : Disk} {p q : LogPosition}
    (h : Reading.StartsAt d t p q) : asked options t (d.recordsFrom p) = asked options t (d.recordsFrom q) :=
  asked_starts h fun _ => id

theorem asked_recordsBetween {options : TransactionLogQueryOptions} {t : Binary64} {d : Disk}
    {p q w : LogPosition} (h : Reading.StartsAt d t p q) :
    asked options t (d.recordsBetween p w) = asked options t (d.recordsBetween q w) := by
  have hbetween : ∀ p, d.recordsBetween p w = ((d.shelf.filter fun x => x.1 < w).filter fun x => p ≤
      x.1).map Prod.snd := by
    intro p
    rw [Disk.recordsBetween, List.filter_filter]
    refine congrArg _ (List.filter_congr fun x _ => ?_)
    rw [← Bool.decide_and]
  rw [hbetween, hbetween]
  exact asked_starts h fun x hx => (List.mem_filter.mp hx).1

section Decisions

instance decidableMarks (d : Disk) (p : LogPosition) : Decidable (d.Marks p) :=
  decidable_of_iff (p.positionInLogFile = 0 ∨
      ∃ front ∈ (fileRecords (d.bytes p.logSequenceNumber)).inits, p = endOf p.logSequenceNumber front)
    (or_congr_right (exists_congr fun _ => and_congr_left' (List.mem_inits _ _)))

instance decidableAnchored (s : TransactionLogStore) (d : Disk) (p : LogPosition) : Decidable (Anchored s d p) :=
  decidable_of_iff (d.Marks p ∧ p.logSequenceNumber ≤ s.currentSequenceNumber ∧ (p.logSequenceNumber = 0 → p = ⟨0, 0⟩))
    ⟨fun h => ⟨h.1, h.2.1, h.2.2⟩, fun h => ⟨h.marks, h.le, h.zero⟩⟩

instance decidableWriterTidy (cfg : StoreConfig) (w : World) (io : WriterCalls) : ∀ wr, Decidable (io.Tidy cfg w wr)
  | ⟨.tryOpen _, _, _⟩ => inferInstanceAs (Decidable io.openCalls.Succeeds)
  | ⟨.write seq, batch, _⟩ => inferInstanceAs (Decidable (∀ f ∈ w.store.sequenceFiles.get? seq,
      failsEarly io.results (toWrite f batch cfg.maxFileSize) = false ∧
        f.size + (toWrite f batch cfg.maxFileSize).flatten.length < UINT32_RANGE))
  | ⟨.advance seq _, batch, _⟩ => inferInstanceAs (Decidable (batch.isComplete = true →
      ∀ f ∈ w.store.sequenceFiles.get? seq, cfg.maxFileSize = 0 ∨ f.size < cfg.maxFileSize))
  | ⟨.getFile, _, _⟩ => isTrue trivial
  | ⟨.rotateInner, _, _⟩ => isTrue trivial
  | ⟨.fixPosition _, _, _⟩ => isTrue trivial
  | ⟨.checkAge _, _, _⟩ => isTrue trivial
  | ⟨.setNext _, _, _⟩ => isTrue trivial
  | ⟨.finish, _, _⟩ => isTrue trivial
  | ⟨.returned, _, _⟩ => isTrue trivial
  | ⟨.threw _, _, _⟩ => isTrue trivial

instance decidableCommitsOn (w : World) (position : LogPosition) : Decidable (Life.CommitsOn w position) :=
  inferInstanceAs (Decidable (_ ∧ ∀ wr ∈ w.writer, _ → _))

instance decidableTidy (cfg : StoreConfig) (y : Life) : ∀ e : Event, Decidable (Life.Tidy cfg y e)
  | .create => inferInstanceAs (Decidable (_ ∧ _))
  | .beginWrite batch => inferInstanceAs (Decidable (batch.timestamp.IsPos ∧ ∀ r ∈ _, _))
  | .writer io => inferInstanceAs (Decidable (∀ wr ∈ y.world.writer, io.Tidy cfg y.world wr))
  | .commitFinished position _ => inferInstanceAs (Decidable (Life.CommitsOn y.world position))
  | .commitAborted position => inferInstanceAs (Decidable (Life.CommitsOn y.world position))
  | .getLogFileSize seq io => inferInstanceAs (Decidable (io.openCalls seq).Succeeds)
  | .findPosition _ io => inferInstanceAs (Decidable (FindOk cfg y.world.store y.world.disk io))
  | .load order io => inferInstanceAs (Decidable (LoadsStamped cfg io y.world.disk order ∧
      ∀ s ∈ (TransactionLogStore.load cfg y.world.disk order io).1,
        ∀ p ∈ (TransactionLogStore.load cfg y.world.disk order io).2.txnState, _))
  | .purge _ _ _ => isFalse id
  | .flushScan _ => isTrue trivial
  | .flushWrite _ => isTrue trivial
  | .getLastCommittedPosition => isTrue trivial
  | .close _ => isTrue trivial
  | .crash => isTrue trivial

instance decidableCanOpen (y : Reading) (io : ReadCalls) : Decidable (y.CanOpen io) :=
  inferInstanceAs (Decidable (∀ e ∈ _, _))

instance decidableTailOk (cfg : StoreConfig) (y : Querying) : ∀ e : QueryEvent, Decidable (TailOk cfg y e)
  | .life e => decidableTidy cfg y.life e
  | .query options io => inferInstanceAs (Decidable (_ ∧ y.reading.CanOpen io ∧
      (_ → FindOk cfg y.store y.life.world.disk io) ∧ ∀ logId ∈ y.reading.firstQuery.startFile cfg options io, _))
  | .next i io => inferInstanceAs (Decidable (y.reading.CanOpen io ∧ ∀ it ∈ y.iterators[i]?, _))

end Decisions

end Querying

end RocksdbJs
