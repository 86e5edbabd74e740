import RocksdbJs.Sanity.OpenLog

/-! The places a store hands out. Whatever a store, its directory and its flush calls hold is a
place where an entry ends or a file begins, and one step of the writer keeps it so; the log grows
at its end, and a file that is not the current one stays as it is. -/

namespace RocksdbJs

open TransactionLogStore

/-- The positions that a store, its directory and its flush calls hold, the place of the next entry apart. -/
inductive HeldPosition (w : World) (flushes : List LogPosition) : LogPosition → Prop
  | committed : HeldPosition w flushes w.store.lastCommittedPosition
  | uncommitted {p : LogPosition} (h : p ∈ w.store.uncommittedTransactionPositions) : HeldPosition w flushes p
  | sampled {sp : SequencePosition} (h : sp ∈ w.store.recentlyCommittedSequencePositions) :
      HeldPosition w flushes sp.position
  | flushed {p : LogPosition} (h : w.disk.txnState = some p) : HeldPosition w flushes p
  | flushing {p : LogPosition} (h : p ∈ flushes) : HeldPosition w flushes p

/-- What the writer knows of its batch and its file. -/
def Writer.Standing (s : TransactionLogStore) (d : Disk) (wr : Writer) : Prop :=
  match wr.pc with
  | .rotateInner => wr.batch.isComplete = false ∧ (d.logs.get? s.currentSequenceNumber).isSome
  | .advance seq sizeBefore => seq = s.currentSequenceNumber ∧ OpenAt s seq ∧
      (wr.batch.isComplete = true → ∀ f, s.sequenceFiles.get? seq = some f → sizeBefore < f.size)
  | .setNext seq => OpenAt s seq ∧ 0 < seq ∧
      (seq = s.currentSequenceNumber ∨ s.sequenceFiles.get? s.currentSequenceNumber = none ∧
        wr.batch.isComplete = false)
  | .finish => True
  | .returned => True
  | .threw _ => True
  | _ => wr.batch.isComplete = false

/-- While a call is running, its batch and all that is logged are not above the store's timestamp,
and its position is registered. -/
structure Writer.Topped (w : World) (wr : Writer) : Prop where
  latest : w.store.latestTimestamp.IsPos
  content : ∀ r ∈ w.disk.content, r.timestamp.key ≤ w.store.latestTimestamp.key
  batch : wr.batch.timestamp.key ≤ w.store.latestTimestamp.key
  mem : wr.logPosition ∈ w.store.uncommittedTransactionPositions

/-- The place of the next entry is one to hand out, but for a moment between a rotation and the
making of the new file. -/
def NextAnchored (w : World) : Prop :=
  Anchored w.store w.disk w.store.nextLogPosition ∨
    ∃ wr ∈ w.writer, wr.pc = .getFile ∧ w.store.sequenceFiles.get? w.store.currentSequenceNumber = none

structure Kept (w : World) (flushes : List LogPosition) : Prop where
  filed : Filed w.store w.disk
  writer : ∀ wr ∈ w.writer, WriterStamped w wr ∧ wr.Standing w.store w.disk
  topped : ∀ wr ∈ w.writer, wr.busy = true → wr.Topped w
  latest : w.store.latestTimestamp = Binary64.zero ∨ w.store.latestTimestamp.IsPos
  next : NextAnchored w
  held : ∀ {p}, HeldPosition w flushes p → Anchored w.store w.disk p

/-- The log has grown by `more`, and what is not its last file has stayed as it was. -/
structure LogGrows (w w' : World) (more : List (LogPosition × LogRecord)) : Prop where
  lengthens : w.disk.Lengthens w'.disk more
  current : w.store.currentSequenceNumber ≤ w'.store.currentSequenceNumber
  settled : ∀ q < w.store.currentSequenceNumber, w'.disk.logs.get? q = w.disk.logs.get? q
  registered : ∀ q, (w.store.sequenceFiles.get? q).isSome → (w'.store.sequenceFiles.get? q).isSome

section
variable {cfg : StoreConfig} {w w' : World} {wr wr' : Writer} {io : WriterCalls} {flushes : List LogPosition}

theorem LogGrows.refl (w : World) : LogGrows w w [] := ⟨.refl _, le_rfl, fun _ _ => rfl, fun _ => id⟩

/-- A step that leaves the files alone. -/
theorem LogGrows.of_files (hlogs : w'.disk.logs = w.disk.logs) (hfiles : w'.store.sequenceFiles = w.store.sequenceFiles)
    (hcur : w.store.currentSequenceNumber ≤ w'.store.currentSequenceNumber) : LogGrows w w' [] :=
  ⟨.of_logs hlogs, hcur, fun q _ => by rw [hlogs], fun q hq => by rw [hfiles]; exact hq⟩

theorem Writer.Standing.mono {s s' : TransactionLogStore} {d d' : Disk} (h : wr.Standing s d) (hr : Reads s d s' d')
    (hf : Filed s d) (hf' : Filed s' d') : wr.Standing s' d' := by
  have hopen : ∀ {seq}, OpenAt s seq → OpenAt s' seq := by
    intro seq ho f' hf'
    obtain ⟨f, hf, himp⟩ := hr.opened hf'
    exact himp (ho f hf)
  obtain ⟨pc, batch, pos⟩ := wr
  cases pc with
  | rotateInner =>
    refine ⟨h.1, ?_⟩
    rw [hr.current]
    exact hr.isSome h.2
  | advance seq sizeBefore =>
    obtain ⟨hseq, ho, hgrown⟩ := h
    refine ⟨hseq.trans hr.current.symm, hopen ho, fun hc f' hfile' => ?_⟩
    obtain ⟨f, hfile, himp⟩ := hr.opened hfile'
    obtain ⟨hthere, hsize⟩ := hf.open_file hfile (ho f hfile)
    rw [(hf'.open_file hfile' (himp (ho f hfile))).2, hr.bytes hthere, ← hsize]
    exact hgrown hc f hfile
  | setNext seq =>
    obtain ⟨ho, hpos, hseq⟩ := h
    refine ⟨hopen ho, hpos, ?_⟩
    rw [hr.current]
    refine hseq.imp_right fun hn => ⟨?_, hn.2⟩
    have := hr.registered s.currentSequenceNumber
    rw [hn.1] at this
    exact Option.isSome_eq_false_iff.mp this |> Option.isNone_iff_eq_none.mp
  | finish => trivial
  | returned => trivial
  | threw e => trivial
  | _ => exact h

/-- A reader's calls keep all of it. -/
theorem Kept.reads {s' : TransactionLogStore} {d' : Disk} (h : Kept w flushes)
    (hr : Reads w.store w.disk s' d') (hf : Filed s' d') :
    Kept { w with store := s', disk := d' } flushes ∧ LogGrows w { w with store := s', disk := d' } [] := by
  have hcur := hr.current
  have hanchored : ∀ {p}, Anchored w.store w.disk p → Anchored s' d' p := fun hp => hp.mono hr.lengthens hcur.ge
  obtain ⟨files, hs⟩ := hr.store
  refine ⟨⟨hf, fun wr hwr => ⟨⟨?_, ?_, (h.writer wr hwr).1.pos⟩, (h.writer wr hwr).2.mono hr h.filed hf⟩,
    fun wr hwr hb => ?_, ?_, ?_,
    fun {p} hp => ?_⟩, hr.lengthens, hcur.ge, fun q hq => ?_, fun q hq => by rw [← hr.registered] at hq; exact hq⟩
  · exact (h.writer wr hwr).1.atCurrent.mono hcur fun q hq => hr.isSome hq
  · exact (h.writer wr hwr).1.fileOpen.mono fun q f' hf' => hr.opened hf'
  · obtain ⟨h1, h2, h3, h4⟩ := h.topped wr hwr hb
    refine ⟨?_, ?_, ?_, ?_⟩
    · change s'.latestTimestamp.IsPos
      rw [hr.latest]
      exact h1
    · change ∀ r ∈ d'.content, r.timestamp.key ≤ s'.latestTimestamp.key
      rw [hr.latest, hr.content]
      exact h2
    · change _ ≤ s'.latestTimestamp.key
      rw [hr.latest]
      exact h3
    · change _ ∈ s'.uncommittedTransactionPositions
      rw [hs]
      exact h4
  · change s'.latestTimestamp = _ ∨ s'.latestTimestamp.IsPos
    rw [hr.latest]
    exact h.latest
  · rcases h.next with hn | ⟨wr, hwr, hpc, hnone⟩
    · left
      change Anchored s' d' s'.nextLogPosition
      rw [show s'.nextLogPosition = w.store.nextLogPosition by rw [hs]]
      exact hanchored hn
    · refine Or.inr ⟨wr, hwr, hpc, ?_⟩
      have := hr.registered w.store.currentSequenceNumber
      rw [hnone] at this
      change s'.sequenceFiles.get? s'.currentSequenceNumber = none
      rw [hcur]
      exact Option.isSome_eq_false_iff.mp this |> Option.isNone_iff_eq_none.mp
  · refine hanchored (h.held ?_)
    cases hp with
    | committed =>
      rw [show s'.lastCommittedPosition = w.store.lastCommittedPosition by rw [hs]]
      exact .committed
    | uncommitted hp =>
      rw [show s'.uncommittedTransactionPositions = w.store.uncommittedTransactionPositions by rw [hs]] at hp
      exact .uncommitted hp
    | sampled hp =>
      rw [show s'.recentlyCommittedSequencePositions = w.store.recentlyCommittedSequencePositions by rw [hs]] at hp
      exact .sampled hp
    | flushed hp => exact .flushed (hr.txnState ▸ hp)
    | flushing hp => exact .flushing hp
  · cases hb : w.disk.logs.get? q with
    | some bytes => exact hr.kept hb
    | none =>
      change d'.logs.get? q = none
      cases hb' : d'.logs.get? q with
      | none => rfl
      | some bytes' =>
        -- a file that an open makes is the current one
        have hreg := hf.log (show (d'.logs.get? q).isSome by rw [hb']; rfl)
        rw [hr.registered] at hreg
        rcases (h.filed.file hreg).2.2 with heq | hthere
        · omega
        · rw [hb] at hthere
          cases hthere

/-- The calls of a writer's step: opens and appends succeed, no file reaches 4 GiB, and a batch's
last append leaves room in its file. -/
def WriterCalls.Tidy (cfg : StoreConfig) (w : World) (wr : Writer) (io : WriterCalls) : Prop :=
  match wr.pc with
  | .tryOpen _ => io.openCalls.Succeeds
  | .write seq => ∀ f ∈ w.store.sequenceFiles.get? seq,
      failsEarly io.results (toWrite f wr.batch cfg.maxFileSize) = false ∧
        f.size + (toWrite f wr.batch cfg.maxFileSize).flatten.length < UINT32_RANGE
  | .advance seq _ => wr.batch.isComplete = true → ∀ f ∈ w.store.sequenceFiles.get? seq,
      cfg.maxFileSize = 0 ∨ f.size < cfg.maxFileSize
  | _ => True

/-- What a step of the writer leaves. -/
structure WriterKept (w w' : World) (wr wr' : Writer) : Prop where
  writer : w'.writer = some wr'
  filed : Filed w'.store w'.disk
  standing : wr'.Standing w'.store w'.disk
  timestamp : wr'.batch.timestamp = wr.batch.timestamp
  mem : wr.logPosition ∈ w.store.uncommittedTransactionPositions →
    wr'.logPosition ∈ w'.store.uncommittedTransactionPositions
  next : NextAnchored w'
  added : ∀ p ∈ w'.store.uncommittedTransactionPositions,
    p ∈ w.store.uncommittedTransactionPositions ∨ Anchored w'.store w'.disk p
  grows : ∃ more, LogGrows w w' more ∧ ∀ x ∈ more, x.2.timestamp = wr.batch.timestamp

theorem Kept.writer_anchored (h : Kept w flushes) (hwr : w.writer = some wr) (hpc : wr.pc ≠ .getFile) :
    Anchored w.store w.disk w.store.nextLogPosition := by
  rcases h.next with hn | ⟨wr', hwr', hpc', -⟩
  · exact hn
  · obtain rfl := Option.some.inj (hwr.symm.trans hwr')
    exact absurd hpc' hpc

/-- A step that leaves the files, the current number and the positions alone. -/
theorem WriterKept.quiet (hfiled : Filed w'.store w'.disk) (hwr : w'.writer = some wr')
    (hlogs : w'.disk.logs = w.disk.logs) (hfiles : w'.store.sequenceFiles = w.store.sequenceFiles)
    (hcur : w.store.currentSequenceNumber ≤ w'.store.currentSequenceNumber)
    (hu : w'.store.uncommittedTransactionPositions = w.store.uncommittedTransactionPositions)
    (hpos : wr'.logPosition = wr.logPosition) (htime : wr'.batch.timestamp = wr.batch.timestamp)
    (hstanding : wr'.Standing w'.store w'.disk) (hnext : NextAnchored w') : WriterKept w w' wr wr' := by
  refine ⟨hwr, hfiled, hstanding, htime, fun hm => ?_, hnext, fun p hp => Or.inl (hu ▸ hp), [],
    .of_files hlogs hfiles hcur,
    fun x hx => by cases hx⟩
  rw [hpos, hu]
  exact hm

theorem Filed.congr {s s' : TransactionLogStore} {d d' : Disk} (h : Filed s d) (hs : StoreStamped s' d')
    (hfiles : s'.sequenceFiles = s.sequenceFiles) (hcur : s'.currentSequenceNumber = s.currentSequenceNumber)
    (hlatest : s'.latestTimestamp = s.latestTimestamp) (hlogs : d'.logs = d.logs) : Filed s' d' := by
  have hbytes : ∀ q, d'.bytes q = d.bytes q := fun q => by rw [Disk.bytes, Disk.bytes, hlogs]
  have hcontent : d'.content = d.content := by rw [Disk.content, Disk.content, hlogs]
  refine ⟨hs, hcur ▸ h.current_pos, fun {q f} hf => ?_, fun {q} hq => ?_, fun {q} hq => ?_,
    fun q => hbytes q ▸ h.below q,
    fun {q} hq hn => ?_⟩
  · rw [hbytes]
    exact h.marked (hfiles ▸ hf)
  · rw [hfiles] at hq
    rw [hcur, hlogs]
    exact h.file hq
  · rw [hlogs] at hq
    rw [hfiles]
    exact h.log hq
  · rw [hfiles] at hq
    rw [hlogs] at hn
    rw [hlatest, hcontent]
    exact h.fresh hq hn

/-- The store moves on from a current file that is there, or not even registered. -/
theorem Filed.advance {s : TransactionLogStore} {d : Disk} (h : Filed s d) (hs : StoreStamped s.advanceSequence d)
    (hthere : (s.sequenceFiles.get? s.currentSequenceNumber).isSome → (d.logs.get? s.currentSequenceNumber).isSome) :
    Filed s.advanceSequence d := by
  have hlt := h.stamped.numbered.current_lt
  refine ⟨hs, h.current_pos.trans hlt, h.marked, fun {q} hq => ?_, h.log, h.below, h.fresh⟩
  obtain ⟨hpos, hle, hq'⟩ := h.file hq
  refine ⟨hpos, hle.trans hlt.le, Or.inr ?_⟩
  rcases hq' with rfl | hq'
  · exact hthere hq
  · exact hq'

/-- The number that the store moves on to has no file. -/
theorem Filed.next_none {s : TransactionLogStore} {d : Disk} (h : Filed s d) :
    s.sequenceFiles.get? s.nextSequenceNumber = none := by
  cases hf : s.sequenceFiles.get? s.nextSequenceNumber with
  | none => rfl
  | some f =>
    have hle := (h.file (show (s.sequenceFiles.get? s.nextSequenceNumber).isSome by rw [hf]; rfl)).2.1
    have hlt := h.stamped.numbered.current_lt
    omega

theorem Anchored.advance {s : TransactionLogStore} {d : Disk} {p : LogPosition} (h : Filed s d) (hp : Anchored s d p) :
    Anchored s.advanceSequence d p := ⟨hp.marks, hp.le.trans h.stamped.numbered.current_lt.le, hp.zero⟩

/-- The loop goes on, with the next place in order. -/
theorem standing_outerLoop (s : TransactionLogStore) (d : Disk) (b : TransactionLogEntryBatch) (p : LogPosition) :
    Writer.Standing s d ⟨outerLoop b, b, p⟩ := by
  unfold outerLoop
  split_ifs with hc
  · trivial
  · exact Bool.eq_false_of_not_eq_true hc

/-- All of it, from what the step leaves. -/
theorem WriterKept.kept (hk : WriterKept w w' wr wr') (h : Kept w flushes) (hwr : w.writer = some wr)
    (hstep : writerStep cfg w wr io = some w') (hstamped : ∀ wr' ∈ w'.writer, WriterStamped w' wr') :
    Kept w' flushes ∧ ∃ more, LogGrows w w' more := by
  obtain ⟨more, hgrows, hmore⟩ := hk.grows
  have hframe := writerStep_frame hstep
  have hbusy := writerStep_busy hstep
  have hanchored : ∀ {p}, HeldPosition w flushes p → Anchored w'.store w'.disk p :=
    fun hp => (h.held hp).mono hgrows.lengthens hgrows.current
  refine ⟨⟨hk.filed, fun vr hvr => ?_, fun vr hvr hb => ?_, hframe.latest ▸ h.latest, hk.next, fun {p} hp => ?_⟩,
    more, hgrows⟩
  · obtain rfl := Option.some.inj (hk.writer.symm.trans hvr)
    exact ⟨hstamped _ hvr, hk.standing⟩
  · obtain rfl := Option.some.inj (hk.writer.symm.trans hvr)
    obtain ⟨h1, h2, h3, h4⟩ := h.topped wr hwr hbusy
    refine ⟨hframe.latest ▸ h1, fun r hr => ?_, by rw [hframe.latest, hk.timestamp]; exact h3, hk.mem h4⟩
    rw [content_eq_shelf, hgrows.lengthens.shelf, List.map_append, ← content_eq_shelf] at hr
    rw [hframe.latest]
    rcases List.mem_append.mp hr with hr | hr
    · exact h2 r hr
    · obtain ⟨x, hx, rfl⟩ := List.mem_map.mp hr
      rw [hmore x hx]
      exact h3
  · cases hp with
    | committed => exact hanchored (hframe.committed ▸ .committed)
    | uncommitted hp =>
      rcases hk.added p hp with hp | hp
      · exact hanchored (.uncommitted hp)
      · exact hp
    | sampled hp =>
      rw [hframe.samples] at hp
      exact hanchored (.sampled hp)
    | flushed hp => exact hanchored (.flushed (hframe.txnState ▸ hp))
    | flushing hp => exact hanchored (.flushing hp)

theorem Kept.turn {pc : WriterPc} (h : Kept w flushes) (hwr : w.writer = some wr)
    (hturns : WriterTurns cfg w wr io pc) :
    WriterKept w { w with writer := some { wr with pc } } wr { wr with pc } := by
  obtain ⟨hstamped, hstanding⟩ := h.writer _ hwr
  have hnext : Anchored w.store w.disk w.store.nextLogPosition := by
    refine h.writer_anchored hwr ?_
    cases hturns with
    | full _ _ hpc | placed _ hpc | young _ _ hpc | stays _ _ _ hpc => rw [hpc]; simp
  refine .quiet h.filed rfl rfl rfl le_rfl rfl rfl rfl ?_ (Or.inl hnext)
  have hcurrent := hstamped.atCurrent
  cases hturns with
  | full seq f hpc hf hroom =>
    rw [Writer.AtCurrent, hpc] at hcurrent
    rw [Writer.Standing, hpc] at hstanding
    obtain rfl : seq = w.store.currentSequenceNumber := hcurrent
    -- a file that is full has been opened
    have hopen : f.isOpen = true := by
      cases ho : f.isOpen with
      | true => rfl
      | false =>
        have := ((h.filed.stamped.file hf).closed ho).1
        omega
    exact ⟨hstanding, (h.filed.open_file hf hopen).1⟩
  | placed seq hpc | young seq f hpc =>
    rw [Writer.Standing, hpc] at hstanding
    exact hstanding
  | stays seq sizeBefore f hpc =>
    rw [Writer.Standing, hpc] at hstanding
    exact ⟨hstanding.2.1, hstanding.1 ▸ h.filed.current_pos, Or.inl hstanding.1⟩

theorem Kept.rotate {pc : WriterPc} (h : Kept w flushes) (hwr : w.writer = some wr)
    (hrotates : WriterRotates cfg w wr io pc) (hio : io.Tidy cfg w wr)
    (hs : StoreStamped w.store.advanceSequence w.disk) :
    WriterKept w { w with store := w.store.advanceSequence, writer := some { wr with pc } } wr { wr with pc } := by
  obtain ⟨hstamped, hstanding⟩ := h.writer _ hwr
  have hcurrent := hstamped.atCurrent
  have hnext : Anchored w.store w.disk w.store.nextLogPosition := by
    refine h.writer_anchored hwr ?_
    cases hrotates with
    | inner hpc | old _ _ hpc | outer _ _ _ hpc => rw [hpc]; simp
  -- the file that is left is there
  suffices hleft : (w.disk.logs.get? w.store.currentSequenceNumber).isSome ∧
      ({ wr with pc } : Writer).Standing w.store.advanceSequence w.disk from
    .quiet (h.filed.advance hs fun _ => hleft.1) rfl rfl rfl h.filed.stamped.numbered.current_lt.le rfl rfl rfl hleft.2
      (Or.inl (hnext.advance h.filed))
  cases hrotates with
  | inner hpc =>
    rw [Writer.Standing, hpc] at hstanding
    exact ⟨hstanding.2, hstanding.1⟩
  | old seq f hpc =>
    rw [Writer.AtCurrent, hpc] at hcurrent
    exact ⟨hcurrent.1 ▸ hcurrent.2, standing_outerLoop _ _ _ _⟩
  | outer seq sizeBefore f hpc hf hrot =>
    rw [Writer.Standing, hpc] at hstanding
    rw [WriterCalls.Tidy, hpc] at hio
    obtain ⟨rfl, hopen, hgrown⟩ := hstanding
    refine ⟨(h.filed.open_file hf (hopen f hf)).1, hopen, h.filed.current_pos, Or.inr ⟨h.filed.next_none, ?_⟩⟩
    -- the last append of a batch does not rotate
    change wr.batch.isComplete = false
    cases hc : wr.batch.isComplete with
    | false => rfl
    | true =>
      have hlt := hgrown hc f hf
      have hfit := hio hc f hf
      rw [hc, Bool.not_true] at hrot
      rcases hrot with hrot | hrot | hrot
      · omega
      · omega
      · cases hrot

theorem Kept.getFile (h : Kept w flushes) (hwr : w.writer = some wr) (hpc : wr.pc = .getFile)
    (hw' : w' = { w with
      store := (w.store.getLogFile w.disk w.store.currentSequenceNumber io.now).1
      disk := (w.store.getLogFile w.disk w.store.currentSequenceNumber io.now).2
      writer := some { wr with pc := .tryOpen w.store.currentSequenceNumber } })
    (hs : StoreStamped w'.store w'.disk) :
      WriterKept w w' wr { wr with pc := .tryOpen w.store.currentSequenceNumber } := by
  subst hw'
  have hinc : wr.batch.isComplete = false := by
    have hstanding := (h.writer _ hwr).2
    rw [Writer.Standing, hpc] at hstanding
    exact hstanding
  unfold getLogFile at hs ⊢
  cases hf : w.store.sequenceFiles.get? w.store.currentSequenceNumber with
  | some f =>
    refine .quiet h.filed rfl rfl rfl le_rfl rfl rfl rfl hinc (Or.inl ?_)
    rcases h.next with hn | ⟨vr, -, -, hnone⟩
    · exact hn
    · rw [hf] at hnone
      cases hnone
  | none =>
    rw [hf] at hs
    simp only at hs ⊢
    have htop := h.topped _ hwr (by rw [Writer.busy, hpc])
    set fresh : TransactionLogFile := { sequenceNumber := w.store.currentSequenceNumber, fileLastWriteTime := io.now }
    have hget : ∀ q, (w.store.sequenceFiles.set w.store.currentSequenceNumber fresh).get? q =
        if q = w.store.currentSequenceNumber then some fresh else w.store.sequenceFiles.get? q :=
          fun q => SeqMap.get?_set _ _ _ _
    have hplace : Anchored w.store w.disk ⟨0, w.store.currentSequenceNumber⟩ :=
      ⟨Or.inl rfl, le_rfl, fun hz => absurd hz h.filed.current_pos.ne'⟩
    refine ⟨rfl, ⟨hs, h.filed.current_pos, fun {q f} hq => ?_, fun {q} hq => ?_, fun {q} hq => ?_, h.filed.below,
      fun {q} hq hno => ?_⟩,
      hinc, rfl, id, Or.inl ⟨hplace.marks, hplace.le, hplace.zero⟩, fun p hp => Or.inl hp, [],
      ⟨.of_logs rfl, le_rfl, fun q _ => rfl, fun q hq => ?_⟩, fun x hx => by cases hx⟩
    · simp only [hget] at hq
      split_ifs at hq
      · rw [← Option.some.inj hq]
        exact fun e he => by cases he
      · exact h.filed.marked hq
    · simp only [hget] at hq
      split_ifs at hq with hqc
      · rw [hqc]
        exact ⟨h.filed.current_pos, le_rfl, Or.inl rfl⟩
      · exact h.filed.file hq
    · have := h.filed.log hq
      simp only [hget]
      split_ifs
      · rfl
      · exact this
    · exact ⟨htop.latest, htop.content⟩
    · simp only [hget]
      split_ifs
      · rfl
      · exact hq

theorem Kept.tryOpen {seq : ℕ} {f : TransactionLogFile} (h : Kept w flushes) (hwr : w.writer = some wr)
    (hpc : wr.pc = .tryOpen seq)
    (hf : w.store.sequenceFiles.get? seq = some f) (hio : io.openCalls.Succeeds)
    (hw' : w' = { w with
      store := (w.store.ensureOpen w.disk seq f io.openCalls).2.1
      disk := (w.store.ensureOpen w.disk seq f io.openCalls).2.2
      writer := some { wr with
        pc := if (w.store.ensureOpen w.disk seq f io.openCalls).1.isSome then .rotateInner else .fixPosition seq } }) :
    ∃ wr', WriterKept w w' wr wr' := by
  subst hw'
  have hnext := h.writer_anchored hwr (by rw [hpc]; simp)
  obtain ⟨hstamped, hinc⟩ := h.writer _ hwr
  have hcurrent := hstamped.atCurrent
  rw [Writer.AtCurrent, hpc] at hcurrent
  rw [Writer.Standing, hpc] at hinc
  obtain rfl : seq = w.store.currentSequenceNumber := hcurrent
  obtain ⟨hnone, hfiled, hreads, -⟩ := h.filed.ensureOpen hf hio
  obtain ⟨files, hstore⟩ := hreads.store
  have hgrows := (h.reads hreads hfiled).2
  refine ⟨{ wr with pc := .fixPosition w.store.currentSequenceNumber }, ?_⟩
  rw [hnone]
  refine ⟨rfl, hfiled, hinc, rfl, fun hm => ?_, Or.inl ?_, fun p hp => Or.inl ?_, [],
    ⟨hgrows.lengthens, hgrows.current, hgrows.settled, hgrows.registered⟩, fun x hx => by cases hx⟩
  · rw [hstore]
    exact hm
  · have := hnext.mono hreads.lengthens hreads.current.ge
    rwa [show w.store.nextLogPosition = (w.store.ensureOpen w.disk w.store.currentSequenceNumber f
      io.openCalls).2.1.nextLogPosition
      by rw [hstore]] at this
  · rw [hstore] at hp
    exact hp

theorem Kept.fixPosition {seq : ℕ} (h : Kept w flushes) (hwr : w.writer = some wr) (hpc : wr.pc = .fixPosition seq)
    (hs : StoreStamped ((w.store.positionErase wr.logPosition).positionInsert w.store.nextLogPosition) w.disk) :
    WriterKept w { w with
      store := (w.store.positionErase wr.logPosition).positionInsert w.store.nextLogPosition
      writer := some { wr with pc := .checkAge seq, logPosition := w.store.nextLogPosition } } wr
      { wr with pc := .checkAge seq, logPosition := w.store.nextLogPosition } := by
  have hnext := h.writer_anchored hwr (by rw [hpc]; simp)
  have hinc := (h.writer _ hwr).2
  rw [Writer.Standing, hpc] at hinc
  refine ⟨rfl, h.filed.congr hs rfl rfl rfl rfl, hinc, rfl, fun _ => ?_,
    Or.inl ⟨hnext.marks, hnext.le, hnext.zero⟩, fun p hp => ?_, [], .of_files rfl rfl le_rfl, fun x hx => by cases hx⟩
  · exact SortedVec.mem_insert.mpr (Or.inl rfl)
  · rcases SortedVec.mem_insert.mp hp with rfl | hp
    · exact Or.inr ⟨hnext.marks, hnext.le, hnext.zero⟩
    · exact Or.inl (SortedVec.mem_erase.mp hp).2

theorem Kept.setNext {seq : ℕ} {f : TransactionLogFile} (h : Kept w flushes) (hwr : w.writer = some wr)
    (hpc : wr.pc = .setNext seq) (hf : w.store.sequenceFiles.get? seq = some f)
    (hs : StoreStamped { w.store with nextLogPosition := ⟨f.size, w.store.currentSequenceNumber⟩ } w.disk) :
    WriterKept w { w with
      store := { w.store with nextLogPosition := ⟨f.size, w.store.currentSequenceNumber⟩ }
      writer := some { wr with pc := outerLoop wr.batch } } wr { wr with pc := outerLoop wr.batch } := by
  have hstanding := (h.writer _ hwr).2
  rw [Writer.Standing, hpc] at hstanding
  obtain ⟨hopen, hpos, hcur⟩ := hstanding
  obtain ⟨hthere, hsize⟩ := h.filed.open_file hf (hopen f hf)
  refine .quiet (h.filed.congr hs rfl rfl rfl rfl) rfl rfl rfl le_rfl rfl rfl rfl (standing_outerLoop _ _ _ _) ?_
  rcases hcur with rfl | ⟨hnone, hinc⟩
  · left
    have hend := h.filed.anchored_end h.filed.current_pos le_rfl hthere
    rw [← hsize] at hend
    exact ⟨hend.marks, hend.le, hend.zero⟩
  · exact Or.inr ⟨_, rfl, outerLoop_getFile hinc, hnone⟩

theorem Kept.finish (h : Kept w flushes) (hwr : w.writer = some wr) (hpc : wr.pc = .finish)
    (hs : StoreStamped { w.store.positionInsert w.store.nextLogPosition with
      pendingTransactionCount := w.store.pendingTransactionCount - 1 } w.disk) :
    WriterKept w { w with
      store := { w.store.positionInsert w.store.nextLogPosition with
        pendingTransactionCount := w.store.pendingTransactionCount - 1 }
      writer := some { wr with pc := .returned } } wr { wr with pc := .returned } := by
  have hnext := h.writer_anchored hwr (by rw [hpc]; simp)
  refine ⟨rfl, h.filed.congr hs rfl rfl rfl rfl, trivial, rfl, fun hm => ?_,
    Or.inl ⟨hnext.marks, hnext.le, hnext.zero⟩, fun p hp => ?_, [], .of_files rfl rfl le_rfl, fun x hx => by cases hx⟩
  · exact SortedVec.mem_insert.mpr (Or.inr hm)
  · rcases SortedVec.mem_insert.mp hp with rfl | hp
    · exact Or.inr ⟨hnext.marks, hnext.le, hnext.zero⟩
    · exact Or.inl hp

theorem Kept.write {seq : ℕ} {f : TransactionLogFile} (h : Kept w flushes) (hwr : w.writer = some wr)
    (hpc : wr.pc = .write seq)
    (hf : w.store.sequenceFiles.get? seq = some f) (hio : io.Tidy cfg w wr)
    (hreturns : (f.writeEntries (w.disk.bytes seq) wr.batch cfg.maxFileSize io.results).outcome ≠ .blocked)
    (hw' : w' = { w with
      store := w.store.setFile seq
        ((f.writeEntries (w.disk.bytes seq) wr.batch cfg.maxFileSize io.results).stamped io.now)
      disk := { w.disk with
        logs := w.disk.logs.set seq (f.writeEntries (w.disk.bytes seq) wr.batch cfg.maxFileSize io.results).bytes }
      writer := some { wr with
        batch := (f.writeEntries (w.disk.bytes seq) wr.batch cfg.maxFileSize io.results).batch
        pc := (f.writeEntries (w.disk.bytes seq) wr.batch cfg.maxFileSize io.results).pc seq f.size } })
    (hs : StoreStamped w'.store w'.disk) : ∃ wr', WriterKept w w' wr wr' := by
  have hnext := h.writer_anchored hwr (by rw [hpc]; simp)
  obtain ⟨pc, batch, pos⟩ := wr
  obtain rfl : pc = .write seq := hpc
  obtain ⟨hstamped, hinc⟩ := h.writer _ hwr
  have hinc : batch.isComplete = false := hinc
  obtain ⟨rfl, hthere⟩ := hstamped.atCurrent
  have hopened := hstamped.fileOpen
  have ho : f.isOpen = true := hopened f hf
  obtain ⟨-, hsize⟩ := h.filed.open_file hf ho
  obtain ⟨bytes, hb⟩ := Option.isSome_iff_exists.mp hthere
  obtain ⟨timestamp, rs, hw⟩ := h.filed.stamped.disk.whole hb
  have hbytes := Disk.bytes_eq hb
  have hbelow := h.filed.below w.store.currentSequenceNumber
  obtain ⟨hok, hlt⟩ := hio f hf
  rw [toWrite_flatten] at hlt
  obtain ⟨total, hr⟩ := writeEntries_success (w.disk.bytes w.store.currentSequenceNumber)
    (h.filed.stamped.file hf).version
    (hsize ▸ hbelow) hok hreturns
  set n := f.numEntriesToWrite batch cfg.maxFileSize with hn
  rw [hr] at hw'
  set file : TransactionLogFile :=
    { f.touched with size := add32 f.size (batch.nextBytes n).length, fileLastWriteTime := io.now }
  obtain rfl : w' = { w with
      store := w.store.setFile w.store.currentSequenceNumber file
      disk := { w.disk with
        logs := w.disk.logs.set w.store.currentSequenceNumber
          (w.disk.bytes w.store.currentSequenceNumber ++ batch.nextBytes n) }
      writer := some ⟨.advance w.store.currentSequenceNumber f.size, batch.advanced n, pos⟩ } := hw'
  have hfilesize : file.size = f.size + (batch.nextBytes n).length := Nat.mod_eq_of_lt hlt
  have hget : ∀ q, (w.store.setFile w.store.currentSequenceNumber file).sequenceFiles.get? q =
      if q = w.store.currentSequenceNumber then some file else w.store.sequenceFiles.get? q :=
        fun q => SeqMap.get?_set _ _ _ _
  have hfits : ∀ r ∈ batch.nextRecords n, r.timestamp.IsPos ∧ r.Fits := nextRecords_pos hstamped.pos n
  have hrec : fileRecords (w.disk.bytes w.store.currentSequenceNumber ++ batch.nextBytes n) =
      fileRecords (w.disk.bytes w.store.currentSequenceNumber) ++ batch.nextRecords n := by
    rw [hbytes, hw.records]
    exact (hw.append fun r hr => (hfits r hr).2).records
  have hlengthens := Disk.Lengthens.set (d := w.disk) w.disk.directory
    (fun q hq => (h.filed.stamped.numbered.le q (allUsed_keys w.disk q hq)).1) hrec
  refine ⟨⟨.advance w.store.currentSequenceNumber f.size, batch.advanced n, pos⟩, rfl,
    ⟨hs, h.filed.current_pos, fun {q g} hg => ?_,
    fun {q} hq => ?_, fun {q} hq => ?_, fun q => ?_, fun {q} hq hno => ?_⟩, ⟨rfl, fun g hg => ?_, fun hc g hg => ?_⟩,
      rfl, id,
    Or.inl (hnext.mono hlengthens le_rfl), fun p hp => Or.inl hp, _,
    ⟨hlengthens, le_rfl, fun q hq => SeqMap.get?_set_ne _ hq.ne _, fun q hq => isSome_setFile _ _ _ hq⟩, fun x hx => ?_⟩
  · rw [hget] at hg
    have hgrow := hlengthens.records q
    split_ifs at hg with hq
    · rw [← Option.some.inj hg]
      exact (h.filed.marked (hq ▸ hf) : f.Marked _).mono hgrow
    · exact (h.filed.marked hg).mono hgrow
  · rw [hget] at hq
    have hreg : (w.store.sequenceFiles.get? q).isSome := by
      split_ifs at hq with hqc
      · rw [hqc, hf]
        rfl
      · exact hq
    obtain ⟨h1, h2, h3⟩ := h.filed.file hreg
    exact ⟨h1, h2, h3.imp_right (hlengthens.kept q)⟩
  · simp only [SeqMap.get?_set] at hq
    rw [hget]
    split_ifs at hq ⊢
    · rfl
    · exact h.filed.log hq
  · rw [Disk.bytes_set]
    split_ifs
    · rw [List.length_append, ← hsize]
      exact hlt
    · exact h.filed.below q
  · -- the current file is there
    rw [hget] at hq
    simp only [SeqMap.get?_set] at hno
    split_ifs at hq hno with hqc
    have := (h.filed.file hq).2.2.resolve_left hqc
    rw [hno] at this
    cases this
  · rw [hget, if_pos rfl] at hg
    rw [← Option.some.inj hg]
    exact ho
  · rw [hget, if_pos rfl] at hg
    rw [← Option.some.inj hg, hfilesize]
    have hne : n ≠ 0 := by
      intro h0
      rw [h0] at hc
      exact absurd hc
        (by rw [show (batch.advanced 0).isComplete = batch.isComplete from rfl, hinc]; exact Bool.false_ne_true)
    exact Nat.lt_add_of_pos_right (nextBytes_length_pos hne hinc)
  · obtain ⟨y, hy, rfl⟩ := List.mem_map.mp hx
    have hmem : y.2 ∈ batch.records := List.mem_of_mem_drop (List.mem_of_mem_take (located_mem y hy).1)
    obtain ⟨i, hi, heq⟩ := List.mem_mapIdx.mp hmem
    rw [← heq]
    rfl

theorem Kept.writerStep (h : Kept w flushes) (hwr : w.writer = some wr) (hio : io.Tidy cfg w wr)
    (hstep : writerStep cfg w wr io = some w') : Kept w' flushes ∧ ∃ more, LogGrows w w' more := by
  obtain ⟨hstamped, -⟩ := h.writer wr hwr
  have hio' : (∃ seq, wr.pc = .tryOpen seq) ∨ io.Stamped cfg w wr := by
    obtain ⟨pc, batch, pos⟩ := wr
    cases pc with
    | tryOpen seq => exact Or.inl ⟨seq, rfl⟩
    | write seq => exact Or.inr hio
    | _ => exact Or.inr trivial
  obtain ⟨hs, hw⟩ : StoreStamped w'.store w'.disk ∧ ∀ wr' ∈ w'.writer, WriterStamped w' wr' := by
    rcases hio' with ⟨seq, hpc⟩ | hio'
    · refine writerStep_stamped h.filed.stamped hstamped ?_ hstep
      obtain ⟨pc, batch, pos⟩ := wr
      obtain rfl : pc = .tryOpen seq := hpc
      obtain ⟨f, hf, -⟩ := Option.bind_eq_some_iff.mp hstep
      exact h.filed.opens (by rw [hf]; rfl) hio
    · exact writerStep_stamped h.filed.stamped hstamped hio' hstep
  obtain ⟨wr', hk⟩ : ∃ wr', WriterKept w w' wr wr' := by
    cases writerStep_move hstep with
    | turn pc hturns => exact ⟨_, h.turn hwr hturns⟩
    | rotate pc hrotates => exact ⟨_, h.rotate hwr hrotates hio hs⟩
    | get hpc => exact ⟨_, h.getFile hwr hpc rfl hs⟩
    | opens seq f hpc hf hroom =>
      rw [WriterCalls.Tidy, hpc] at hio
      exact h.tryOpen hwr hpc hf hio rfl
    | place seq hpc hzero => exact ⟨_, h.fixPosition hwr hpc hs⟩
    | append seq f hpc hf hreturns => exact h.write hwr hpc hf hio hreturns rfl hs
    | setNext seq f hpc hf => exact ⟨_, h.setNext hwr hpc hf hs⟩
    | finish hpc => exact ⟨_, h.finish hwr hpc hs⟩
  exact hk.kept h hwr hstep hw

end

end RocksdbJs
