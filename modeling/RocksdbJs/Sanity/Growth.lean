import RocksdbJs.Sanity.LogPlaces
import RocksdbJs.Proofs.WatermarkOrder

/-! The log over the lives of the stores on one directory. A load keeps what is logged up to the
tail it cuts, and every other step adds to the log's end. -/

namespace RocksdbJs

open TransactionLogStore

section Load
variable {cfg : StoreConfig} {io : FilesCalls} {d d' : Disk} {s : TransactionLogStore} {order : List ℕ}

/-- As long as the scan has met no file the next entry has no place. -/
theorem loadFile_next {sd : TransactionLogStore × Disk} {seq : ℕ}
    (h : sd.1.sequenceFiles.get? sd.1.currentSequenceNumber = none → sd.1.nextLogPosition = ⟨0, 0⟩) :
    (loadFile cfg io sd seq).1.sequenceFiles.get? (loadFile cfg io sd seq).1.currentSequenceNumber = none →
      (loadFile cfg io sd seq).1.nextLogPosition = ⟨0, 0⟩ := by
  unfold loadFile
  split_ifs
  · exact h
  · exact h
  · exact h
  · set f : TransactionLogFile := { sequenceNumber := seq, fileLastWriteTime := (io.mtime seq).getD io.now }
    have hset : ∀ q, ((sd.1.setFile seq f).sequenceFiles.get? q).isSome ∨ (sd.1.setFile seq f).sequenceFiles.get? q =
        sd.1.sequenceFiles.get? q ∧ q ≠ seq := by
      intro q
      rw [setFile, SeqMap.get?_set]
      split_ifs with hq
      · exact Or.inl rfl
      · exact Or.inr ⟨rfl, hq⟩
    have hgrows := ensureOpen_grows (s := sd.1.setFile seq f) sd.2 (io.openCalls seq) (SeqMap.get?_set_self _ _ _)
      (fun ho => by cases ho)
    obtain ⟨files, hstore⟩ := hgrows.store
    simp only [registerLogFile]
    split_ifs with hcur
    · split
      · -- the open failed, so the current number has stayed
        intro hnone
        rw [hstore] at hnone ⊢
        refine h ?_
        change files.get? sd.1.currentSequenceNumber = none at hnone
        have hne : sd.1.currentSequenceNumber ≠ seq := by
          rintro heq
          have := hgrows.file
          rw [hstore, ← heq] at this
          have hfiles : TransactionLogStore.sequenceFiles
              { sd.1.setFile sd.1.currentSequenceNumber f with sequenceFiles := files } = files := rfl
          rw [hfiles, hnone] at this
          cases this
        have := hgrows.get?_ne sd.1.currentSequenceNumber hne
        rw [hstore] at this
        rcases hset sd.1.currentSequenceNumber with hs | ⟨hs, -⟩
        · rw [← this] at hs
          change (files.get? sd.1.currentSequenceNumber).isSome at hs
          rw [hnone] at hs
          cases hs
        · rw [← hs, ← this]
          exact hnone
      · intro hnone
        have := hgrows.file
        rw [show (TransactionLogStore.ensureOpen _ _ _ _ _).2.1.sequenceFiles.get? seq = none from hnone] at this
        cases this
    · intro hnone
      refine h ?_
      rcases hset sd.1.currentSequenceNumber with hs | ⟨hs, -⟩
      · rw [show (sd.1.setFile seq f).sequenceFiles.get? sd.1.currentSequenceNumber = none from hnone] at hs
        cases hs
      · rw [← hs]
        exact hnone

theorem scan_next (cfg : StoreConfig) (io : FilesCalls) (order : List ℕ) (sd : TransactionLogStore × Disk)
    (h : sd.1.sequenceFiles.get? sd.1.currentSequenceNumber = none → sd.1.nextLogPosition = ⟨0, 0⟩) :
    (order.foldl (loadFile cfg io) sd).1.sequenceFiles.get? (order.foldl (loadFile cfg io)
      sd).1.currentSequenceNumber = none →
      (order.foldl (loadFile cfg io) sd).1.nextLogPosition = ⟨0, 0⟩ := by
  induction order generalizing sd with
  | nil => exact h
  | cons seq order ih => exact ih _ (loadFile_next h)

/-- What a load gives: each file there is is registered, and the next entry goes behind the last one. -/
theorem load_filed (hd : DiskStamped d) (hload : LoadsStamped cfg io d order) (hperm : order.Perm d.logs.keys)
    (hpos : ∀ q, (d.logs.get? q).isSome → 0 < q) (h : load cfg d order io = (some s, d')) :
    Filed s d' ∧ Anchored s d' s.nextLogPosition := by
  obtain ⟨s0, d0, h0, hs⟩ := load_stamped hd hload hperm
  obtain ⟨rfl, rfl⟩ : s0 = s ∧ d0 = d' := by
    rw [h, Prod.mk.injEq, Option.some.injEq] at h0
    exact ⟨h0.1.symm, h0.2.symm⟩
  have hcurrent := (load_loaded (fun q hq => (hload q hq).2.2.1.2.2.2) h).current_pos
  have hthere : ∀ q ∈ order, (d.logs.get? q).isSome := fun q hq =>
    Option.isSome_iff_exists.mpr (SeqMap.mem_keys_iff.mp (hperm.mem_iff.mp hq))
  have hstart : ScanStamped d order {} d := by
    refine ⟨fun hb => hb, fun _ _ => rfl, fun hf => (by cases hf), fun q hq hn => absurd ?_ hn, Nat.lt_succ_self 1,
      fun hf => (by cases hf)⟩
    exact hperm.mem_iff.mpr (SeqMap.mem_keys_iff.mpr (Option.isSome_iff_exists.mp hq))
  have hscan := scan_stamped hd hload hthere order ({}, d) (hperm.nodup_iff.mpr (keys_nodup _)) (fun _ hq => hq) hstart
  have hnext := scan_next cfg io order ({}, d) fun _ => rfl
  unfold load at h
  generalize order.foldl (loadFile cfg io) ({}, d) = sd at hscan hnext h
  obtain ⟨s1, d1⟩ := sd
  simp only at hscan hnext h
  have hbelow : ∀ q, (d1.bytes q).length < UINT32_RANGE := by
    intro q
    cases hb : d1.logs.get? q with
    | none =>
      rw [Disk.bytes_none hb]
      decide
    | some bytes =>
      have hb' := hscan.logs hb
      have := (hload q (hperm.mem_iff.mpr (SeqMap.mem_keys_iff.mpr ⟨bytes, hb'⟩))).2.2.2
      rwa [Disk.bytes_eq hb', ← Disk.bytes_eq hb] at this
  have hfile : ∀ {q f}, s1.sequenceFiles.get? q = some f → 0 < q ∧ q ≤ s1.currentSequenceNumber ∧
      (d1.logs.get? q).isSome := by
    intro q f hf
    obtain ⟨-, hq, hle, -⟩ := hscan.file hf
    obtain ⟨bytes, hb⟩ := Option.isSome_iff_exists.mp hq
    exact ⟨hpos q (by rw [hscan.logs hb]; rfl), hle, hq⟩
  have hmarked : ∀ {q f rs}, s1.sequenceFiles.get? q = some f → f.Marked rs := by
    intro q f rs hf e he
    rw [(hscan.file hf).2.2.2.2.1] at he
    cases he
  cases hf : s1.sequenceFiles.get? s1.currentSequenceNumber with
  | none =>
    simp only [hf, Prod.mk.injEq, Option.some.injEq] at h
    obtain ⟨rfl, rfl⟩ := h
    refine ⟨⟨hs, hcurrent, hmarked, fun {q} hq => ?_, fun {q} hq => hscan.met q hq List.not_mem_nil, hbelow,
      fun {q} hq hno => ?_⟩, ?_⟩
    · obtain ⟨f, hf'⟩ := Option.isSome_iff_exists.mp hq
      obtain ⟨h1, h2, h3⟩ := hfile hf'
      exact ⟨h1, h2, Or.inr h3⟩
    · obtain ⟨f, hf'⟩ := Option.isSome_iff_exists.mp hq
      have := (hfile hf').2.2
      rw [hno] at this
      cases this
    · change Anchored _ d1 s1.nextLogPosition
      rw [hnext hf]
      exact anchored_zero _ _
  | some f =>
    have ho := hscan.current_open hf
    have hens : s1.ensureOpen d1 s1.currentSequenceNumber f (io.openCalls s1.currentSequenceNumber) =
        (none, s1, d1) := by
      rw [ensureOpen, if_pos ho]
    simp only [hf, hens, Option.getD_some, Prod.mk.injEq, Option.some.injEq] at h
    -- recovery leaves the file's bytes or cuts them
    obtain ⟨hopen', hindex, hlen⟩ : (f.recoverTail (d1.bytes s1.currentSequenceNumber) io.recover).1.isOpen = true ∧
        (f.recoverTail (d1.bytes s1.currentSequenceNumber) io.recover).1.positionByTimestampIndex =
          f.positionByTimestampIndex ∧
        (f.recoverTail (d1.bytes s1.currentSequenceNumber) io.recover).2.length ≤
          (d1.bytes s1.currentSequenceNumber).length := by
      rcases recoverTail_cases f (d1.bytes s1.currentSequenceNumber) io.recover with hr | ⟨e, -, -, hr⟩
      · rw [hr]
        exact ⟨ho, rfl, le_rfl⟩
      · rw [hr]
        exact ⟨ho, rfl, (List.length_take_le' _ _ : (List.take e _).length ≤ _)⟩
    generalize f.recoverTail (d1.bytes s1.currentSequenceNumber) io.recover = r at hopen' hindex hlen h
    obtain ⟨g, bytes⟩ := r
    obtain ⟨rfl, rfl⟩ := h
    have hget : ∀ q, (s1.sequenceFiles.set s1.currentSequenceNumber g).get? q =
        if q = s1.currentSequenceNumber then some g else s1.sequenceFiles.get? q := fun q => SeqMap.get?_set _ _ _ _
    have hlogs : ∀ q, (d1.logs.set s1.currentSequenceNumber bytes).get? q =
        if q = s1.currentSequenceNumber then some bytes else d1.logs.get? q := fun q => SeqMap.get?_set _ _ _ _
    have hreg : ∀ {q}, ((s1.sequenceFiles.set s1.currentSequenceNumber g).get? q).isSome →
        0 < q ∧ q ≤ s1.currentSequenceNumber ∧ ((d1.logs.set s1.currentSequenceNumber bytes).get? q).isSome := by
      intro q hq
      rw [hget] at hq
      rw [hlogs]
      split_ifs at hq ⊢ with hqc
      · rw [hqc]
        exact ⟨hcurrent, le_rfl, rfl⟩
      · obtain ⟨f', hf'⟩ := Option.isSome_iff_exists.mp hq
        exact hfile hf'
    have hfiled : Filed { s1.setFile s1.currentSequenceNumber g with nextLogPosition := ⟨g.size,
      s1.currentSequenceNumber⟩ }
        { d1 with logs := d1.logs.set s1.currentSequenceNumber bytes } := by
      refine ⟨hs.congr (hs.numbered.congr rfl rfl rfl rfl) rfl rfl, hcurrent, fun {q f'} hf' => ?_,
        fun {q} hq => ?_, fun {q} hq => ?_,
        fun q => ?_, fun {q} hq hno => ?_⟩
      · change (s1.sequenceFiles.set s1.currentSequenceNumber g).get? q = some f' at hf'
        rw [hget] at hf'
        split_ifs at hf'
        · rw [← Option.some.inj hf', TransactionLogFile.Marked, hindex]
          exact hmarked hf
        · exact hmarked hf'
      · obtain ⟨h1, h2, h3⟩ := hreg hq
        exact ⟨h1, h2, Or.inr h3⟩
      · simp only [hlogs] at hq
        change ((s1.sequenceFiles.set s1.currentSequenceNumber g).get? q).isSome
        rw [hget]
        split_ifs at hq ⊢
        · rfl
        · exact hscan.met q hq List.not_mem_nil
      · rw [Disk.bytes_set]
        split_ifs
        · exact hlen.trans_lt (hbelow _)
        · exact hbelow q
      · have := (hreg hq).2.2
        rw [show (d1.logs.set s1.currentSequenceNumber bytes).get? q = none from hno] at this
        cases this
    have hgfile : ({ s1.setFile s1.currentSequenceNumber g with
        nextLogPosition := ⟨g.size, s1.currentSequenceNumber⟩ } :
          TransactionLogStore).sequenceFiles.get? s1.currentSequenceNumber =
        some g := SeqMap.get?_set_self _ _ _
    obtain ⟨hthere', hsize⟩ := hfiled.open_file hgfile hopen'
    refine ⟨hfiled.congr hs rfl rfl rfl rfl, ?_⟩
    have hend : Anchored _ _ ⟨_, s1.currentSequenceNumber⟩ := hfiled.anchored_end hcurrent le_rfl hthere'
    simp only [← hsize] at hend
    exact ⟨hend.marks, hend.le, hend.zero⟩

theorem load_latest (h : load cfg d order io = (some s, d')) : s.latestTimestamp = Binary64.zero := by
  have hshape := scan_scanned cfg io order ({}, d) ⟨_, _, _, _, rfl⟩
  unfold load at h
  generalize order.foldl (loadFile cfg io) ({}, d) = sd at hshape h
  obtain ⟨s1, d1⟩ := sd
  simp only at h hshape
  cases hf : s1.sequenceFiles.get? s1.currentSequenceNumber with
  | none =>
    obtain ⟨files, current, next, position, rfl⟩ := hshape
    simp only [hf, Prod.mk.injEq, Option.some.injEq] at h
    rw [← h.1]
    rfl
  | some f =>
    simp only [hf] at h
    have hopened := ensureOpen_scanned hshape d1 s1.currentSequenceNumber f (io.openCalls s1.currentSequenceNumber)
    generalize s1.ensureOpen d1 s1.currentSequenceNumber f (io.openCalls s1.currentSequenceNumber) = r at hopened h
    obtain ⟨threw, s2, d2⟩ := r
    obtain ⟨files, current, next, position, rfl⟩ := hopened
    cases threw with
    | some e => cases h
    | none =>
      simp only [Prod.mk.injEq, Option.some.injEq] at h
      rw [← h.1]
      rfl

end Load

section Store
variable {w : World} {flushes flushes' : List LogPosition} {s' : TransactionLogStore} {d' : Disk}

theorem Anchored.congr {s : TransactionLogStore} {d : Disk} {p : LogPosition} (h : Anchored s d p)
    (hcur : s'.currentSequenceNumber = s.currentSequenceNumber) (hlogs : d'.logs = d.logs) : Anchored s' d' p :=
  h.mono (.of_logs hlogs) hcur.ge

/-- A step of the store that leaves the files and the next place alone. -/
theorem Kept.store (h : Kept w flushes) (s' : TransactionLogStore) (d' : Disk)
    (hfiles : s'.sequenceFiles = w.store.sequenceFiles)
    (hcur : s'.currentSequenceNumber = w.store.currentSequenceNumber)
    (hseq : s'.nextSequenceNumber = w.store.nextSequenceNumber)
    (hlatest : s'.latestTimestamp = w.store.latestTimestamp) (hlogs : d'.logs = w.disk.logs)
    (hnext : s'.nextLogPosition = w.store.nextLogPosition)
    (hmem : ∀ wr ∈ w.writer, wr.busy = true → wr.logPosition ∈ w.store.uncommittedTransactionPositions →
      wr.logPosition ∈ s'.uncommittedTransactionPositions)
    (hheld : ∀ {p}, HeldPosition { w with store := s', disk := d' } flushes' p → Anchored w.store w.disk p) :
    Kept { w with store := s', disk := d' } flushes' ∧ LogGrows w { w with store := s', disk := d' } [] := by
  have hs : StoreStamped s' d' := by
    have hn := h.filed.stamped.numbered.congr hfiles hcur hseq hlogs
    rw [← hlogs] at hn
    exact h.filed.stamped.congr hn hfiles hlogs
  have hcontent : d'.content = w.disk.content := by rw [Disk.content, Disk.content, hlogs]
  refine ⟨⟨h.filed.congr hs hfiles hcur hlatest hlogs, fun wr hwr => ⟨⟨?_, ?_, (h.writer wr hwr).1.pos⟩, ?_⟩,
    fun wr hwr hb => ?_, ?_, ?_,
    fun {p} hp => (hheld hp).congr hcur hlogs⟩, .of_files hlogs hfiles hcur.ge⟩
  · exact (h.writer wr hwr).1.atCurrent.mono hcur fun q hq => by rw [hlogs]; exact hq
  · exact (h.writer wr hwr).1.fileOpen.mono fun q f hf => ⟨f, by rw [← hfiles]; exact hf, id⟩
  · have hst := (h.writer wr hwr).2
    obtain ⟨pc, batch, pos⟩ := wr
    unfold Writer.Standing OpenAt at hst ⊢
    rw [hfiles, hcur, hlogs]
    exact hst
  · obtain ⟨h1, h2, h3, h4⟩ := h.topped wr hwr hb
    exact ⟨hlatest ▸ h1, by rw [hcontent, hlatest]; exact h2, by rw [hlatest]; exact h3, hmem wr hwr hb h4⟩
  · rw [hlatest]
    exact h.latest
  · rcases h.next with hn | ⟨wr, hwr, hpc, hnone⟩
    · left
      rw [hnext]
      exact hn.congr hcur hlogs
    · exact Or.inr ⟨wr, hwr, hpc, by rw [hfiles, hcur]; exact hnone⟩

/-- A store that is made for a directory that is not there. -/
theorem kept_create {d : Disk} (hlogs : d.logs.keys = []) (hstate : d.txnState = none) : Kept { disk := d } [] := by
  have hno : ∀ q, d.logs.get? q = none := by
    intro q
    cases hq : d.logs.get? q with
    | none => rfl
    | some bytes =>
      have hmem := SeqMap.mem_keys_iff.mpr ⟨bytes, hq⟩
      rw [hlogs] at hmem
      cases hmem
  have hlog : ∀ {q}, (d.logs.get? q).isSome → False := by
    intro q hq
    rw [hno] at hq
    cases hq
  have hfile : ∀ {q f}, (({} : TransactionLogStore).sequenceFiles.get? q) = some f → False := fun h => by cases h
  have hs : StoreStamped {} d := by
    refine ⟨⟨fun q hq => ?_, Nat.lt_succ_self 1, fun hq => (hlog hq).elim, fun hf => (hfile hf).elim⟩,
      ⟨fun hb => ?_, fun _ hb => ?_⟩, fun hf => (hfile hf).elim⟩
    · rw [hlogs] at hq
      cases hq
    · rw [hno] at hb
      cases hb
    · rw [hno] at hb
      cases hb
  refine ⟨⟨hs, Nat.one_pos, fun hf => (hfile hf).elim, fun hq => (by cases hq), fun hq => (hlog hq).elim, fun q => ?_,
    fun hq => by cases hq⟩, fun wr hwr => (by cases hwr), fun wr hwr => (by cases hwr), Or.inl rfl,
      Or.inl (anchored_zero _ _), fun {p} hp => ?_⟩
  · rw [Disk.bytes_none (hno q)]
    decide
  · cases hp with
    | committed => exact anchored_zero _ _
    | uncommitted hp => cases hp
    | sampled hp =>
      obtain rfl := List.eq_of_mem_replicate hp
      exact anchored_zero _ _
    | flushed hp =>
      rw [show ({ disk := d } : World).disk.txnState = none from hstate] at hp
      cases hp
    | flushing hp => cases hp

/-- A store that `load` has returned. -/
theorem kept_load {cfg : StoreConfig} {d : Disk} {order : List ℕ} {io : FilesCalls}
    {s : TransactionLogStore} (hd : DiskStamped d) (hload : LoadsStamped cfg io d order)
    (hperm : order.Perm d.logs.keys) (hpos : ∀ q, (d.logs.get? q).isSome → 0 < q)
    (h : load cfg d order io = (some s, d')) (hstate : ∀ p ∈ d'.txnState, Anchored s d' p) :
    Kept { store := s, disk := d' } [] := by
  obtain ⟨hfiled, hnext⟩ := load_filed hd hload hperm hpos h
  have hloaded := load_loaded (fun q hq => (hload q hq).2.2.1.2.2.2) h
  refine ⟨hfiled, fun wr hwr => (by cases hwr), fun wr hwr => (by cases hwr), Or.inl (load_latest h),
    Or.inl hnext, fun {p} hp => ?_⟩
  cases hp with
  | committed =>
    change Anchored s d' s.lastCommittedPosition
    rw [hloaded.committed]
    exact anchored_zero _ _
  | uncommitted hp =>
    rw [(hloaded.positions p).mp hp]
    exact hnext
  | sampled hp =>
    change _ ∈ s.recentlyCommittedSequencePositions at hp
    rw [hloaded.samples] at hp
    obtain rfl := List.eq_of_mem_replicate hp
    exact anchored_zero _ _
  | flushed hp => exact hstate p hp
  | flushing hp => cases hp

theorem Kept.idle_anchored (h : Kept w flushes) (hidle : w.busy = false) :
    Anchored w.store w.disk w.store.nextLogPosition := by
  rcases h.next with hn | ⟨wr, hwr, hpc, -⟩
  · exact hn
  · rw [World.busy, show w.writer = some wr from hwr, Option.map_some, Option.getD_some, Writer.busy, hpc] at hidle
    cases hidle

/-- What the watermark moves to when a transaction leaves whose call has ended. -/
theorem Kept.fullyCommitted (h : Kept w flushes) {position : LogPosition}
    (hne : ∀ wr ∈ w.writer, wr.busy = true → wr.logPosition ≠ position) :
    Anchored w.store w.disk (w.store.positionErase position).fullyCommittedPosition := by
  unfold fullyCommittedPosition
  cases hfront : (w.store.positionErase position).uncommittedTransactionPositions.front? with
  | some p => exact h.held (.uncommitted (SortedVec.mem_erase.mp (SortedVec.front?_mem hfront)).2)
  | none =>
    rcases h.next with hn | ⟨wr, hwr, hpc, -⟩
    · exact hn
    · -- the running call's position is in the set
      have hb : wr.busy = true := by rw [Writer.busy, hpc]
      have hmem := (h.topped wr hwr hb).mem
      exact absurd (SortedVec.mem_erase.mpr ⟨hne wr hwr hb, hmem⟩) (SortedVec.front?_eq_none.mp hfront _)

theorem Kept.commitAborted (h : Kept w flushes) {position : LogPosition}
    (hne : ∀ wr ∈ w.writer, wr.busy = true → wr.logPosition ≠ position) :
    Kept { w with store := w.store.commitAborted position } flushes ∧
      LogGrows w { w with store := w.store.commitAborted position } [] := by
  refine h.store (w.store.commitAborted position) w.disk rfl rfl rfl rfl rfl rfl
    (fun wr hwr hb hm => ?_) fun {p} hp => ?_
  · exact SortedVec.mem_erase.mpr ⟨hne wr hwr hb, hm⟩
  · cases hp with
    | committed => exact h.fullyCommitted hne
    | uncommitted hp => exact h.held (.uncommitted (SortedVec.mem_erase.mp hp).2)
    | sampled hp => exact h.held (.sampled hp)
    | flushed hp => exact h.held (.flushed hp)
    | flushing hp => exact h.held (.flushing hp)

theorem Kept.commitFinished (h : Kept w flushes) {position : LogPosition} (seq : ℕ)
    (hne : ∀ wr ∈ w.writer, wr.busy = true → wr.logPosition ≠ position) :
    Kept { w with store := w.store.commitFinished position seq } flushes ∧
      LogGrows w { w with store := w.store.commitFinished position seq } [] := by
  refine h.store (w.store.commitFinished position seq) w.disk rfl rfl rfl rfl rfl rfl (fun wr hwr hb hm => ?_)
    fun {p} hp => ?_
  · exact SortedVec.mem_erase.mpr ⟨hne wr hwr hb, hm⟩
  · cases hp with
    | committed => exact h.fullyCommitted hne
    | uncommitted hp => exact h.held (.uncommitted (SortedVec.mem_erase.mp hp).2)
    | sampled hp =>
      rcases List.mem_or_eq_of_mem_set hp with hp | rfl
      · exact h.held (.sampled hp)
      · exact h.fullyCommitted hne
    | flushed hp => exact h.held (.flushed hp)
    | flushing hp => exact h.held (.flushing hp)

theorem Kept.flushScan (h : Kept w flushes) (seq : ℕ) : Kept w (w.store.latestSequencePosition seq :: flushes) := by
  refine (h.store w.store w.disk rfl rfl rfl rfl rfl rfl (fun _ _ _ hm => hm) fun {p} hp => ?_).1
  cases hp with
  | committed => exact h.held .committed
  | uncommitted hp => exact h.held (.uncommitted hp)
  | sampled hp => exact h.held (.sampled hp)
  | flushed hp => exact h.held (.flushed hp)
  | flushing hp =>
    rcases List.mem_cons.mp hp with rfl | hp
    · rcases latestSequencePosition_spec w.store seq with h0 | ⟨sp, hsp, -, heq⟩
      · rw [h0]
        exact anchored_zero _ _
      · rw [← heq]
        exact h.held (.sampled hsp)
    · exact h.held (.flushing hp)

theorem Kept.flushWrite (h : Kept w flushes) {k : ℕ} {position : LogPosition} (hk : flushes[k]? = some position) :
    let r := w.store.writeFlushedPosition w.disk position
    Kept { w with store := r.1, disk := r.2 } (flushes.eraseIdx k) ∧
      LogGrows w { w with store := r.1, disk := r.2 } [] := by
  obtain ⟨stream, written, state, hr⟩ := writeFlushedPosition_cases w.store w.disk position
  have hstate := writeFlushedPosition_txnState w.store w.disk position
  rw [hr] at hstate ⊢
  have hposition : Anchored w.store w.disk position := h.held (.flushing (List.mem_of_getElem? hk))
  refine h.store { w.store with flushedStateFile := stream, lastWrittenFlushedPosition := written }
    { w.disk with txnState := state } rfl rfl rfl rfl rfl rfl (fun _ _ _ hm => hm) fun {p} hp => ?_
  cases hp with
  | committed => exact h.held .committed
  | uncommitted hp => exact h.held (.uncommitted hp)
  | sampled hp => exact h.held (.sampled hp)
  | flushed hp =>
    change state = some p at hp
    rcases hstate with hs | hs
    · exact h.held (.flushed (hs.symm.trans hp))
    · rw [← Option.some.inj (hs.symm.trans hp)]
      exact hposition
  | flushing hp => exact h.held (.flushing (List.mem_of_mem_eraseIdx hp))

/-- The watermark that the first query of a log finds. -/
theorem Kept.getLastCommittedPosition (h : Kept w flushes) :
    Kept { w with store := w.store.getLastCommittedPosition w.disk } flushes ∧
      LogGrows w { w with store := w.store.getLastCommittedPosition w.disk } [] := by
  obtain ⟨position, hs⟩ := getLastCommittedPosition_store w.store w.disk
  have hposition : Anchored w.store w.disk (w.store.getLastCommittedPosition w.disk).lastCommittedPosition := by
    unfold TransactionLogStore.getLastCommittedPosition
    by_cases hz : w.store.lastCommittedPosition.isZero = true
    · rw [if_pos hz]
      change Anchored w.store w.disk (if _ then _ else _)
      by_cases hflushed : (!(getLastFlushedPosition w.disk).isZero) = true
      · rw [if_pos hflushed]
        unfold getLastFlushedPosition
        cases ht : w.disk.txnState with
        | none => exact anchored_zero _ _
        | some p => exact h.held (.flushed ht)
      · rw [if_neg hflushed]
        cases hhead : w.store.sequenceFiles.entries.head? with
        | none =>
          simp only
          rw [if_pos h.filed.current_pos]
          exact anchored_header _ h.filed.current_pos le_rfl
        | some e =>
          have hget : w.store.sequenceFiles.get? e.1 = some e.2 :=
            SeqMap.get?_eq_some_iff.mpr (List.mem_of_mem_head? hhead)
          have hfile := h.filed.file (show (w.store.sequenceFiles.get? e.1).isSome by rw [hget]; rfl)
          exact anchored_header _ hfile.1 hfile.2.1
    · rw [if_neg hz]
      exact h.held .committed
  rw [hs] at hposition ⊢
  refine h.store { w.store with lastCommittedPosition := position } w.disk rfl rfl rfl rfl rfl rfl (fun _ _ _ hm => hm)
    fun {p} hp => ?_
  cases hp with
  | committed => exact hposition
  | uncommitted hp => exact h.held (.uncommitted hp)
  | sampled hp => exact h.held (.sampled hp)
  | flushed hp => exact h.held (.flushed hp)
  | flushing hp => exact h.held (.flushing hp)

/-- The timestamp of the store once a batch has begun. -/
theorem raised_timestamp {latest timestamp : Binary64} (hl : latest = Binary64.zero ∨ latest.IsPos)
    (ht : timestamp.IsPos) :
    (if Binary64.lt latest timestamp then timestamp else latest).IsPos ∧
      (if Binary64.lt latest timestamp then timestamp else latest).key = max latest.key timestamp.key := by
  have hnan : latest.isNaN = false := by
    rcases hl with rfl | hl
    · decide
    · exact hl.not_nan
  have hiff := Binary64.lt_iff hnan ht.not_nan
  split_ifs with hlt
  · exact ⟨ht, (max_eq_right (hiff.mp hlt).le).symm⟩
  · have hle : timestamp.key ≤ latest.key := not_lt.mp fun h => hlt (hiff.mpr h)
    refine ⟨hl.resolve_left ?_, (max_eq_left hle).symm⟩
    rintro rfl
    have := ht.key_pos
    rw [Binary64.key_zero] at hle
    omega

theorem Kept.beginWrite (h : Kept w flushes) (hidle : w.busy = false) {batch : TransactionLogEntryBatch}
    (hpos : batch.timestamp.IsPos)
    (htop : ∀ r ∈ w.disk.content, r.timestamp.key ≤ max w.store.latestTimestamp.key batch.timestamp.key) :
    Kept (beginWrite w batch) flushes ∧ LogGrows w (beginWrite w batch) [] := by
  have hnext := h.idle_anchored hidle
  have hheld : ∀ {p}, HeldPosition w flushes p → Anchored w.store w.disk p := h.held
  unfold RocksdbJs.beginWrite
  split_ifs
  · refine ⟨⟨h.filed, fun wr hwr => ?_, fun wr hwr hb => ?_, h.latest, Or.inl hnext, fun {p} hp => hheld ?_⟩,
      .of_files rfl rfl le_rfl⟩
    · obtain rfl := Option.some.inj hwr
      exact ⟨⟨trivial, trivial, hpos⟩, trivial⟩
    · obtain rfl := Option.some.inj hwr
      cases hb
    · cases hp with
      | committed => exact .committed
      | uncommitted hp => exact .uncommitted hp
      | sampled hp => exact .sampled hp
      | flushed hp => exact .flushed hp
      | flushing hp => exact .flushing hp
  · obtain ⟨hlatest, hkey⟩ := raised_timestamp h.latest hpos
    have hs := h.filed.stamped
    have hcontent : ∀ r ∈ w.disk.content, r.timestamp.key ≤
        (if Binary64.lt w.store.latestTimestamp batch.timestamp then batch.timestamp
          else w.store.latestTimestamp).key := by
      rw [hkey]
      exact htop
    refine ⟨⟨⟨hs.congr (hs.numbered.congr rfl rfl rfl rfl) rfl rfl, h.filed.current_pos, h.filed.marked,
      h.filed.file, h.filed.log,
      h.filed.below, fun _ _ => ⟨hlatest, hcontent⟩⟩, fun wr hwr => ?_, fun wr hwr hb => ?_, Or.inr hlatest,
      Or.inl ⟨hnext.marks, hnext.le, hnext.zero⟩, fun {p} hp => ?_⟩, .of_files rfl rfl le_rfl⟩
    · obtain rfl := Option.some.inj hwr
      refine ⟨⟨outerLoop_atCurrent _ _ _ _, outerLoop_fileOpen _ _ _, hpos⟩, standing_outerLoop _ _ _ _⟩
    · obtain rfl := Option.some.inj hwr
      refine ⟨hlatest, hcontent, ?_, SortedVec.mem_insert.mpr (Or.inl rfl)⟩
      exact (le_max_right _ _).trans hkey.ge
    · suffices hp' : Anchored w.store w.disk p from ⟨hp'.marks, hp'.le, hp'.zero⟩
      cases hp with
      | committed => exact hheld .committed
      | uncommitted hp =>
        rcases SortedVec.mem_insert.mp hp with rfl | hp
        · exact hnext
        · exact hheld (.uncommitted hp)
      | sampled hp => exact hheld (.sampled hp)
      | flushed hp => exact hheld (.flushed hp)
      | flushing hp => exact hheld (.flushing hp)

end Store

namespace Life

/-- A commit of a transaction whose call has ended, with no older one left behind the watermark. -/
def CommitsOn (w : World) (position : LogPosition) : Prop :=
  w.store.lastCommittedPosition ≤ (w.store.positionErase position).fullyCommittedPosition ∧
    ∀ wr ∈ w.writer, wr.busy = true → wr.logPosition ≠ position

/-- What a step has to meet. System calls succeed and no file reaches 4 GiB; a batch has a positive
timestamp, not below what is logged unless the store has seen a higher one; its last append
leaves room in the file; commits move the watermark on; a lookup sees all files; a load registers every
file it does not remove, and the flushed position is one of the log it finds. -/
def Tidy (cfg : StoreConfig) (y : Life) : Event → Prop
  | .create => y.world.disk.logs.keys = [] ∧ y.world.disk.txnState = none
  | .beginWrite batch => batch.timestamp.IsPos ∧
      ∀ r ∈ y.world.disk.content, r.timestamp.key ≤ max y.world.store.latestTimestamp.key batch.timestamp.key
  | .writer io => ∀ wr ∈ y.world.writer, io.Tidy cfg y.world wr
  | .commitFinished position _ => CommitsOn y.world position
  | .commitAborted position => CommitsOn y.world position
  | .getLogFileSize seq io => (io.openCalls seq).Succeeds
  | .findPosition _ io => FindOk cfg y.world.store y.world.disk io
  | .load order io => LoadsStamped cfg io y.world.disk order ∧
      ∀ s ∈ (load cfg y.world.disk order io).1, ∀ p ∈ (load cfg y.world.disk order io).2.txnState,
        Anchored s (load cfg y.world.disk order io).2 p
  | .purge _ _ _ => False
  | _ => True

/-- The invariant: the log of an open store is kept, and what a closed one leaves can be loaded. -/
structure Keeping (y : Life) : Prop where
  disk : DiskStamped y.world.disk
  numbers : ∀ q, (y.world.disk.logs.get? q).isSome → 0 < q
  opened : y.isOpen = true → Kept y.world y.flushes
  closed : y.isOpen = false → y.flushes = []

variable {cfg : StoreConfig} {y y' : Life}

theorem Keeping.of_kept (h : Kept y.world y.flushes) (hopen : y.isOpen = true) : y.Keeping :=
  ⟨h.filed.stamped.disk, fun _ hq => (h.filed.file (h.filed.log hq)).1, fun _ => h,
    fun hc => by rw [hopen] at hc; cases hc⟩

/-- A step of an open store that stays open: the log grows. -/
theorem stepOpen_kept {e : Event} (h : Kept y.world y.flushes) (hok : Tidy cfg y e) (hstep : y.stepOpen cfg e = some y')
    (hopen : y'.isOpen = true) : Kept y'.world y'.flushes ∧ ∃ more, LogGrows y.world y'.world more := by
  have hread : ∀ w' : World, Kept w' y.flushes ∧ LogGrows y.world w' [] →
      Kept w' y.flushes ∧ ∃ more, LogGrows y.world w' more := fun _ h => ⟨h.1, [], h.2⟩
  cases e with
  | create => cases hstep
  | beginWrite batch =>
    simp only [stepOpen] at hstep
    split_ifs at hstep with hbusy
    obtain rfl := Option.some.inj hstep
    exact hread _ (h.beginWrite (Bool.eq_false_of_not_eq_true hbusy) hok.1 hok.2)
  | writer io =>
    simp only [stepOpen, stepWriter, Option.map_eq_some_iff, Option.bind_eq_some_iff] at hstep
    obtain ⟨w', ⟨wr, hwr, hstep⟩, rfl⟩ := hstep
    exact h.writerStep hwr (hok wr hwr) hstep
  | commitFinished position seq =>
    obtain rfl := Option.some.inj hstep
    exact hread _ (h.commitFinished seq hok.2)
  | commitAborted position =>
    obtain rfl := Option.some.inj hstep
    exact hread _ (h.commitAborted hok.2)
  | flushScan seq =>
    obtain rfl := Option.some.inj hstep
    exact ⟨h.flushScan seq, [], .refl _⟩
  | flushWrite k =>
    simp only [stepOpen, Option.map_eq_some_iff] at hstep
    obtain ⟨position, hk, rfl⟩ := hstep
    obtain ⟨hkept, hgrows⟩ := h.flushWrite hk
    exact ⟨hkept, [], hgrows⟩
  | getLastCommittedPosition =>
    obtain rfl := Option.some.inj hstep
    exact hread _ h.getLastCommittedPosition
  | getLogFileSize seq io =>
    obtain rfl := Option.some.inj hstep
    cases hf : y.world.store.sequenceFiles.get? seq with
    | none =>
      have hnone := getLogFileSize_none y.world.disk io hf
      refine hread { y.world with
        store := (y.world.store.getLogFileSize y.world.disk seq io).2.1
        disk := (y.world.store.getLogFileSize y.world.disk seq io).2.2 } ?_
      rw [hnone]
      exact ⟨h, .refl _⟩
    | some f =>
      obtain ⟨s', d', hr, hfiled, hreads, -⟩ := h.filed.getLogFileSize (by rw [hf]; rfl) hok
      refine hread { y.world with
        store := (y.world.store.getLogFileSize y.world.disk seq io).2.1
        disk := (y.world.store.getLogFileSize y.world.disk seq io).2.2 } ?_
      rw [hr]
      exact h.reads hreads hfiled
  | findPosition timestamp io =>
    obtain rfl := Option.some.inj hstep
    obtain ⟨position, s', hr, hfiled, hreads, -⟩ := h.filed.findPosition (t := timestamp) hok
    refine hread { y.world with store := (findPositionByTimestamp cfg y.world.store y.world.disk timestamp io).2 } ?_
    rw [hr]
    exact h.reads hreads hfiled
  | purge all before io => exact hok.elim
  | close io =>
    simp only [stepOpen] at hstep
    split_ifs at hstep
    obtain rfl := Option.some.inj hstep
    cases hopen
  | crash =>
    obtain rfl := Option.some.inj hstep
    cases hopen
  | load order io => cases hstep

/-- The store is left, with the log as it was. -/
theorem Keeping.left (h : y.Keeping) (hlogs : y'.world.disk.logs = y.world.disk.logs) (hclosed : y'.isOpen = false)
    (hflushes : y'.flushes = []) : y'.Keeping := by
  refine ⟨⟨fun {q bytes} hb => h.disk.whole (hlogs ▸ hb), fun {p q bytes bytes'} hlt hb hb' => ?_⟩,
    fun q hq => ?_, fun ho => ?_,
    fun _ => hflushes⟩
  · rw [hlogs] at hb hb'
    exact h.disk.headers hlt hb hb'
  · rw [hlogs] at hq
    exact h.numbers q hq
  · rw [hclosed] at ho
    cases ho

theorem stepOpen_isOpen {e : Event} (he : e.ends = false) (hstep : y.stepOpen cfg e = some y') :
    y'.isOpen = y.isOpen := by
  cases e with
  | create => cases hstep
  | load order io => cases hstep
  | close io => cases he
  | crash => cases he
  | beginWrite batch =>
    simp only [stepOpen] at hstep
    split_ifs at hstep
    obtain rfl := Option.some.inj hstep
    rfl
  | writer io =>
    obtain ⟨w', -, rfl⟩ := Option.map_eq_some_iff.mp hstep
    rfl
  | flushWrite k =>
    obtain ⟨position, -, rfl⟩ := Option.map_eq_some_iff.mp hstep
    rfl
  | purge all before io =>
    simp only [stepOpen] at hstep
    split_ifs at hstep
    obtain rfl := Option.some.inj hstep
    rfl
  | _ =>
    obtain rfl := Option.some.inj hstep
    rfl

theorem keeping_new : Keeping {} :=
  ⟨⟨fun hb => (by cases hb), fun _ hb => by cases hb⟩, fun q hq => (by cases hq), fun ho => (by cases ho), fun _ => rfl⟩

/-- One step, whatever it is. -/
theorem step_keeping {e : Event} (h : y.Keeping) (hok : Tidy cfg y e) (hstep : y.step cfg e = some y') :
    y'.Keeping := by
  rw [Life.step] at hstep
  split_ifs at hstep with hopen
  · cases he : e.ends with
    | false =>
      have hopen' := (stepOpen_isOpen he hstep).trans hopen
      exact .of_kept (stepOpen_kept (h.opened hopen) hok hstep hopen').1 hopen'
    | true =>
      cases e with
      | close io =>
        simp only [stepOpen] at hstep
        split_ifs at hstep
        obtain rfl := Option.some.inj hstep
        refine h.left ?_ rfl rfl
        change (doClose cfg y.world.store y.world.disk io).2.logs = _
        rw [(doClose_disk cfg y.world.store y.world.disk io).1]
      | crash =>
        obtain rfl := Option.some.inj hstep
        exact h.left rfl rfl rfl
      | _ => cases he
  · have hflushes := h.closed (Bool.eq_false_of_not_eq_true hopen)
    cases e with
    | create =>
      simp only [stepClosed] at hstep
      split_ifs at hstep
      obtain rfl := Option.some.inj hstep
      refine .of_kept ?_ rfl
      rw [show ({ y with world := { disk := y.world.disk }, isOpen := true } : Life).flushes = [] from hflushes]
      exact kept_create hok.1 hok.2
    | load order io =>
      simp only [stepClosed] at hstep
      split_ifs at hstep with hdir
      obtain ⟨s, d', hl, -⟩ := load_stamped h.disk hok.1 hdir.2
      have hstate := hok.2
      rw [hl] at hstep hstate
      obtain rfl := Option.some.inj hstep
      refine .of_kept ?_ rfl
      change Kept _ y.flushes
      rw [hflushes]
      exact kept_load h.disk hok.1 hdir.2 h.numbers hl (hstate s rfl)
    | _ => cases hstep

end Life

end RocksdbJs
