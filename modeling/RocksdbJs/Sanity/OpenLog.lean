import RocksdbJs.Sanity.Shelf
import RocksdbJs.Sanity.Readers

/-! The files of an open store as its readers meet them. Each file there is is registered, below
4 GiB and of whole frames; only the current one may be registered before it is there, and then the
header it gets is above all that is logged. A reader opens files and looks positions up in them;
neither adds an entry. -/

namespace SeqMap

/-- Storing what is there changes nothing. -/
theorem set_get? {α : Type*} {m : SeqMap α} {k : ℕ} {v : α} (h : m.get? k = some v) : m.set k v = m := by
  obtain ⟨entries, sorted⟩ := m
  refine SeqMap.ext ?_
  change entries.lookup k = some v at h
  change setList k v entries = entries
  induction entries with
  | nil => cases h
  | cons e entries ih =>
    obtain ⟨i, w⟩ := e
    rw [List.map_cons, List.pairwise_cons] at sorted
    rw [lookup_cons_eq] at h
    rw [setList]
    split_ifs at h with hk
    · rw [if_neg (by omega), if_neg (by omega), hk, Option.some.inj h]
    · have hlt := sorted.1 k (List.mem_map_of_mem (mem_of_lookup h))
      rw [if_pos hlt, ih sorted.2 h]

end SeqMap

namespace RocksdbJs

open TransactionLogStore

/-- The index of a file points to entries of it, or to its header. -/
def TransactionLogFile.Marked (f : TransactionLogFile) (rs : List LogRecord) : Prop :=
  ∀ e ∈ f.positionByTimestampIndex, e.2 = 0 ∨ ∃ front, front <+: rs ∧
    e.2 = TRANSACTION_LOG_FILE_HEADER_SIZE + (frames front).length

theorem TransactionLogFile.Marked.mono {f : TransactionLogFile} {rs rs' : List LogRecord}
    (h : f.Marked rs) (hrs : rs <+: rs') :
    f.Marked rs' :=
  fun e he => (h e he).imp_right fun ⟨front, hfront, heq⟩ => ⟨front, hfront.trans hrs, heq⟩

section Index
variable {bytes : Bytes} {timestamp : Binary64} {length : ℕ}

/-- One round of the indexing loop, on a whole frame. -/
theorem indexLoop_frame {front back : List LogRecord} {r : LogRecord} {f : TransactionLogFile} (fuel : ℕ)
    (hlen : bytes.length ≤ length) (hlt : bytes.length < UINT32_RANGE)
    (hw : StampedFile bytes timestamp (front ++ r :: back)) (hsize : f.size = bytes.length)
    (hpos : f.lastIndexedPosition = TRANSACTION_LOG_FILE_HEADER_SIZE + (frames front).length) :
    f.indexLoop (mapView bytes length) (fuel + 1) =
      (f.reindexed (indexAdd f.positionByTimestampIndex r.timestamp f.lastIndexedPosition)
        (TRANSACTION_LOG_FILE_HEADER_SIZE + (frames (front ++ [r])).length)).indexLoop (mapView bytes length) fuel := by
  have hr : r ∈ front ++ r :: back := List.mem_append_right _ List.mem_cons_self
  have hpre : f.lastIndexedPosition = (fileHeader timestamp ++ frames front).length := by
    rw [hpos, List.length_append, fileHeader_length]
  have hview : mapView bytes length = (fileHeader timestamp ++ frames front) ++
      (r.frame ++ (frames back ++ List.replicate (length - bytes.length) 0)) := by
    rw [mapView_whole hlen]
    nth_rewrite 1 [hw.eq]
    simp only [frames_append, frames_cons, List.append_assoc]
  have htotal := hw.length
  rw [frames_append, frames_cons, List.length_append, List.length_append] at htotal
  have hgrow : (frames (front ++ [r])).length = (frames front).length + r.frame.length := by
    rw [frames_append, List.length_append, frames_cons, frames_nil, List.append_nil]
  have hframe := r.frame_length
  have h13 : TRANSACTION_LOG_ENTRY_HEADER_SIZE = 13 := rfl
  have h13' : TRANSACTION_LOG_FILE_HEADER_SIZE = 13 := rfl
  have h5 : TRANSACTION_LOG_FILE_TIMESTAMP_POSITION = 5 := rfl
  have hts : readDoubleBE (mapView bytes length) f.lastIndexedPosition = r.timestamp := by
    rw [hview, hpre, frame_timestamp]
  have hsz : readUint32BE (mapView bytes length) (f.lastIndexedPosition + 8) = r.data.length := by
    rw [hview, hpre, frame_size r _ _ (hw.fits r hr)]
  have hmap := mapView_length hlen
  have hnext : add32 f.lastIndexedPosition (add32 TRANSACTION_LOG_ENTRY_HEADER_SIZE r.data.length) =
      TRANSACTION_LOG_FILE_HEADER_SIZE + (frames (front ++ [r])).length := by
    rw [add32, add32, Nat.mod_eq_of_lt (a := TRANSACTION_LOG_ENTRY_HEADER_SIZE + _) (by omega),
      Nat.mod_eq_of_lt (by omega)]
    omega
  rw [TransactionLogFile.indexLoop]
  simp only
  rw [if_neg (by omega), if_neg (by omega), hts, (hw.pos r hr).not_zero, if_neg Bool.false_ne_true, if_neg (by omega),
    if_neg (by omega), hsz, hnext]
  rfl

/-- The loop adds marks only. -/
theorem indexLoop_marked (hlen : bytes.length ≤ length) (hlt : bytes.length < UINT32_RANGE)
    {f' : TransactionLogFile} {b : Bool} :
    ∀ (back front : List LogRecord) (f : TransactionLogFile) (fuel : ℕ), StampedFile bytes timestamp (front ++ back) →
      f.size = bytes.length → f.lastIndexedPosition = TRANSACTION_LOG_FILE_HEADER_SIZE + (frames front).length →
      f.Marked (front ++ back) → f.indexLoop (mapView bytes length) fuel = .ok (f', b) → f'.Marked (front ++ back) := by
  intro back
  induction back with
  | nil =>
    intro front f fuel hw hsize hpos hmarked h
    cases fuel with
    | zero => cases h
    | succ fuel =>
      rw [List.append_nil] at hw
      have hend : f.size ≤ f.lastIndexedPosition := by rw [hsize, hpos, hw.length]
      rw [TransactionLogFile.indexLoop] at h
      simp only at h
      rw [if_pos hend, Except.ok.injEq, Prod.mk.injEq] at h
      rw [← h.1]
      exact hmarked
  | cons r back ih =>
    intro front f fuel hw hsize hpos hmarked h
    cases fuel with
    | zero => cases h
    | succ fuel =>
      rw [indexLoop_frame fuel hlen hlt hw hsize hpos] at h
      have happ : front ++ r :: back = (front ++ [r]) ++ back := by rw [List.append_assoc, List.singleton_append]
      rw [happ] at hw hmarked ⊢
      refine ih (front ++ [r]) (f.reindexed (indexAdd f.positionByTimestampIndex r.timestamp f.lastIndexedPosition)
        (TRANSACTION_LOG_FILE_HEADER_SIZE + (frames (front ++ [r])).length)) fuel hw hsize rfl (fun e he => ?_) h
      change e ∈ indexAdd f.positionByTimestampIndex r.timestamp f.lastIndexedPosition at he
      unfold indexAdd at he
      split at he
      · split_ifs at he
        · rcases List.mem_append.mp he with he | he
          · exact hmarked e he
          · obtain rfl := List.mem_singleton.mp he
            exact Or.inr ⟨front, by rw [List.append_assoc]; exact List.prefix_append _ _, hpos⟩
        · exact hmarked e he
      · exact hmarked e he

/-- A lookup in a file leaves it marked, and finds a mark. -/
theorem findPosition_marked {rs : List LogRecord} (hw : StampedFile bytes timestamp rs)
    (hlen : bytes.length ≤ length) (hlt : bytes.length < UINT32_RANGE) {f : TransactionLogFile}
    (hf : Indexed f bytes timestamp rs) (hm : f.Marked rs) (t : Binary64) :
    ∀ f' p, f.findPositionByTimestamp bytes t length true = (f', .position p) → f'.Marked rs ∧
      (p = 0 ∨ p = NOT_IN_FILE ∨ ∃ front, front <+: rs ∧ p = TRANSACTION_LOG_FILE_HEADER_SIZE +
        (frames front).length) := by
  intro f' p h
  obtain ⟨index, hloop, -⟩ := indexLoop_spec hw hlen hlt hf
  have hne : length ≠ 0 := by
    have := hw.length
    have h13 : TRANSACTION_LOG_FILE_HEADER_SIZE = 13 := rfl
    omega
  have hmarked : (f.reindexed index bytes.length).Marked rs := by
    rcases hf.index with ⟨-, hpos⟩ | ⟨front, back, rfl, hpos, -⟩
    · -- the first round indexes the header
      have hsize := hf.size
      have h13 : TRANSACTION_LOG_FILE_HEADER_SIZE = 13 := rfl
      have h5 : TRANSACTION_LOG_FILE_TIMESTAMP_POSITION = 5 := rfl
      have hblen := hw.length
      have hmap := mapView_length hlen
      have hts : readDoubleBE (mapView bytes length) TRANSACTION_LOG_FILE_TIMESTAMP_POSITION = timestamp := by
        rw [mapView_whole hlen]
        nth_rewrite 1 [hw.eq]
        rw [List.append_assoc]
        exact header_timestamp _ _
      rw [TransactionLogFile.indexLoop] at hloop
      simp only at hloop
      rw [hpos, if_neg (by omega), if_neg (by omega), hts, hw.header_pos.not_zero, if_neg Bool.false_ne_true,
        if_pos rfl] at hloop
      refine indexLoop_marked hlen hlt rs [] (f.reindexed [(timestamp, 0)] TRANSACTION_LOG_FILE_HEADER_SIZE) _ hw
        hsize rfl
        (fun e he => ?_) hloop
      obtain rfl := List.mem_singleton.mp he
      exact Or.inl rfl
    · exact indexLoop_marked hlen hlt back front f _ hw hf.size hpos hm hloop
  unfold TransactionLogFile.findPositionByTimestamp getMemoryMapLocked at h
  rw [if_neg hne, if_pos rfl] at h
  simp only [hloop, Bool.false_eq_true, if_false] at h
  have hfound : ∀ q,
      TransactionLogFile.lowerBound (f.reindexed index bytes.length).positionByTimestampIndex t = some q →
      q = 0 ∨ ∃ front, front <+: rs ∧ q = TRANSACTION_LOG_FILE_HEADER_SIZE + (frames front).length := by
    intro q hq
    obtain ⟨e, he, rfl⟩ := Option.map_eq_some_iff.mp hq
    exact hmarked e (List.mem_of_find?_eq_some he)
  cases hlow : TransactionLogFile.lowerBound (f.reindexed index bytes.length).positionByTimestampIndex t with
  | none =>
    simp only [hlow, Prod.mk.injEq, FindOutcome.position.injEq] at h
    exact ⟨h.1 ▸ hmarked, Or.inr (Or.inl h.2.symm)⟩
  | some q =>
    simp only [hlow, Prod.mk.injEq, FindOutcome.position.injEq] at h
    refine ⟨h.1 ▸ hmarked, ?_⟩
    rw [← h.2]
    exact (hfound q hlow).imp_right Or.inr

end Index

structure Filed (s : TransactionLogStore) (d : Disk) : Prop where
  stamped : StoreStamped s d
  current_pos : 0 < s.currentSequenceNumber
  marked : ∀ {q f}, s.sequenceFiles.get? q = some f → f.Marked (fileRecords (d.bytes q))
  file : ∀ {q}, (s.sequenceFiles.get? q).isSome → 0 < q ∧ q ≤ s.currentSequenceNumber ∧
    (q = s.currentSequenceNumber ∨ (d.logs.get? q).isSome)
  log : ∀ {q}, (d.logs.get? q).isSome → (s.sequenceFiles.get? q).isSome
  below : ∀ q, (d.bytes q).length < UINT32_RANGE
  fresh : ∀ {q}, (s.sequenceFiles.get? q).isSome → d.logs.get? q = none →
    s.latestTimestamp.IsPos ∧ ∀ r ∈ d.content, r.timestamp.key ≤ s.latestTimestamp.key

/-- What the calls of a reader do to the store and its files. -/
structure Reads (s : TransactionLogStore) (d : Disk) (s' : TransactionLogStore) (d' : Disk) : Prop where
  store : ∃ files, s' = { s with sequenceFiles := files }
  registered : ∀ q, (s'.sequenceFiles.get? q).isSome = (s.sequenceFiles.get? q).isSome
  opened : ∀ {q f'}, s'.sequenceFiles.get? q = some f' →
    ∃ f, s.sequenceFiles.get? q = some f ∧ (f.isOpen = true → f'.isOpen = true)
  kept : ∀ {q bytes}, d.logs.get? q = some bytes → d'.logs.get? q = some bytes
  lengthens : d.Lengthens d' []
  txnState : d'.txnState = d.txnState

section
variable {cfg : StoreConfig} {s s' s'' : TransactionLogStore} {d d' d'' : Disk} {seq : ℕ} {io : ReadCalls}

theorem Reads.refl (s : TransactionLogStore) (d : Disk) : Reads s d s d :=
  ⟨⟨_, rfl⟩, fun _ => rfl, fun h => ⟨_, h, id⟩, id, .refl d, rfl⟩

theorem Reads.trans (h : Reads s d s' d') (h' : Reads s' d' s'' d'') : Reads s d s'' d'' := by
  obtain ⟨files, hs⟩ := h.store
  obtain ⟨files', hs'⟩ := h'.store
  refine ⟨⟨files', by rw [hs', hs]⟩, fun q => (h'.registered q).trans (h.registered q), fun hf => ?_,
    fun hb => h'.kept (h.kept hb),
    h.lengthens.trans h'.lengthens, h'.txnState.trans h.txnState⟩
  obtain ⟨f', hf', ho'⟩ := h'.opened hf
  obtain ⟨f, hf, ho⟩ := h.opened hf'
  exact ⟨f, hf, fun h1 => ho' (ho h1)⟩

theorem Reads.current (h : Reads s d s' d') : s'.currentSequenceNumber = s.currentSequenceNumber := by
  obtain ⟨files, rfl⟩ := h.store
  rfl

theorem Reads.latest (h : Reads s d s' d') : s'.latestTimestamp = s.latestTimestamp := by
  obtain ⟨files, rfl⟩ := h.store
  rfl

theorem Reads.committed (h : Reads s d s' d') : s'.lastCommittedPosition = s.lastCommittedPosition := by
  obtain ⟨files, rfl⟩ := h.store
  rfl

theorem Reads.isSome (h : Reads s d s' d') {q : ℕ} (hq : (d.logs.get? q).isSome) : (d'.logs.get? q).isSome := by
  obtain ⟨bytes, hb⟩ := Option.isSome_iff_exists.mp hq
  rw [h.kept hb]
  rfl

theorem Reads.bytes (h : Reads s d s' d') {q : ℕ} (hq : (d.logs.get? q).isSome) : d'.bytes q = d.bytes q := by
  obtain ⟨bytes, hb⟩ := Option.isSome_iff_exists.mp hq
  rw [Disk.bytes_eq hb, Disk.bytes_eq (h.kept hb)]

theorem content_eq_shelf (d : Disk) : d.content = d.shelf.map Prod.snd := by
  rw [Disk.content, Disk.shelf, List.map_flatMap]
  refine List.flatMap_congr fun e _ => ?_
  rw [fileShelf, List.map_map]
  exact (located_map _ _).symm

theorem content_eq_recordsFrom (d : Disk) : d.content = d.recordsFrom ⟨0, 0⟩ := by
  rw [content_eq_shelf, Disk.recordsFrom, List.filter_eq_self.mpr fun x _ => decide_eq_true (LogPosition.zero_le x.1)]

theorem Reads.content (h : Reads s d s' d') : d'.content = d.content := by
  rw [content_eq_shelf, content_eq_shelf, h.lengthens.shelf, List.append_nil]

theorem Filed.opens (h : Filed s d) {io : OpenCalls} (hq : (s.sequenceFiles.get? seq).isSome) (hio : io.Succeeds) :
    OpensStamped s d seq io := ⟨hio, h.below seq, fun hnone => h.fresh hq hnone⟩

theorem Filed.open_file (h : Filed s d) {f : TransactionLogFile} (hf : s.sequenceFiles.get? seq = some f)
    (ho : f.isOpen = true) :
    (d.logs.get? seq).isSome ∧ f.size = (d.bytes seq).length := by
  obtain ⟨bytes, timestamp, rs, hb, -, hix, -⟩ := (h.stamped.file hf).opened ho
  rw [Disk.bytes_eq hb, hb]
  exact ⟨rfl, hix.size⟩

/-- The records of a file that is there begin right after its header and fill it. -/
theorem Filed.length (h : Filed s d) (hq : (d.logs.get? seq).isSome) :
    (d.bytes seq).length = TRANSACTION_LOG_FILE_HEADER_SIZE + (frames (fileRecords (d.bytes seq))).length := by
  obtain ⟨bytes, hb⟩ := Option.isSome_iff_exists.mp hq
  obtain ⟨timestamp, rs, hw⟩ := h.stamped.disk.whole hb
  rw [Disk.bytes_eq hb, hw.records]
  exact hw.length

/-- The other fields after a call that keeps the store's files right. -/
theorem Filed.reads (h : Filed s d) (hr : Reads s d s' d') (hs : StoreStamped s' d')
    (hmarked : ∀ {q f'}, s'.sequenceFiles.get? q = some f' → f'.Marked (fileRecords (d.bytes q)))
    (hlog : ∀ q, (d'.logs.get? q).isSome →
      (d.logs.get? q).isSome ∨ (s.sequenceFiles.get? q).isSome ∧ (d'.bytes q).length < UINT32_RANGE) : Filed s' d' := by
  have hbelow : ∀ q, (d'.bytes q).length < UINT32_RANGE := by
    intro q
    cases hb : d'.logs.get? q with
    | none =>
      rw [Disk.bytes_none hb]
      decide
    | some bytes =>
      rcases hlog q (by rw [hb]; rfl) with hq | hq
      · rw [hr.bytes hq]
        exact h.below q
      · exact hq.2
  refine ⟨hs, ?_, fun {q f'} hf' => ?_, fun {q} hq => ?_, fun {q} hq => ?_, hbelow, fun {q} hq hnone => ?_⟩
  · rw [hr.current]
    exact h.current_pos
  · exact (hmarked hf').mono (hr.lengthens.records q)
  · rw [hr.registered] at hq
    rw [hr.current]
    exact ⟨(h.file hq).1, (h.file hq).2.1, (h.file hq).2.2.imp_right hr.isSome⟩
  · rw [hr.registered]
    exact (hlog q hq).elim h.log And.left
  · rw [hr.registered] at hq
    rw [hr.latest, hr.content]
    refine h.fresh hq ?_
    cases hb : d.logs.get? q with
    | none => rfl
    | some bytes =>
      rw [hr.kept hb] at hnone
      cases hnone

theorem open_index (f : TransactionLogFile) (disk : Option Bytes) (timestamp : Binary64) (io : OpenCalls) :
    (f.open disk timestamp io).2.1.positionByTimestampIndex = f.positionByTimestampIndex := by
  unfold TransactionLogFile.open TransactionLogFile.openFile
  split_ifs <;> simp only [TransactionLogFile.readHeader] <;> split_ifs <;> rfl

theorem ensureOpen_index {f g : TransactionLogFile} (d : Disk) {io : OpenCalls} (hf : s.sequenceFiles.get? seq = some f)
    (hg : (s.ensureOpen d seq f io).2.1.sequenceFiles.get? seq = some g) :
    g.positionByTimestampIndex = f.positionByTimestampIndex := by
  unfold TransactionLogStore.ensureOpen at hg
  cases ho : f.isOpen with
  | true =>
    rw [if_pos ho] at hg
    rw [Option.some.inj (hf.symm.trans hg)]
  | false =>
    rw [if_neg (by rw [ho]; exact Bool.false_ne_true)] at hg
    simp only [openLogFile, setFile, SeqMap.get?_set_self] at hg
    rw [← Option.some.inj hg]
    exact open_index f _ _ io

theorem Filed.ensureOpen (h : Filed s d) {f : TransactionLogFile} {io : OpenCalls}
    (hf : s.sequenceFiles.get? seq = some f) (hio : io.Succeeds) :
    (s.ensureOpen d seq f io).1 = none ∧ Filed (s.ensureOpen d seq f io).2.1 (s.ensureOpen d seq f io).2.2 ∧
      Reads s d (s.ensureOpen d seq f io).2.1 (s.ensureOpen d seq f io).2.2 ∧
      ∃ f', (s.ensureOpen d seq f io).2.1.sequenceFiles.get? seq = some f' ∧ f'.isOpen = true := by
  have hsome : (s.sequenceFiles.get? seq).isSome := by rw [hf]; rfl
  have hopens := h.opens hsome hio
  obtain ⟨hnone, hstamped⟩ := ensureOpen_stamped h.stamped hf hopens (h.file hsome).2.2.symm
  have hgrows := ensureOpen_grows d io hf (h.stamped.numbered.opened hf)
  obtain ⟨f', hf'⟩ := Option.isSome_iff_exists.mp hgrows.file
  have ho' := ensureOpen_isOpen hf hnone hf'
  have hregistered : ∀ q, ((s.ensureOpen d seq f io).2.1.sequenceFiles.get? q).isSome =
      (s.sequenceFiles.get? q).isSome := by
    intro q
    by_cases hq : q = seq
    · rw [hq, hf', hsome]
      rfl
    · rw [hgrows.get?_ne q hq]
  -- an open that finds the file leaves it as it is, one that does not makes the current file
  have hdisk : (s.ensureOpen d seq f io).2.2.logs = d.logs ∨ seq = s.currentSequenceNumber ∧ d.logs.get? seq = none ∧
      (s.ensureOpen d seq f io).2.2 =
        { d with logs := d.logs.set seq (fileHeader s.latestTimestamp), directory := true } := by
    unfold TransactionLogStore.ensureOpen
    cases ho : f.isOpen with
    | true => exact Or.inl rfl
    | false =>
      have hfile := h.stamped.file hf
      simp only [Bool.false_eq_true, if_false, openLogFile]
      cases hb : d.logs.get? seq with
      | some bytes =>
        obtain ⟨timestamp, rs, hw⟩ := h.stamped.disk.whole hb
        have hlt := h.below seq
        rw [Disk.bytes_eq hb] at hlt
        obtain ⟨g, hopen, -⟩ := open_stamped s.latestTimestamp hw hlt hio ho (hb ▸ hfile)
        rw [hopen]
        exact Or.inl (SeqMap.set_get? hb)
      | none =>
        refine Or.inr ⟨(h.file hsome).2.2.resolve_right (by rw [hb]; exact Bool.false_ne_true), rfl, ?_⟩
        rw [show f.open none s.latestTimestamp io = _ from open_empty hio ho hfile.version rfl]
  have hreads : Reads s d (s.ensureOpen d seq f io).2.1 (s.ensureOpen d seq f io).2.2 := by
    refine ⟨hgrows.store, hregistered, fun hg => ensureOpen_files d io hf hg, fun {q bytes} hb => ?_, ?_,
      hgrows.grows.txnState⟩
    · rcases hdisk with hlogs | ⟨-, hno, hd⟩
      · rw [hlogs]
        exact hb
      · rw [hd]
        refine (SeqMap.get?_set_ne _ ?_ _).trans hb
        rintro rfl
        rw [hno] at hb
        cases hb
    · rcases hdisk with hlogs | ⟨hcur, hno, hd⟩
      · exact .of_logs hlogs
      · rw [hd]
        have hrec : fileRecords (fileHeader s.latestTimestamp) = fileRecords (d.bytes seq) ++ [] := by
          rw [Disk.bytes_none hno, (wholeFile_header s.latestTimestamp).records]
          rfl
        exact Disk.Lengthens.set true (fun q hq => hcur ▸ (h.stamped.numbered.le q (allUsed_keys d q hq)).1) hrec
  have hindex : ∀ {q g}, (s.ensureOpen d seq f io).2.1.sequenceFiles.get? q = some g →
      g.Marked (fileRecords (d.bytes q)) := by
    intro q g hg
    by_cases hq : q = seq
    · have hidx := ensureOpen_index d hf (hq ▸ hg)
      rw [TransactionLogFile.Marked, hidx, hq]
      exact h.marked hf
    · rw [hgrows.get?_ne q hq] at hg
      exact h.marked hg
  refine ⟨hnone, h.reads hreads hstamped hindex fun q hq => ?_, hreads, f', hf', ho'⟩
  rcases hdisk with hlogs | ⟨-, -, hd⟩
  · rw [hlogs] at hq
    exact Or.inl hq
  · rw [hd] at hq
    simp only [SeqMap.get?_set] at hq
    split_ifs at hq with hqs
    · refine Or.inr ⟨hqs ▸ hsome, ?_⟩
      rw [hd, hqs, Disk.bytes_set, if_pos rfl, fileHeader_length]
      decide
    · exact Or.inl hq

/-- What a reader asks of the store for a registered file: it is then there, and its size is its length. -/
theorem Filed.getLogFileSize (h : Filed s d) (hq : (s.sequenceFiles.get? seq).isSome)
    (hio : (io.openCalls seq).Succeeds) :
    ∃ s' d', s.getLogFileSize d seq io = (.ok (d'.bytes seq).length, s', d') ∧ Filed s' d' ∧ Reads s d s' d' ∧
      (d'.logs.get? seq).isSome := by
  obtain ⟨f, hf⟩ := Option.isSome_iff_exists.mp hq
  obtain ⟨hnone, hfiled, hreads, f', hf', ho⟩ := h.ensureOpen hf hio
  obtain ⟨hthere, hsize⟩ := hfiled.open_file hf' ho
  refine ⟨_, _, ?_, hfiled, hreads, hthere⟩
  unfold TransactionLogStore.getLogFileSize
  rw [hf]
  simp only [hnone, hf', Option.map_some, Option.getD_some, hsize]

theorem getLogFileSize_none (d : Disk) (io : ReadCalls) (hq : s.sequenceFiles.get? seq = none) :
    s.getLogFileSize d seq io = (.ok 0, s, d) := by
  unfold TransactionLogStore.getLogFileSize
  rw [hq]

theorem Filed.getMemoryMap (h : Filed s d) (cfg : StoreConfig) (hq : (s.sequenceFiles.get? seq).isSome)
    (hio : (io.openCalls seq).Succeeds) : ∃ s' d', s.getMemoryMap cfg d seq io =
      (.ok (getMemoryMapLocked (if s.currentSequenceNumber = seq then cfg.maxFileSize
        else (d'.bytes seq).length) (io.mmapOk seq)), s', d') ∧
      Filed s' d' ∧ Reads s d s' d' ∧ (d'.logs.get? seq).isSome := by
  obtain ⟨f, hf⟩ := Option.isSome_iff_exists.mp hq
  obtain ⟨hnone, hfiled, hreads, f', hf', ho⟩ := h.ensureOpen hf hio
  obtain ⟨hthere, hsize⟩ := hfiled.open_file hf' ho
  refine ⟨_, _, ?_, hfiled, hreads, hthere⟩
  unfold TransactionLogStore.getMemoryMap
  rw [hf]
  simp only [hnone, hf', Option.map_some, Option.getD_some, hsize]

theorem getMemoryMap_none (cfg : StoreConfig) (d : Disk) (io : ReadCalls) (hq : s.sequenceFiles.get? seq = none) :
    s.getMemoryMap cfg d seq io = (.ok none, s, d) := by
  unfold TransactionLogStore.getMemoryMap
  rw [hq]

/-- A position that the store may hand on: one where an entry ends, or a file begins, up to the current file. -/
structure Anchored (s : TransactionLogStore) (d : Disk) (p : LogPosition) : Prop where
  marks : d.Marks p
  le : p.logSequenceNumber ≤ s.currentSequenceNumber
  zero : p.logSequenceNumber = 0 → p = ⟨0, 0⟩

theorem anchored_zero (s : TransactionLogStore) (d : Disk) : Anchored s d ⟨0, 0⟩ :=
  ⟨Or.inl rfl, Nat.zero_le _, fun _ => rfl⟩

/-- The place of a file's first entry. -/
theorem anchored_header (d : Disk) (hpos : 0 < seq) (hle : seq ≤ s.currentSequenceNumber) :
    Anchored s d ⟨TRANSACTION_LOG_FILE_HEADER_SIZE, seq⟩ :=
  ⟨Or.inr ⟨[], List.nil_prefix, rfl⟩, hle, fun hz => absurd hz hpos.ne'⟩

theorem Filed.anchored_end (h : Filed s d) (hpos : 0 < seq) (hle : seq ≤ s.currentSequenceNumber)
    (hq : (d.logs.get? seq).isSome) :
    Anchored s d ⟨(d.bytes seq).length, seq⟩ :=
  ⟨Or.inr ⟨_, List.prefix_rfl, by rw [h.length hq]; rfl⟩, hle, fun hz => absurd hz hpos.ne'⟩

theorem Anchored.mono {more : List (LogPosition × LogRecord)} {p : LogPosition} (h : Anchored s d p)
    (hd : d.Lengthens d' more) (hs : s.currentSequenceNumber ≤ s'.currentSequenceNumber) : Anchored s' d' p :=
  ⟨hd.marks h.marks, h.le.trans hs, h.zero⟩

/-- The same log with another object for a file. -/
theorem Filed.reindex (h : Filed s d) {f : TransactionLogFile} {bytes : Bytes} {timestamp : Binary64}
    {rs : List LogRecord} {index : List (Binary64 × ℕ)} (hf : s.sequenceFiles.get? seq = some f)
    (hopen : f.isOpen = true) (hseq : d.logs.get? seq = some bytes) (hw : StampedFile bytes timestamp rs)
    (hsize : f.size = bytes.length) (hcov : Covers index timestamp rs)
    (hm : (f.reindexed index bytes.length).Marked rs) :
    Filed (s.setFile seq (f.reindexed index bytes.length)) d ∧
      Reads s d (s.setFile seq (f.reindexed index bytes.length)) d := by
  have hlt := h.below seq
  rw [Disk.bytes_eq hseq] at hlt
  have hget : ∀ q, (s.setFile seq (f.reindexed index bytes.length)).sequenceFiles.get? q =
      if q = seq then some (f.reindexed index bytes.length) else s.sequenceFiles.get? q :=
        fun q => SeqMap.get?_set _ _ _ _
  have hreads : Reads s d (s.setFile seq (f.reindexed index bytes.length)) d := by
    refine ⟨⟨_, rfl⟩, fun q => ?_, fun {q g} hg => ?_, id, .refl d, rfl⟩
    · rw [hget]
      split_ifs with hq
      · rw [hq, hf]
        rfl
      · rfl
    · rw [hget] at hg
      split_ifs at hg with hq
      · exact ⟨f, hq ▸ hf, fun ho => by rw [← Option.some.inj hg]; exact ho⟩
      · exact ⟨g, hg, id⟩
  refine ⟨h.reads hreads (h.stamped.reindex hf hopen hseq hw hsize hlt hcov) (fun {q g} hg => ?_)
    fun q hq => Or.inl hq, hreads⟩
  rw [hget] at hg
  split_ifs at hg with hq
  · rw [← Option.some.inj hg, hq, Disk.bytes_eq hseq, hw.records]
    exact hm
  · exact h.marked hg

/-- The walk of a lookup ends at a place in the log. -/
theorem Filed.findPositionFrom {t : Binary64} :
    ∀ (seq : ℕ) (isCurrent : Bool) (s : TransactionLogStore), Filed s d → FindOk cfg s d io →
    (isCurrent = true → seq = s.currentSequenceNumber) →
    (seq < s.currentSequenceNumber ∨ seq = s.currentSequenceNumber ∧ (s.sequenceFiles.get? seq).isSome) →
    ∀ position s', findPositionFrom cfg d t io seq isCurrent s = (.ok position, s') →
      Filed s' d ∧ Reads s d s' d ∧ Anchored s d position ∧ 0 < position.logSequenceNumber := by
  intro seq
  induction seq using Nat.strong_induction_on with
  | _ seq ih =>
    intro isCurrent s h hok hc hle position s' hr
    unfold TransactionLogStore.findPositionFrom at hr
    cases hf : s.sequenceFiles.get? seq with
    | none =>
      rw [hf] at hr hle
      have hlt := hle.resolve_right fun hn => by cases hn.2
      simp only [Prod.mk.injEq, Except.ok.injEq] at hr
      obtain ⟨rfl, rfl⟩ := hr
      exact ⟨h, .refl _ _, anchored_header d (Nat.succ_pos seq) hlt, Nat.succ_pos seq⟩
    | some f =>
      obtain ⟨hopen, hmap⟩ := hok.opened (seq, f) (SeqMap.get?_eq_some_iff.mp hf)
      obtain ⟨bytes, timestamp, rs, hseq, hw, hix, hlt⟩ := (h.stamped.file hf).opened hopen
      have hlen : bytes.length ≤ (if isCurrent then cfg.maxFileSize else f.size) := by
        rw [← hix.size]
        cases isCurrent with
        | true => exact hok.fits f (by rw [← hc rfl]; exact hf)
        | false => exact le_rfl
      have hbytes : d.bytes seq = bytes := Disk.bytes_eq hseq
      have hm : f.Marked rs := by
        rw [← hw.records, ← hbytes]
        exact h.marked hf
      obtain ⟨index, p, hfind, hcov, -⟩ := findPosition_finds hw hlen hlt hix t
      obtain ⟨hm', hp⟩ := findPosition_marked hw hlen hlt hix hm t _ _ hfind
      obtain ⟨h1, hreads⟩ := h.reindex hf hopen hseq hw hix.size hcov hm'
      have hpos := h.file (show (s.sequenceFiles.get? seq).isSome by rw [hf]; rfl)
      simp only at hopen hmap
      simp only [hf, hopen, if_true, hbytes, hmap, hfind] at hr
      split_ifs at hr with hp0 hnot hcur
      · simp only [Prod.mk.injEq, Except.ok.injEq] at hr
        obtain ⟨rfl, rfl⟩ := hr
        exact ⟨h1, hreads, anchored_header d (Nat.succ_pos seq) hcur, Nat.succ_pos seq⟩
      · simp only [Prod.mk.injEq, Except.ok.injEq] at hr
        obtain ⟨rfl, rfl⟩ := hr
        refine ⟨h1, hreads, ?_, hpos.1⟩
        change Anchored s d ⟨f.size, seq⟩
        rw [hix.size, ← hbytes]
        exact h.anchored_end hpos.1 hpos.2.1 (by rw [hseq]; rfl)
      · simp only [Prod.mk.injEq, Except.ok.injEq] at hr
        obtain ⟨rfl, rfl⟩ := hr
        obtain ⟨front, hfront, rfl⟩ := (hp.resolve_left hp0.ne').resolve_left hnot
        refine ⟨h1, hreads, ⟨Or.inr ⟨front, ?_, rfl⟩, hpos.2.1, fun hz => absurd hz hpos.1.ne'⟩, hpos.1⟩
        rw [hbytes, hw.records]
        exact hfront
      · cases seq with
        | zero => exact absurd rfl hpos.1.ne'
        | succ n =>
          have hlt' : n < s.currentSequenceNumber := hpos.2.1
          obtain ⟨h2, hreads', hanchored, hpos'⟩ :=
            ih n (Nat.lt_succ_self n) false _ h1 (hok.reindex hf index bytes.length)
            (fun hc => by cases hc) (Or.inl hlt') position s' hr
          exact ⟨h2, hreads.trans hreads', ⟨hanchored.marks, hanchored.le, hanchored.zero⟩, hpos'⟩

/-- A lookup leaves the log as it was and returns a place in it that no entry from `t` on lies before. -/
theorem Filed.findPosition {t : Binary64} (h : Filed s d) (hok : FindOk cfg s d io) :
    ∃ position s', findPositionByTimestamp cfg s d t io = (.ok position, s') ∧ Filed s' d ∧ Reads s d s' d ∧
      Anchored s d position ∧ 0 < position.logSequenceNumber ∧ ∀ q, NotSkipped d t position q := by
  obtain ⟨position, s', hr, -, hskip⟩ := findPosition_spec (t := t) h.stamped hok
  have hr' := hr
  simp only [TransactionLogStore.findPositionByTimestamp] at hr'
  have hfrom : Filed s' d ∧ Reads s d s' d ∧ Anchored s d position ∧ 0 < position.logSequenceNumber := by
    cases hf : s.sequenceFiles.get? s.currentSequenceNumber with
    | some f =>
      rw [hf] at hr'
      exact Filed.findPositionFrom _ true s h hok (fun _ => rfl) (Or.inr ⟨rfl, by rw [hf]; rfl⟩) position s' hr'
    | none =>
      rw [hf] at hr'
      have := h.current_pos
      exact Filed.findPositionFrom _ false s h hok (fun hc => by cases hc) (Or.inl (by omega)) position s' hr'
  exact ⟨position, s', hr, hfrom.1, hfrom.2.1, hfrom.2.2.1, hfrom.2.2.2, hskip⟩

end

end RocksdbJs
