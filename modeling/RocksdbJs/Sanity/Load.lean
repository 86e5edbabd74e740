import RocksdbJs.Sanity.Files

/-! `load` leaves a store that is right about its files, whatever the directory holds
and in whatever order it is listed. -/

namespace RocksdbJs

open TransactionLogStore

/-- A file as registered: nothing is known of it yet. -/
theorem setFile_empty_sizesOk {s : TransactionLogStore} {d : Disk} {seq : ℕ} {f : TransactionLogFile}
    (h : SizesOk s d) (hsize : f.size = 0) : SizesOk (s.setFile seq f) d := by
  refine ⟨?_, ?_, h.current_pos, h.current_lt⟩
  · intro q g hg
    simp only [setFile, SeqMap.get?_set] at hg
    split_ifs at hg with hq
    · obtain rfl := Option.some.inj hg
      rw [hsize]
      exact Nat.zero_le _
    · exact h.size_le hg
  · intro q g hg hc
    simp only [setFile, SeqMap.get?_set] at hg
    split_ifs at hg with hq
    · obtain rfl := Option.some.inj hg
      exact hsize
    · exact h.closed hg hc

theorem registerLogFile_sizesOk {s : TransactionLogStore} {d : Disk} (h : SizesOk s d) (seq : ℕ) {io : FilesCalls}
    (hio : (io.openCalls seq).headerWrites = (4, 1, 8)) :
    SizesOk (s.registerLogFile d seq io).1 (s.registerLogFile d seq io).2 := by
  unfold registerLogFile
  set f : TransactionLogFile := { sequenceNumber := seq, fileLastWriteTime := (io.mtime seq).getD io.now }
  have h1 : SizesOk (s.setFile seq f) d := setFile_empty_sizesOk h rfl
  have hf : (s.setFile seq f).sequenceFiles.get? seq = some f := SeqMap.get?_set_self _ _ _
  by_cases hcur : (s.setFile seq f).currentSequenceNumber ≤ seq
  · simp only [if_pos hcur]
    obtain ⟨hc, f', hf', hop⟩ := ensureOpen_change (s.setFile seq f) d hf (h1.closed hf) (h1.size_le hf) hio
    have h2 := hc.sizesOk h1 hf' hop.size_le hop.closed
    cases hr : ((s.setFile seq f).ensureOpen d seq f (io.openCalls seq)).1 with
    | some e => exact h2
    | none =>
      have hpos : 0 < seq := lt_of_lt_of_le h1.current_pos hcur
      exact ⟨h2.size_le, h2.closed, hpos, lt_of_lt_of_le (Nat.lt_succ_self seq) (le_max_right _ _)⟩
  · simp only [if_neg hcur]
    exact ⟨h1.size_le, h1.closed, h1.current_pos, lt_of_lt_of_le h1.current_lt (le_max_left _ _)⟩

/-- The files a register of `seq` can leave in the map. -/
theorem registerLogFile_get? {s : TransactionLogStore} {d : Disk} {seq : ℕ} {io : FilesCalls} {q : ℕ} (hq : q ≠ seq) :
    (s.registerLogFile d seq io).1.sequenceFiles.get? q = s.sequenceFiles.get? q := by
  have hset : ∀ f, (s.setFile seq f).sequenceFiles.get? q = s.sequenceFiles.get? q := fun f =>
    SeqMap.get?_set_ne _ hq _
  have hopen : ∀ (s' : TransactionLogStore) f o, s'.sequenceFiles.get? q = s.sequenceFiles.get? q →
      (s'.ensureOpen d seq f o).2.1.sequenceFiles.get? q = s.sequenceFiles.get? q := by
    intro s' f o hs'
    unfold ensureOpen
    split_ifs
    · exact hs'
    · exact (SeqMap.get?_set_ne _ hq _).trans hs'
  simp only [registerLogFile]
  split_ifs
  · split
    · exact hopen _ _ _ (hset _)
    · exact hopen _ _ _ (hset _)
  · exact hset _

/-- The place of the next entry after a register. -/
theorem registerLogFile_next_le {s : TransactionLogStore}
    (h : s.nextLogPosition.logSequenceNumber ≤ s.currentSequenceNumber) (d : Disk) (seq : ℕ)
    (io : FilesCalls) : (s.registerLogFile d seq io).1.nextLogPosition.logSequenceNumber ≤
      (s.registerLogFile d seq io).1.currentSequenceNumber := by
  have hopen : ∀ (s' : TransactionLogStore) f o, (s'.ensureOpen d seq f o).2.1.nextLogPosition = s'.nextLogPosition ∧
      (s'.ensureOpen d seq f o).2.1.currentSequenceNumber = s'.currentSequenceNumber := by
    intro s' f o
    unfold ensureOpen
    split_ifs <;> exact ⟨rfl, rfl⟩
  simp only [registerLogFile]
  split_ifs
  · split
    · rw [(hopen _ _ _).1, (hopen _ _ _).2]
      exact h
    · exact le_rfl
  · exact h

/-- The store during the scan: no file it has registered is one that the scan removes. -/
structure ScanOk (cfg : StoreConfig) (io : FilesCalls) (s : TransactionLogStore) (d : Disk) :
    Prop extends SizesOk s d where
  kept : ∀ {seq f}, s.sequenceFiles.get? seq = some f →
    expired cfg io seq = false ∧ (io.openCalls seq).headerWrites = (4, 1, 8)
  next_le : s.nextLogPosition.logSequenceNumber ≤ s.currentSequenceNumber

theorem loadFile_scanOk {cfg : StoreConfig} {io : FilesCalls} {sd : TransactionLogStore × Disk} {seq : ℕ}
    (hio : (io.openCalls seq).headerWrites = (4, 1, 8)) (h : ScanOk cfg io sd.1 sd.2) :
    ScanOk cfg io (loadFile cfg io sd seq).1 (loadFile cfg io sd seq).2 := by
  unfold loadFile
  split_ifs with hstat hexp hrem
  · exact h
  · refine ⟨⟨?_, h.closed, h.current_pos, h.current_lt⟩, h.kept, h.next_le⟩
    intro q f hf
    have hne : q ≠ seq := by
      rintro rfl
      rw [(h.kept hf).1] at hexp
      cases hexp
    have hbytes : ({ sd.2 with logs := sd.2.logs.erase seq } : Disk).bytes q = sd.2.bytes q := by
      simp only [Disk.bytes, SeqMap.get?_erase, if_neg hne]
    rw [hbytes]
    exact h.size_le hf
  · exact h
  · refine ⟨registerLogFile_sizesOk h.toSizesOk seq hio, ?_, registerLogFile_next_le h.next_le _ _ _⟩
    intro q f hf
    by_cases hq : q = seq
    · subst hq
      exact ⟨Bool.eq_false_iff.mpr hexp, hio⟩
    · exact h.kept ((registerLogFile_get? hq).symm.trans hf)

theorem scan_scanOk {cfg : StoreConfig} {io : FilesCalls} (order : List ℕ)
    (hio : ∀ seq ∈ order, (io.openCalls seq).headerWrites = (4, 1, 8)) (sd : TransactionLogStore × Disk)
    (h : ScanOk cfg io sd.1 sd.2) :
    ScanOk cfg io (order.foldl (loadFile cfg io) sd).1 (order.foldl (loadFile cfg io) sd).2 := by
  induction order generalizing sd with
  | nil => exact h
  | cons seq order ih =>
    apply ih
    · exact fun q hq => hio q (List.mem_cons_of_mem _ hq)
    · exact loadFile_scanOk (hio seq List.mem_cons_self) h

theorem scanOk_new (cfg : StoreConfig) (io : FilesCalls) (d : Disk) : ScanOk cfg io {} d :=
  ⟨⟨fun h => (nomatch h), fun h => (nomatch h), Nat.one_pos, Nat.lt_succ_self 1⟩, fun h => (nomatch h), Nat.zero_le _⟩

/-- A store of which only the files and the counters have been set. -/
def Scanned (s : TransactionLogStore) : Prop :=
  ∃ files current next position, s = {
    sequenceFiles := files
    currentSequenceNumber := current
    nextSequenceNumber := next
    nextLogPosition := position }

theorem ensureOpen_scanned {s : TransactionLogStore} (h : Scanned s) (d : Disk) (seq : ℕ) (f : TransactionLogFile)
    (io : OpenCalls) : Scanned (s.ensureOpen d seq f io).2.1 := by
  obtain ⟨files, current, next, position, rfl⟩ := h
  unfold ensureOpen
  split_ifs
  · exact ⟨files, current, next, position, rfl⟩
  · exact ⟨_, current, next, position, rfl⟩

theorem registerLogFile_scanned {s : TransactionLogStore} (h : Scanned s) (d : Disk) (seq : ℕ) (io : FilesCalls) :
    Scanned (s.registerLogFile d seq io).1 := by
  have hset : ∀ f, Scanned (s.setFile seq f) := by
    obtain ⟨files, current, next, position, rfl⟩ := h
    exact fun f => ⟨_, current, next, position, rfl⟩
  have hopen := fun f => ensureOpen_scanned (hset f) d seq f (io.openCalls seq)
  simp only [registerLogFile]
  split_ifs
  · split
    · exact hopen _
    · obtain ⟨files, current, next, position, hs⟩ := hopen
        { sequenceNumber := seq, fileLastWriteTime := (io.mtime seq).getD io.now }
      rw [hs]
      exact ⟨files, seq, _, _, rfl⟩
  · obtain ⟨files, current, next, position, hs⟩ := hset
      { sequenceNumber := seq, fileLastWriteTime := (io.mtime seq).getD io.now }
    rw [hs]
    exact ⟨files, current, _, position, rfl⟩

theorem scan_scanned (cfg : StoreConfig) (io : FilesCalls) (order : List ℕ) (sd : TransactionLogStore × Disk)
    (h : Scanned sd.1) : Scanned (order.foldl (loadFile cfg io) sd).1 := by
  induction order generalizing sd with
  | nil => exact h
  | cons seq order ih =>
    apply ih
    unfold loadFile
    split_ifs
    · exact h
    · exact h
    · exact h
    · exact registerLogFile_scanned h _ _ _

/-- Recovery does nothing, or cuts the file where the scan says. -/
theorem recoverTail_cases (f : TransactionLogFile) (bytes : Bytes) (io : TransactionLogFile.RecoverCalls) :
    f.recoverTail bytes io = (f, bytes) ∨ ∃ e, e < f.size ∧
      scanTransactionLogForRecovery (bytes.take f.size) f.size = ⟨.truncateTail, e⟩ ∧
      f.recoverTail bytes io = ({ f with size := e }, bytes.take e) := by
  simp only [TransactionLogFile.recoverTail]
  by_cases h1 : f.version ≠ 1
  · exact Or.inl (if_pos h1)
  by_cases h2 : f.size ≤ TRANSACTION_LOG_FILE_HEADER_SIZE
  · exact Or.inl ((if_neg h1).trans (if_pos h2))
  by_cases h3 : !io.readable ∨ (bytes.take f.size).length ≠ f.size
  · exact Or.inl ((if_neg h1).trans ((if_neg h2).trans (if_pos h3)))
  simp only [if_neg h1, if_neg h2, if_neg h3]
  cases hk : (scanTransactionLogForRecovery (bytes.take f.size) f.size).kind with
  | clean => exact Or.inl rfl
  | midFileCorruption => exact Or.inl rfl
  | truncateTail =>
    simp only
    split_ifs with hend ht
    · exact Or.inl rfl
    · exact Or.inr ⟨_, not_le.mp hend, by rw [← hk], rfl⟩
    · exact Or.inl rfl

/-- Recovery leaves the object right about the size. -/
theorem recoverTail_size {f : TransactionLogFile} {bytes : Bytes} (io : TransactionLogFile.RecoverCalls)
    (hle : f.size ≤ bytes.length) :
    (f.recoverTail bytes io).1.size ≤ (f.recoverTail bytes io).2.length ∧
      (f.recoverTail bytes io).1.isOpen = f.isOpen := by
  rcases recoverTail_cases f bytes io with hr | ⟨e, he, -, hr⟩
  · rw [hr]
    exact ⟨hle, rfl⟩
  · rw [hr, List.length_take]
    exact ⟨le_min le_rfl (he.le.trans hle), rfl⟩

/-- The store that `load` returns: right about its files, with nothing committed yet and
the place of the next entry its only registered position. -/
structure Loaded (s : TransactionLogStore) (d : Disk) : Prop extends FilesOk s d where
  committed : s.lastCommittedPosition = ⟨0, 0⟩
  samples : s.recentlyCommittedSequencePositions = List.replicate RECENTLY_COMMITTED_POSITIONS_SIZE ⟨NO_SEQUENCE,
    ⟨0, 0⟩⟩
  positions : ∀ p, p ∈ s.uncommittedTransactionPositions ↔ p = s.nextLogPosition
  next_le : s.nextLogPosition.logSequenceNumber ≤ s.currentSequenceNumber

theorem load_loaded {cfg : StoreConfig} {d d' : Disk} {order : List ℕ} {io : FilesCalls} {s : TransactionLogStore}
    (hio : ∀ seq ∈ order, (io.openCalls seq).headerWrites = (4, 1, 8)) (h : load cfg d order io = (some s, d')) :
    Loaded s d' := by
  have hscan := scan_scanOk order hio ({}, d) (scanOk_new cfg io d)
  have hshape := scan_scanned cfg io order ({}, d) ⟨_, _, _, _, rfl⟩
  unfold load at h
  generalize order.foldl (loadFile cfg io) ({}, d) = sd at hscan hshape h
  obtain ⟨s1, d1⟩ := sd
  obtain ⟨files, current, next, position, hs1⟩ := hshape
  simp only at h hs1
  cases hf : s1.sequenceFiles.get? s1.currentSequenceNumber with
  | none =>
    simp only [hf, Prod.mk.injEq, Option.some.injEq] at h
    obtain ⟨rfl, rfl⟩ := h
    refine ⟨⟨⟨hscan.size_le, hscan.closed, hscan.current_pos, hscan.current_lt⟩, fun _ => hf⟩, ?_,
      ?_, ?_, hscan.next_le⟩
    all_goals subst hs1
    · rfl
    · rfl
    · intro p
      simp [positionInsert]
  | some f =>
    simp only [hf] at h
    obtain ⟨hc, f', hf', hop⟩ := ensureOpen_change s1 d1 hf (hscan.closed hf) (hscan.size_le hf)
      (hscan.kept hf).2
    have hopened : (s1.ensureOpen d1 s1.currentSequenceNumber f (io.openCalls s1.currentSequenceNumber)).1 = none →
        f'.isOpen = true := fun hnone => ensureOpen_isOpen hf hnone hf'
    generalize s1.ensureOpen d1 s1.currentSequenceNumber f (io.openCalls s1.currentSequenceNumber) =
      r at hc hf' hop hopened h
    obtain ⟨threw, s2, d2⟩ := r
    cases threw with
    | some e => simp at h
    | none =>
      simp only [hf', Option.getD_some, Prod.mk.injEq, Option.some.injEq] at h
      obtain ⟨rfl, rfl⟩ := h
      have hrec := recoverTail_size io.recover hop.size_le
      generalize f'.recoverTail (d2.bytes s1.currentSequenceNumber) io.recover = rt at hrec
      obtain ⟨g, bytes⟩ := rt
      -- the recovered file and its bytes, as one more change of the current file
      have hsizes := hc.sizesOk hscan.toSizesOk hf' hop.size_le hop.closed
      have hpos : 0 < s1.currentSequenceNumber := hscan.current_pos
      obtain ⟨files', hs2⟩ := hc.store
      subst hs1 hs2
      refine ⟨⟨⟨?_, ?_, hpos, hscan.current_lt⟩, fun hz => absurd hz hpos.ne'⟩, rfl, rfl, ?_, le_rfl⟩
      · intro q k hk
        rw [Disk.bytes_set]
        simp only [positionInsert, setFile, SeqMap.get?_set] at hk
        split_ifs at hk ⊢ with hq
        · obtain rfl := Option.some.inj hk
          exact hrec.1
        · exact hsizes.size_le hk
      · intro q k hk hclosed
        simp only [positionInsert, setFile, SeqMap.get?_set] at hk
        split_ifs at hk with hq
        · obtain rfl := Option.some.inj hk
          rw [hrec.2, hopened rfl] at hclosed
          cases hclosed
        · exact hsizes.closed hk hclosed
      · intro p
        simp [positionInsert, setFile]

end RocksdbJs
