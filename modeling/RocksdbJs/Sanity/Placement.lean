import RocksdbJs.Sanity.Backup
import RocksdbJs.Sanity.Walkers
import RocksdbJs.Sanity.Batch
import RocksdbJs.Sanity.Writer

/-! Where log positions lie. Of a store that no purge touches: an open file stays open and only
grows, and the only file that is opened next is the current one. So a position in an open file
stays in one, and a position before all open files stays before them. `writeBatch` hands out no
other positions, unless it ends by rotating to the next file: then the place of the next entry
has the number of the new file and the size of the old one. -/

namespace RocksdbJs

open TransactionLogStore
open TransactionLogFile (WriteEntriesResult)

/-- A header and whole entries. -/
def Framed (bytes : Bytes) : Prop :=
  TRANSACTION_LOG_FILE_HEADER_SIZE + (frames (fileRecords bytes)).length = bytes.length

instance (bytes : Bytes) : Decidable (Framed bytes) := inferInstanceAs (Decidable (_ = _))

section Framed
variable {bytes : Bytes}

theorem framed_of {header : Bytes} {rs : List LogRecord} (hlen : header.length = TRANSACTION_LOG_FILE_HEADER_SIZE)
    (hfits : ∀ r ∈ rs, r.Fits) : Framed (header ++ frames rs) := by
  have hrecords : fileRecords (header ++ frames rs) = rs := by
    rw [fileRecords, ← hlen, List.drop_left]
    refine decodeFrames_frames hfits _ ?_
    rw [List.length_append]
    exact (frames_length_ge rs).trans (Nat.le_add_left _ _)
  rw [Framed, hrecords, List.length_append, hlen]

/-- What is decoded is what is there. -/
theorem frames_decodeFrames (n : ℕ) (bytes : Bytes) :
    frames (decodeFrames n bytes) <+: bytes ∧ ∀ r ∈ decodeFrames n bytes, r.Fits := by
  induction n generalizing bytes with
  | zero => exact ⟨List.nil_prefix, fun r hr => (by cases hr)⟩
  | succ n ih =>
    unfold decodeFrames
    by_cases h13 : bytes.length < TRANSACTION_LOG_ENTRY_HEADER_SIZE
    · rw [if_pos h13]
      exact ⟨List.nil_prefix, fun r hr => (by cases hr)⟩
    rw [if_neg h13]
    dsimp only
    by_cases hfit : bytes.length < TRANSACTION_LOG_ENTRY_HEADER_SIZE + readUint32BE bytes 8
    · rw [if_pos hfit]
      exact ⟨List.nil_prefix, fun r hr => (by cases hr)⟩
    rw [if_neg hfit]
    have hrest := ih (bytes.drop (TRANSACTION_LOG_ENTRY_HEADER_SIZE + readUint32BE bytes 8))
    have hfirst : bytes = (recordAt bytes 0).frame ++
        bytes.drop (TRANSACTION_LOG_ENTRY_HEADER_SIZE + readUint32BE bytes 8) := by
      have hdrop : bytes.drop 0 = _ := drop_recordAt (by rw [Nat.zero_add]; exact not_lt.mp hfit)
      rwa [List.drop_zero, Nat.zero_add] at hdrop
    have hrecord : recordAt bytes 0 = ⟨readDoubleBE bytes 0, readUint8 bytes 12,
        (bytes.drop TRANSACTION_LOG_ENTRY_HEADER_SIZE).take (readUint32BE bytes 8)⟩ := by
      simp only [recordAt, Nat.zero_add]
    rw [hrecord] at hfirst
    refine ⟨?_, fun r hr => ?_⟩
    · obtain ⟨tail, htail⟩ := hrest.1
      refine ⟨tail, ?_⟩
      rw [frames_cons, List.append_assoc, htail]
      exact hfirst.symm
    · rcases List.mem_cons.mp hr with rfl | hr
      · change (List.take _ _).length < UINT32_RANGE
        rw [List.length_take]
        exact (min_le_left _ _).trans_lt (readUint32BE_lt _ _)
      · exact hrest.2 r hr

theorem Framed.exists_frames (h : Framed bytes) :
    ∃ header rs, bytes = header ++ frames rs ∧ header.length = TRANSACTION_LOG_FILE_HEADER_SIZE ∧ ∀ r ∈ rs, r.Fits := by
  have hlen : TRANSACTION_LOG_FILE_HEADER_SIZE ≤ bytes.length := by rw [← h]; exact Nat.le_add_right _ _
  obtain ⟨hpre, hfits⟩ := frames_decodeFrames bytes.length (bytes.drop TRANSACTION_LOG_FILE_HEADER_SIZE)
  have hall : frames (fileRecords bytes) = bytes.drop TRANSACTION_LOG_FILE_HEADER_SIZE := by
    refine hpre.eq_of_length ?_
    rw [List.length_drop]
    exact Nat.eq_sub_of_add_eq' h
  refine ⟨bytes.take TRANSACTION_LOG_FILE_HEADER_SIZE, fileRecords bytes, ?_, ?_, hfits⟩
  · rw [hall, List.take_append_drop]
  · rw [List.length_take, min_eq_left hlen]

theorem Framed.append {rs : List LogRecord} (h : Framed bytes) (hfits : ∀ r ∈ rs, r.Fits) :
    Framed (bytes ++ frames rs) := by
  obtain ⟨header, rs0, rfl, hlen, hfits0⟩ := h.exists_frames
  rw [List.append_assoc, ← frames_append]
  refine framed_of hlen fun r hr => ?_
  rcases List.mem_append.mp hr with hr | hr
  · exact hfits0 r hr
  · exact hfits r hr

theorem Framed.pos (h : Framed bytes) : 0 < bytes.length := by
  rw [← h]
  exact Nat.lt_of_lt_of_le (by decide) (Nat.le_add_right _ _)

/-- The first `n` bytes of the file are a header and whole entries. -/
def EntryBoundary (bytes : Bytes) (n : ℕ) : Prop := n ≤ bytes.length ∧ Framed (bytes.take n)

instance (bytes : Bytes) (n : ℕ) : Decidable (EntryBoundary bytes n) := inferInstanceAs (Decidable (_ ∧ _))

theorem EntryBoundary.append {n : ℕ} (h : EntryBoundary bytes n) (more : Bytes) : EntryBoundary (bytes ++ more) n := by
  refine ⟨by rw [List.length_append]; exact h.1.trans (Nat.le_add_right _ _), ?_⟩
  rw [List.take_append_of_le_length h.1]
  exact h.2

/-- A file that is opened is a new one, or is left as it is. -/
theorem open_framed {f : TransactionLogFile} {disk : Option Bytes} (timestamp : Binary64) {io : OpenCalls}
    (hclosed : f.isOpen = false) (hio : io.Exact) (hlen : (disk.getD []).length < UINT32_RANGE)
    (h : disk.getD [] = [] ∨ Framed (disk.getD [])) (hopen : (f.open disk timestamp io).2.1.isOpen = true) :
    Framed ((f.open disk timestamp io).2.2.getD []) := by
  unfold TransactionLogFile.open TransactionLogFile.openFile at hopen ⊢
  cases ho : io.opened with
  | false =>
    simp only [hclosed, ho, Bool.false_eq_true, if_false, Bool.not_false, if_true] at hopen
  | true =>
    simp only [hclosed, hio.1, Bool.false_eq_true, if_false, Bool.not_true, Option.getD_some]
    unfold TransactionLogFile.readHeader
    dsimp only
    rw [Nat.mod_eq_of_lt hlen]
    by_cases h0 : (disk.getD []).length = 0
    · rw [if_pos h0, List.length_eq_zero_iff.mp h0, List.nil_append, hio.2]
      have hnew : Framed (TransactionLogFile.headerBytes f.version timestamp (4, 1, 8) ++ frames []) :=
        framed_of (headerBytes_length f.version timestamp) fun r hr => (nomatch hr)
      rwa [frames_nil, List.append_nil] at hnew
    · have hframed : Framed (disk.getD []) := h.resolve_left fun he => h0 (by rw [he]; rfl)
      rw [if_neg h0]
      split_ifs
      all_goals exact hframed

end Framed

/-- The file `q` is open. -/
def TransactionLogStore.Opens (s : TransactionLogStore) (q : ℕ) : Prop := ∃ f ∈ s.sequenceFiles.get? q, f.isOpen = true

/-- The position is in an open file, not past its end. -/
def InFile (s : TransactionLogStore) (p : LogPosition) : Prop :=
  ∃ f ∈ s.sequenceFiles.get? p.logSequenceNumber, f.isOpen = true ∧ p.positionInLogFile ≤ f.size

/-- The number is below those of the open files, and of all that will be. -/
def Below (s : TransactionLogStore) (n : ℕ) : Prop :=
  n < s.currentSequenceNumber ∧ ∀ e ∈ s.sequenceFiles.entries, e.2.isOpen = true → n < e.1

def Placed (s : TransactionLogStore) (p : LogPosition) : Prop := InFile s p ∨ Below s p.logSequenceNumber

instance (s : TransactionLogStore) (p : LogPosition) : Decidable (Placed s p) :=
  inferInstanceAs (Decidable ((∃ f ∈ _, _) ∨ _ ∧ ∀ e ∈ _, _))

/-- The store some steps later, with no purge in between. -/
structure Later (s s' : TransactionLogStore) : Prop where
  current_le : s.currentSequenceNumber ≤ s'.currentSequenceNumber
  opened : ∀ {q f}, s.sequenceFiles.get? q = some f → f.isOpen = true → ∃ f', s'.sequenceFiles.get? q = some f' ∧
    f'.isOpen = true ∧ f.size ≤ f'.size
  fresh : ∀ {q f'}, s'.sequenceFiles.get? q = some f' → f'.isOpen = true → s.Opens q ∨ s.currentSequenceNumber ≤ q

section Later
variable {s s' : TransactionLogStore} {p : LogPosition} {n : ℕ}

theorem Later.of_files (hfiles : s'.sequenceFiles = s.sequenceFiles)
    (hle : s.currentSequenceNumber ≤ s'.currentSequenceNumber) : Later s s' := by
  refine ⟨hle, fun {q f} hf ho => ⟨f, ?_, ho, le_rfl⟩, fun {q f'} hf' ho => Or.inl ⟨f', ?_, ho⟩⟩
  · rw [hfiles]
    exact hf
  · rw [hfiles] at hf'
    exact hf'

theorem InFile.later (hp : InFile s p) (h : Later s s') : InFile s' p := by
  obtain ⟨f, hf, ho, hle⟩ := hp
  obtain ⟨f', hf', ho', hgrow⟩ := h.opened hf ho
  exact ⟨f', hf', ho', hle.trans hgrow⟩

theorem Below.opens {q : ℕ} (hn : Below s n) (h : s.Opens q) : n < q := by
  obtain ⟨f, hf, ho⟩ := h
  exact hn.2 (q, f) (SeqMap.get?_eq_some_iff.mp hf) ho

theorem Below.later (hn : Below s n) (h : Later s s') : Below s' n := by
  refine ⟨hn.1.trans_le h.current_le, fun e he ho => ?_⟩
  rcases h.fresh (SeqMap.get?_eq_some_iff.mpr he) ho with hold | hnew
  · exact hn.opens hold
  · exact hn.1.trans_le hnew

theorem Placed.later (hp : Placed s p) (h : Later s s') : Placed s' p := by
  rcases hp with hin | hbelow
  · exact Or.inl (hin.later h)
  · exact Or.inr (hbelow.later h)

end Later

/-- The open files are whole, numbers are given out in order, and none of them is 0. -/
structure FilesPlaced (s : TransactionLogStore) (d : Disk) : Prop where
  framed : ∀ {q f}, s.sequenceFiles.get? q = some f → f.isOpen = true → Framed (d.bytes q)
  registered : ∀ {q}, (s.sequenceFiles.get? q).isSome → q < s.nextSequenceNumber
  current_lt : s.currentSequenceNumber < s.nextSequenceNumber
  zero : Below s 0

/-- What the place of the next entry is at each place of the writer. -/
def Writer.NextAt (s : TransactionLogStore) (wr : Writer) : Prop :=
  match wr.pc with
  | .getFile => Placed s s.nextLogPosition ∨ s.sequenceFiles.get? s.currentSequenceNumber = none
  | .tryOpen seq => seq = s.currentSequenceNumber ∧ (Placed s s.nextLogPosition ∨ s.nextLogPosition = ⟨0, seq⟩)
  | .rotateInner => True
  | .fixPosition seq => seq = s.currentSequenceNumber ∧ Placed s s.nextLogPosition
  | .checkAge seq => seq = s.currentSequenceNumber ∧ Placed s s.nextLogPosition
  | .write seq => seq = s.currentSequenceNumber ∧ Placed s s.nextLogPosition
  | .advance seq _ => seq = s.currentSequenceNumber ∧ Placed s s.nextLogPosition ∧ s.Opens seq
  | .setNext seq => (seq = s.currentSequenceNumber ∧ s.Opens seq) ∨
      (wr.batch.isComplete = false ∧ s.sequenceFiles.get? s.currentSequenceNumber = none)
  | _ => Placed s s.nextLogPosition

/-- The calls of a step leave sizes exact, what is opened is whole, and a batch does not end by
a rotation. -/
def WriterCalls.Placing (cfg : StoreConfig) (w : World) (wr : Writer) (io : WriterCalls) : Prop :=
  io.Exact cfg w wr ∧
    match wr.pc with
    | .tryOpen seq =>
      ∀ f ∈ w.store.sequenceFiles.get? seq, f.isOpen = false → w.disk.bytes seq = [] ∨ Framed (w.disk.bytes seq)
    | .advance seq sizeBefore => wr.batch.isComplete = true → ∀ f ∈ w.store.sequenceFiles.get? seq,
        f.size ≠ sizeBefore ∧ (0 < cfg.maxFileSize → f.size < cfg.maxFileSize)
    | _ => True

instance (cfg : StoreConfig) (w : World) (io : WriterCalls) : ∀ wr, Decidable (io.Placing cfg w wr)
  | ⟨.tryOpen seq, batch, pos⟩ => inferInstanceAs (Decidable (io.Exact cfg w ⟨.tryOpen seq, batch, pos⟩ ∧
      ∀ f ∈ w.store.sequenceFiles.get? seq, f.isOpen = false → w.disk.bytes seq = [] ∨ Framed (w.disk.bytes seq)))
  | ⟨.advance seq sizeBefore, batch, pos⟩ =>
    inferInstanceAs (Decidable (io.Exact cfg w ⟨.advance seq sizeBefore, batch, pos⟩ ∧
      (batch.isComplete = true → ∀ f ∈ w.store.sequenceFiles.get? seq,
        f.size ≠ sizeBefore ∧ (0 < cfg.maxFileSize → f.size < cfg.maxFileSize))))
  | ⟨.getFile, batch, pos⟩ => inferInstanceAs (Decidable (io.Exact cfg w ⟨.getFile, batch, pos⟩ ∧ True))
  | ⟨.rotateInner, batch, pos⟩ => inferInstanceAs (Decidable (io.Exact cfg w ⟨.rotateInner, batch, pos⟩ ∧ True))
  | ⟨.fixPosition seq, batch, pos⟩ => inferInstanceAs (Decidable (io.Exact cfg w ⟨.fixPosition seq, batch, pos⟩ ∧ True))
  | ⟨.checkAge seq, batch, pos⟩ => inferInstanceAs (Decidable (io.Exact cfg w ⟨.checkAge seq, batch, pos⟩ ∧ True))
  | ⟨.write seq, batch, pos⟩ => inferInstanceAs (Decidable (io.Exact cfg w ⟨.write seq, batch, pos⟩ ∧ True))
  | ⟨.setNext seq, batch, pos⟩ => inferInstanceAs (Decidable (io.Exact cfg w ⟨.setNext seq, batch, pos⟩ ∧ True))
  | ⟨.finish, batch, pos⟩ => inferInstanceAs (Decidable (io.Exact cfg w ⟨.finish, batch, pos⟩ ∧ True))
  | ⟨.returned, batch, pos⟩ => inferInstanceAs (Decidable (io.Exact cfg w ⟨.returned, batch, pos⟩ ∧ True))
  | ⟨.threw e, batch, pos⟩ => inferInstanceAs (Decidable (io.Exact cfg w ⟨.threw e, batch, pos⟩ ∧ True))

/-- What a step of the writer does, from a state as described. -/
structure PlacedStep (w w' : World) (wr' : Writer) : Prop where
  writer : w'.writer = some wr'
  files : FilesPlaced w'.store w'.disk
  later : Later w.store w'.store
  samples : w'.store.recentlyCommittedSequencePositions = w.store.recentlyCommittedSequencePositions
  positions : ∀ p ∈ w'.store.uncommittedTransactionPositions, p ∈ w.store.uncommittedTransactionPositions ∨
    Placed w'.store p
  next : wr'.NextAt w'.store
  mem : wr'.busy = true → wr'.logPosition ∈ w'.store.uncommittedTransactionPositions

section Writer
variable {cfg : StoreConfig} {w w' : World} {wr : Writer} {io : WriterCalls}

theorem FilesPlaced.advance {s : TransactionLogStore} {d : Disk} (h : FilesPlaced s d) :
    FilesPlaced s.advanceSequence d :=
  ⟨h.framed, fun hq => (h.registered hq).trans (Nat.lt_succ_self _), Nat.lt_succ_self _,
    h.zero.1.trans h.current_lt, h.zero.2⟩

theorem FilesPlaced.unregistered {s : TransactionLogStore} {d : Disk} (h : FilesPlaced s d) :
    s.advanceSequence.sequenceFiles.get? s.advanceSequence.currentSequenceNumber = none := by
  change s.sequenceFiles.get? s.nextSequenceNumber = none
  rw [← Option.not_isSome_iff_eq_none]
  exact fun hq => lt_irrefl _ (h.registered hq)

/-- An open file is on disk. -/
theorem FilesPlaced.onDisk {s : TransactionLogStore} {d : Disk} {q : ℕ} (h : FilesPlaced s d)
    (hq : s.Opens q) : ∃ bytes, d.logs.get? q = some bytes := by
  obtain ⟨f, hf, ho⟩ := hq
  have hpos := (h.framed hf ho).pos
  cases hb : d.logs.get? q with
  | some bytes => exact ⟨bytes, rfl⟩
  | none =>
    rw [Disk.bytes, hb] at hpos
    exact absurd hpos (lt_irrefl 0)

theorem later_advance {s : TransactionLogStore} {d : Disk} (h : FilesPlaced s d) : Later s s.advanceSequence :=
  Later.of_files rfl h.current_lt.le

theorem PlacedStep.next_of_idle {wr' : Writer} (h : PlacedStep w w' wr') (hidle : wr'.busy = false) :
    Placed w'.store w'.store.nextLogPosition := by
  have hnext := h.next
  obtain ⟨pc, batch, pos⟩ := wr'
  cases pc with
  | returned | threw e => exact hnext
  | _ => cases hidle

theorem outerLoop_nextAt {s : TransactionLogStore} (b : TransactionLogEntryBatch) (p : LogPosition)
    (h : Placed s s.nextLogPosition) :
    Writer.NextAt s ⟨outerLoop b, b, p⟩ := by
  unfold Writer.NextAt outerLoop
  split_ifs
  · exact h
  · exact Or.inl h

theorem getLogFile_placed {s : TransactionLogStore} {d : Disk} (h : FilesPlaced s d) (now : ℤ) :
    FilesPlaced (s.getLogFile d s.currentSequenceNumber now).1 (s.getLogFile d s.currentSequenceNumber now).2 ∧
      Later s (s.getLogFile d s.currentSequenceNumber now).1 := by
  unfold getLogFile
  cases hf : s.sequenceFiles.get? s.currentSequenceNumber with
  | some f => exact ⟨h, Later.of_files rfl le_rfl⟩
  | none =>
    -- the new object is closed, so the open files are those there were
    have hold : ∀ {q g} {v : TransactionLogFile}, v.isOpen = false →
      (s.sequenceFiles.set s.currentSequenceNumber v).get? q = some g →
        g.isOpen = true → s.sequenceFiles.get? q = some g := by
      intro q g v hv hg ho
      rw [SeqMap.get?_set] at hg
      split_ifs at hg
      · obtain rfl := Option.some.inj hg
        exact absurd (hv.symm.trans ho) Bool.false_ne_true
      · exact hg
    refine ⟨⟨fun hg ho => h.framed (hold rfl hg ho) ho, fun {q} hq => ?_, h.current_lt, h.zero.1, fun e he ho => ?_⟩,
      ⟨le_rfl, fun {q f} hg ho => ⟨f, ?_, ho, le_rfl⟩, fun hg ho => Or.inl ⟨_, hold rfl hg ho, ho⟩⟩⟩
    · simp only [SeqMap.get?_set] at hq
      split_ifs at hq with hc
      · rw [hc]
        exact h.current_lt
      · exact h.registered hq
    · have hg := hold rfl (SeqMap.get?_eq_some_iff.mpr he) ho
      exact h.zero.2 e (SeqMap.get?_eq_some_iff.mp hg) ho
    · have hne : q ≠ s.currentSequenceNumber := by
        rintro rfl
        rw [hf] at hg
        cases hg
      exact (SeqMap.get?_set_ne _ hne _).trans hg

/-- A change of the current file that keeps it whole. -/
theorem FileChange.placed {s s' : TransactionLogStore} {d d' : Disk} {f f' : TransactionLogFile} {seq : ℕ}
    (hc : FileChange s d seq s' d') (h : FilesPlaced s d) (hseq : seq = s.currentSequenceNumber)
    (hf : s.sequenceFiles.get? seq = some f) (hf' : s'.sequenceFiles.get? seq = some f')
    (hgrow : f.isOpen = true → f'.isOpen = true ∧ f.size ≤ f'.size)
    (hwhole : f'.isOpen = true → Framed (d'.bytes seq)) : FilesPlaced s' d' ∧ Later s s' := by
  obtain ⟨files, rfl⟩ := hc.store
  have hlater : Later s { s with sequenceFiles := files } := by
    refine ⟨le_rfl, fun {q g} hg ho => ?_, fun {q g} hg ho => ?_⟩
    · by_cases hq : q = seq
      · subst hq
        obtain rfl : f = g := Option.some.inj (hf.symm.trans hg)
        exact ⟨f', hf', hgrow ho⟩
      · exact ⟨g, (hc.get?_ne q hq).trans hg, ho, le_rfl⟩
    · by_cases hq : q = seq
      · exact Or.inr (hq.trans hseq).ge
      · exact Or.inl ⟨g, (hc.get?_ne q hq).symm.trans hg, ho⟩
  refine ⟨⟨fun {q g} hg ho => ?_, fun {q} hq => ?_, h.current_lt, h.zero.later hlater⟩, hlater⟩
  · by_cases hq : q = seq
    · subst hq
      obtain rfl : f' = g := Option.some.inj (hf'.symm.trans hg)
      exact hwhole ho
    · rw [hc.bytes_ne q hq]
      exact h.framed ((hc.get?_ne q hq).symm.trans hg) ho
  · by_cases hs : q = seq
    · rw [hs, hseq]
      exact h.current_lt
    · rw [hc.get?_ne q hs] at hq
      exact h.registered hq

theorem ensureOpen_framed {s : TransactionLogStore} {d : Disk} {seq : ℕ} {f f' : TransactionLogFile}
    {io : OpenCalls} (h : FilesPlaced s d) (hf : s.sequenceFiles.get? seq = some f) (hio : io.Exact)
    (hlen : (d.bytes seq).length < UINT32_RANGE)
    (hwhole : f.isOpen = false → d.bytes seq = [] ∨ Framed (d.bytes seq))
    (hf' : (s.ensureOpen d seq f io).2.1.sequenceFiles.get? seq = some f') (hopen : f'.isOpen = true) :
    Framed ((s.ensureOpen d seq f io).2.2.bytes seq) := by
  unfold ensureOpen at hf' ⊢
  cases ho : f.isOpen with
  | true =>
    rw [if_pos rfl]
    exact h.framed hf ho
  | false =>
    rw [ho, if_neg Bool.false_ne_true] at hf'
    rw [if_neg Bool.false_ne_true]
    obtain rfl := Option.some.inj ((SeqMap.get?_set_self _ _ _).symm.trans hf')
    have hframed := open_framed s.latestTimestamp ho hio hlen (hwhole ho) hopen
    simp only [openLogFile]
    cases hr : (f.open (d.logs.get? seq) s.latestTimestamp io).2.2 with
    | some bytes =>
      rw [hr] at hframed
      rw [Disk.bytes_set, if_pos rfl]
      exact hframed
    | none =>
      rw [hr] at hframed
      cases hframed

theorem ensureOpen_placed {s : TransactionLogStore} {d : Disk} {seq : ℕ} {f : TransactionLogFile}
    {io : OpenCalls} (h : FilesPlaced s d) (hs : SizesExact s d) (hf : s.sequenceFiles.get? seq = some f)
    (hseq : seq = s.currentSequenceNumber) (hio : io.Exact) (hlen : (d.bytes seq).length < UINT32_RANGE)
    (hwhole : f.isOpen = false → d.bytes seq = [] ∨ Framed (d.bytes seq)) :
    FilesPlaced (s.ensureOpen d seq f io).2.1 (s.ensureOpen d seq f io).2.2 ∧
      Later s (s.ensureOpen d seq f io).2.1 := by
  obtain ⟨hc, f', hf', hopened⟩ := ensureOpen_change s d hf (hs hf).closed (hs hf).size_le hio.2
  refine hc.placed h hseq hf hf' (fun ho => ?_) (ensureOpen_framed h hf hio hlen hwhole hf')
  obtain ⟨g, hg, hstays⟩ := ensureOpen_files d io hf hf'
  obtain rfl : f = g := Option.some.inj (hf.symm.trans hg)
  exact ⟨hstays ho, hopened.size_mono⟩

/-- An append that goes through leaves whole entries. -/
theorem writeEntries_framed {f : TransactionLogFile} {bytes : Bytes} {batch : TransactionLogEntryBatch}
    {maxFileSize : ℕ} {results : List WritevResult} (h : Framed bytes)
    (hreturns : (f.writeEntries bytes batch maxFileSize results).outcome ≠ .blocked)
    (hok : failsEarly results (toWrite f batch maxFileSize) = false) :
    Framed (f.writeEntries bytes batch maxFileSize results).bytes := by
  rcases writeEntries_cases f bytes batch maxFileSize results hreturns with ⟨-, hr⟩ | ⟨-, -, hr⟩ | ⟨-, -,
    hf, -⟩ | ⟨-, -, -, hr⟩
  · rw [hr]
    exact h
  · rw [hr]
    exact h
  · exact absurd (hok.symm.trans hf) Bool.false_ne_true
  · rw [hr]
    exact h.append fun r hr' => records_fit batch r (List.mem_of_mem_drop (List.mem_of_mem_take hr'))

theorem writerStep_placed_write (io : WriterCalls) {seq : ℕ} {f : TransactionLogFile}
    {r : WriteEntriesResult} {more : Bytes} (h : FilesPlaced w.store w.disk)
    (hs : SizesExact w.store w.disk) (hseq : seq = w.store.currentSequenceNumber)
    (hf : w.store.sequenceFiles.get? seq = some f) (hof : f.isOpen = true) (hopen' : r.file.isOpen = true)
    (hsize' : r.file.size = r.bytes.length) (hmore : r.bytes = w.disk.bytes seq ++ more)
    (hframed : Framed r.bytes) :
    FilesPlaced (w.store.setFile seq (r.stamped io.now)) { w.disk with logs := w.disk.logs.set seq r.bytes } ∧
      Later w.store (w.store.setFile seq (r.stamped io.now)) := by
  have hsize : f.size = (w.disk.bytes seq).length := (hs hf).opened hof
  have hgrown : (r.stamped io.now).isOpen = true ∧ f.size ≤ (r.stamped io.now).size := by
    rw [WriteEntriesResult.stamped_isOpen, WriteEntriesResult.stamped_size, hsize', hmore, hsize, List.length_append]
    exact ⟨hopen', Nat.le_add_right _ _⟩
  have hdisk := fun q => Disk.bytes_set w.disk seq q r.bytes w.disk.directory
  have hself := (hdisk seq).trans (if_pos rfl)
  have hchange : FileChange w.store w.disk seq (w.store.setFile seq (r.stamped io.now))
      { w.disk with logs := w.disk.logs.set seq r.bytes } := by
    refine ⟨⟨_, rfl⟩, fun q hq => SeqMap.get?_set_ne _ hq _, fun q hq => (hdisk q).trans (if_neg hq), ?_, rfl⟩
    exact ⟨more, hmore.symm.trans hself.symm⟩
  have hbytes : Framed (({ w.disk with logs := w.disk.logs.set seq r.bytes } : Disk).bytes seq) := hself.symm ▸ hframed
  exact hchange.placed h hseq hf (SeqMap.get?_set_self _ _ _) (fun _ => hgrown) fun _ => hbytes

theorem WriterTurns.nextAt {pc : WriterPc} (h : WriterTurns cfg w wr io pc) (hnext : wr.NextAt w.store) :
    ({ wr with pc } : Writer).NextAt w.store := by
  cases h with
  | full => exact trivial
  | placed seq hpc | young seq f hpc =>
    rw [Writer.NextAt, hpc] at hnext
    exact hnext
  | stays seq sizeBefore f hpc =>
    rw [Writer.NextAt, hpc] at hnext
    exact Or.inl ⟨hnext.1, hnext.2.2⟩

/-- After the last entry the writer does not go on to the next number. -/
theorem WriterRotates.nextAt {pc : WriterPc} (h : WriterRotates cfg w wr io pc)
    (hfiles : FilesPlaced w.store w.disk) (hnext : wr.NextAt w.store) (hio : io.Placing cfg w wr) :
    ({ wr with pc } : Writer).NextAt w.store.advanceSequence := by
  cases h with
  | inner => exact Or.inr hfiles.unregistered
  | old seq f hpc =>
    rw [Writer.NextAt, hpc] at hnext
    exact outerLoop_nextAt _ _ (hnext.2.later (later_advance hfiles))
  | outer seq sizeBefore f hpc hf hfull =>
    rw [WriterCalls.Placing, hpc] at hio
    refine Or.inr ⟨?_, hfiles.unregistered⟩
    rw [← Bool.not_eq_true]
    intro hcomplete
    obtain ⟨hgrew, hroom⟩ := hio.2 hcomplete f hf
    rcases hfull with hr | ⟨hmax, hfull⟩ | hr
    · exact hgrew hr
    · exact absurd (hroom hmax) (not_lt.mpr hfull)
    · rw [show wr.batch.isComplete = true from hcomplete] at hr
      cases hr

theorem writerStep_placed (h : FilesPlaced w.store w.disk) (hs : SizesExact w.store w.disk)
    (hopen : wr.FileOpen w.store) (hnext : wr.NextAt w.store)
    (hmem : wr.busy = true → wr.logPosition ∈ w.store.uncommittedTransactionPositions)
    (hio : io.Placing cfg w wr) (hstep : writerStep cfg w wr io = some w') : ∃ wr', PlacedStep w w' wr' := by
  have hmem := hmem (writerStep_busy hstep)
  cases writerStep_move hstep with
  | turn pc hturns =>
    exact ⟨_, rfl, h, Later.of_files rfl le_rfl, rfl, fun p hp => Or.inl hp, hturns.nextAt hnext, fun _ => hmem⟩
  | rotate pc hrotates =>
    exact ⟨_, rfl, h.advance, later_advance h, rfl, fun p hp => Or.inl hp, hrotates.nextAt h hnext hio, fun _ => hmem⟩
  | get hpc =>
    rw [Writer.NextAt, hpc] at hnext
    obtain ⟨hplaced, hlater⟩ := getLogFile_placed h io.now
    obtain ⟨files, next, hstore⟩ := getLogFile_store w.store w.disk w.store.currentSequenceNumber io.now
    refine ⟨_, rfl, hplaced, hlater, by rw [hstore], fun p hp => Or.inl (by rw [hstore] at hp; exact hp), ?_,
      fun _ => by rw [hstore]; exact hmem⟩
    simp only [Writer.NextAt, getLogFile]
    cases hf : w.store.sequenceFiles.get? w.store.currentSequenceNumber with
    | some f => exact ⟨rfl, Or.inl (hnext.resolve_right (by rw [hf]; exact Option.some_ne_none f))⟩
    | none => exact ⟨rfl, Or.inr rfl⟩
  | opens seq f hpc hf hroom =>
    rw [Writer.NextAt, hpc] at hnext
    obtain ⟨hseq, hplace⟩ := hnext
    rw [WriterCalls.Placing, WriterCalls.Exact, hpc] at hio
    obtain ⟨hplaced, hlater⟩ := ensureOpen_placed h hs hf hseq hio.1.1 hio.1.2 (hio.2 f hf)
    obtain ⟨files, hstore⟩ := ensureOpen_withFiles w.store w.disk seq f io.openCalls
    refine ⟨_, rfl, hplaced, hlater, by rw [hstore], fun p hp => Or.inl (by rw [hstore] at hp; exact hp), ?_,
      fun _ => by rw [hstore]; exact hmem⟩
    cases hr : (w.store.ensureOpen w.disk seq f io.openCalls).1 with
    | some e => trivial
    | none =>
      refine ⟨hseq.trans (by rw [hstore]), ?_⟩
      have hkept : (w.store.ensureOpen w.disk seq f io.openCalls).2.1.nextLogPosition = w.store.nextLogPosition := by
        rw [hstore]
      dsimp only
      rw [hkept]
      rcases hplace with hp | hp
      · exact hp.later hlater
      · obtain ⟨g, hg⟩ := Option.isSome_iff_exists.mp
          (ensureOpen_isSome w.store w.disk seq f io.openCalls (by rw [hf]; rfl))
        rw [hp]
        exact Or.inl ⟨g, hg, ensureOpen_isOpen hf hr hg, Nat.zero_le _⟩
  | place seq hpc hzero =>
    rw [Writer.NextAt, hpc] at hnext
    have hlater : Later w.store ((w.store.positionErase wr.logPosition).positionInsert w.store.nextLogPosition) :=
      Later.of_files rfl le_rfl
    refine ⟨_, rfl, ⟨h.framed, h.registered, h.current_lt, h.zero⟩, hlater, rfl, fun p hp => ?_,
      ⟨hnext.1, hnext.2.later hlater⟩,
      fun _ => SortedVec.mem_insert.mpr (Or.inl rfl)⟩
    rcases SortedVec.mem_insert.mp hp with rfl | hp
    · exact Or.inr (hnext.2.later hlater)
    · exact Or.inl (SortedVec.mem_erase.mp hp).2
  | append seq f hpc hf hreturns =>
    rw [Writer.NextAt, hpc] at hnext
    rw [Writer.FileOpen, hpc] at hopen
    rw [WriterCalls.Placing, WriterCalls.Exact, hpc] at hio
    obtain ⟨hfails, hlt⟩ := hio.1 f hf
    have hof : f.isOpen = true := hopen f hf
    have hframed := writeEntries_framed (h.framed hf hof) hreturns hfails
    obtain ⟨hopen', hsize'⟩ := writeEntries_exact hof ((hs hf).opened hof) hreturns hfails hlt
    obtain ⟨more, hmore⟩ := writeEntries_bytes f (w.disk.bytes seq) wr.batch cfg.maxFileSize io.results
    obtain ⟨hplaced, hlater⟩ := writerStep_placed_write io h hs hnext.1 hf hof hopen' hsize' hmore hframed
    refine ⟨_, rfl, hplaced, hlater, rfl, fun p hp => Or.inl hp, ?_, fun _ => hmem⟩
    have hnext' := hnext.2.later hlater
    unfold WriteEntriesResult.pc
    cases (f.writeEntries (w.disk.bytes seq) wr.batch cfg.maxFileSize io.results).error with
    | some e => exact hnext'
    | none =>
      exact ⟨hnext.1, hnext', _, SeqMap.get?_set_self _ _ _, (WriteEntriesResult.stamped_isOpen _ _).trans hopen'⟩
  | setNext seq f hpc hf =>
    rw [Writer.NextAt, hpc] at hnext
    refine ⟨_, rfl, ⟨h.framed, h.registered, h.current_lt, h.zero⟩, Later.of_files rfl le_rfl, rfl,
      fun p hp => Or.inl hp, ?_, fun _ => hmem⟩
    rcases hnext with ⟨hseq, g, hg, hog⟩ | ⟨hmore, hnone⟩
    · apply outerLoop_nextAt
      obtain rfl : f = g := Option.some.inj (hf.symm.trans hg)
      exact Or.inl ⟨f, hseq ▸ hf, hog, le_rfl⟩
    · have hloop : outerLoop wr.batch = .getFile :=
        if_neg (by rw [show wr.batch.isComplete = false from hmore]; exact Bool.false_ne_true)
      simp only [Writer.NextAt, hloop]
      exact Or.inr hnone
  | finish hpc =>
    rw [Writer.NextAt, hpc] at hnext
    have hplaced : Placed w.store w.store.nextLogPosition := hnext
    have hlater : Later w.store { w.store.positionInsert w.store.nextLogPosition with
        pendingTransactionCount := w.store.pendingTransactionCount - 1 } := Later.of_files rfl le_rfl
    refine ⟨_, rfl, ⟨h.framed, h.registered, h.current_lt, h.zero⟩, hlater, rfl, fun p hp => ?_, hplaced.later hlater,
      fun hb => absurd hb Bool.false_ne_true⟩
    rcases SortedVec.mem_insert.mp hp with rfl | hp
    · exact Or.inr (hplaced.later hlater)
    · exact Or.inl hp

end Writer

section Load
variable {cfg : StoreConfig} {io : FilesCalls} {s : TransactionLogStore} {d : Disk}

/-- The scan of a directory, so far. -/
structure ScanPlaced (s : TransactionLogStore) : Prop where
  current_pos : 0 < s.currentSequenceNumber
  opens : ∀ q, s.Opens q → 0 < q
  next : (s.sequenceFiles.get? s.currentSequenceNumber).isSome ∨ s.nextLogPosition.logSequenceNumber = 0

theorem registerLogFile_scanPlaced (h : ScanPlaced s) (seq : ℕ) : ScanPlaced (s.registerLogFile d seq io).1 := by
  have hopens : (s.currentSequenceNumber ≤ seq ∨ ¬ (s.registerLogFile d seq io).1.Opens seq) →
      ∀ q, (s.registerLogFile d seq io).1.Opens q → 0 < q := by
    intro hseq q hq
    by_cases hne : q = seq
    · subst hne
      exact h.current_pos.trans_le (hseq.resolve_right fun hn => hn hq)
    · obtain ⟨f, hf, ho⟩ := hq
      rw [registerLogFile_get? hne] at hf
      exact h.opens q ⟨f, hf, ho⟩
  unfold registerLogFile at hopens ⊢
  dsimp only at hopens ⊢
  generalize hf : ({ sequenceNumber := seq, fileLastWriteTime := (io.mtime seq).getD io.now } : TransactionLogFile) =
    f at hopens ⊢
  have hnext : ((s.setFile seq f).sequenceFiles.get? s.currentSequenceNumber).isSome ∨
      s.nextLogPosition.logSequenceNumber = 0 :=
    h.next.imp_left (isSome_setFile s seq f)
  by_cases hle : (s.setFile seq f).currentSequenceNumber ≤ seq
  · rw [if_pos hle] at hopens ⊢
    have hsome := ensureOpen_isSome (s.setFile seq f) d seq f (io.openCalls seq) (q := seq)
      (by rw [setFile, SeqMap.get?_set_self]; rfl)
    obtain ⟨g, hstore⟩ := ensureOpen_store (s.setFile seq f) d seq f (io.openCalls seq)
    cases hr : ((s.setFile seq f).ensureOpen d seq f (io.openCalls seq)).1 with
    | some e =>
      rw [hr] at hopens
      refine ⟨?_, hopens (Or.inl hle), ?_⟩
      · rcases hstore with hs | hs
        all_goals
          rw [hs]
          exact h.current_pos
      · rcases hstore with hs | hs
        · rw [hs]
          exact hnext
        · rw [hs]
          exact hnext.imp_left (isSome_setFile (s.setFile seq f) seq g)
    | none =>
      rw [hr] at hopens
      exact ⟨h.current_pos.trans_le hle, hopens (Or.inl hle), Or.inl hsome⟩
  · rw [if_neg hle] at hopens ⊢
    refine ⟨h.current_pos, hopens (Or.inr ?_), hnext⟩
    rintro ⟨g, hg, ho⟩
    obtain rfl := Option.some.inj ((SeqMap.get?_set_self _ _ _).symm.trans hg)
    rw [← hf] at ho
    cases ho

theorem scan_scanPlaced (order : List ℕ) {sd : TransactionLogStore × Disk} (h : ScanPlaced sd.1) :
    ScanPlaced (order.foldl (loadFile cfg io) sd).1 := by
  induction order generalizing sd with
  | nil => exact h
  | cons seq order ih =>
    apply ih
    unfold loadFile
    split_ifs
    · exact h
    · exact h
    · exact h
    · exact registerLogFile_scanPlaced h seq

/-- A store that `load` returns has its numbers above 0 and the place of the next entry in the log. -/
theorem load_placed {d' : Disk} {order : List ℕ} (h : load cfg d order io = (some s, d')) :
    Below s 0 ∧ Placed s s.nextLogPosition := by
  have hnew : ScanPlaced {} := ⟨Nat.one_pos, fun q ⟨f, hf, _⟩ => (nomatch hf), Or.inr rfl⟩
  have hscan : ScanPlaced (order.foldl (loadFile cfg io) ({}, d)).1 := scan_scanPlaced order hnew
  unfold load at h
  generalize order.foldl (loadFile cfg io) ({}, d) = sd at hscan h
  obtain ⟨s1, d1⟩ := sd
  dsimp only at h hscan
  cases hf : s1.sequenceFiles.get? s1.currentSequenceNumber with
  | none =>
    simp only [hf, Prod.mk.injEq, Option.some.injEq] at h
    obtain ⟨rfl, -⟩ := h
    have hzero : s1.nextLogPosition.logSequenceNumber = 0 :=
      hscan.next.resolve_left (by rw [hf]; exact Bool.false_ne_true)
    have hbelow : Below (s1.positionInsert s1.nextLogPosition) 0 :=
      ⟨hscan.current_pos, fun e he ho => hscan.opens e.1 ⟨e.2, SeqMap.get?_eq_some_iff.mpr he, ho⟩⟩
    refine ⟨hbelow, Or.inr ?_⟩
    rw [show (s1.positionInsert s1.nextLogPosition).nextLogPosition.logSequenceNumber = 0 from hzero]
    exact hbelow
  | some f =>
    simp only [hf] at h
    cases hr : (s1.ensureOpen d1 s1.currentSequenceNumber f (io.openCalls s1.currentSequenceNumber)).1 with
    | some e =>
      rw [hr] at h
      cases h
    | none =>
      simp only [hr, Prod.mk.injEq, Option.some.injEq] at h
      obtain ⟨rfl, -⟩ := h
      obtain ⟨f', hf'⟩ := Option.isSome_iff_exists.mp (ensureOpen_isSome s1 d1 s1.currentSequenceNumber f
        (io.openCalls s1.currentSequenceNumber) (by rw [hf]; rfl))
      have hopen := ensureOpen_isOpen hf hr hf'
      obtain ⟨g, hstore⟩ := ensureOpen_store s1 d1 s1.currentSequenceNumber f (io.openCalls s1.currentSequenceNumber)
      obtain ⟨hcurrent, -⟩ := ensureOpen_counters s1 d1 s1.currentSequenceNumber f
        (io.openCalls s1.currentSequenceNumber)
      rw [hf', Option.getD_some]
      generalize s1.ensureOpen d1 s1.currentSequenceNumber f (io.openCalls s1.currentSequenceNumber) =
        r at hstore hcurrent
      have hkept : (f'.recoverTail (r.2.2.bytes s1.currentSequenceNumber) io.recover).1.isOpen = true := by
        rcases recoverTail_cases f' (r.2.2.bytes s1.currentSequenceNumber) io.recover with hrec | ⟨e, -, -, hrec⟩
        · rw [hrec]
          exact hopen
        · rw [hrec]
          exact hopen
      have hother : ∀ q, q ≠ s1.currentSequenceNumber → r.2.1.sequenceFiles.get? q = s1.sequenceFiles.get? q := by
        intro q hq
        rcases hstore with hs | hs
        · rw [hs]
        · rw [hs]
          exact SeqMap.get?_set_ne _ hq _
      refine ⟨⟨lt_of_lt_of_eq hscan.current_pos hcurrent.symm, fun e he ho => ?_⟩,
        Or.inl ⟨_, SeqMap.get?_set_self _ _ _, hkept, le_rfl⟩⟩
      by_cases hq : e.1 = s1.currentSequenceNumber
      · rw [hq]
        exact hscan.current_pos
      · have hget := (SeqMap.get?_set_ne _ hq _).symm.trans (SeqMap.get?_eq_some_iff.mpr he)
        exact hscan.opens e.1 ⟨e.2, (hother e.1 hq).symm.trans hget, ho⟩

end Load

end RocksdbJs
