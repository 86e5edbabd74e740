import RocksdbJs.Sanity.Batch
import RocksdbJs.Sanity.Lifecycle
import RocksdbJs.Sanity.Writer

/-! What `load` makes of a directory whose newest file ends in a torn write. The scan walks
the whole frames and cuts what is left behind them, so the store that comes back is right
about whole files. A frame without payload, or a tail of zeros as long as a frame header, is
not what the scan takes it for. -/

namespace RocksdbJs

open TransactionLogStore

/-- The scan walks over the record: it has a payload that fits and a timestamp. -/
structure LogRecord.Scannable (r : LogRecord) : Prop where
  fits : r.Fits
  payload : r.data ≠ []
  timestamp : r.timestamp.isZero = false

/-- A tail the scan cuts: shorter than a frame header, or the beginning of a frame that the
file ends in, with no frames to be found in it. -/
def Torn (bytes : Bytes) (pos : ℕ) : Prop :=
  bytes.length < pos + TRANSACTION_LOG_ENTRY_HEADER_SIZE ∨
    ((readDoubleBE bytes pos).isZero = false ∧
      (readUint32BE bytes (pos + 8) = 0 ∨
        bytes.length < pos + TRANSACTION_LOG_ENTRY_HEADER_SIZE + readUint32BE bytes (pos + 8)) ∧
      validFramingResumes bytes (pos + 1) bytes.length = false)

theorem scanLoop_frames (tail : Bytes) : ∀ (rs : List LogRecord) (pre : Bytes) (fuel : ℕ), (∀ r ∈ rs, r.Scannable) →
    (pre ++ frames rs ++ tail).length < UINT32_RANGE →
    scanLoop (pre ++ frames rs ++ tail) (pre ++ frames rs ++ tail).length (rs.length + fuel) pre.length =
      scanLoop (pre ++ frames rs ++ tail) (pre ++ frames rs ++ tail).length fuel (pre ++ frames rs).length := by
  intro rs
  induction rs with
  | nil => intro pre fuel _ _; simp
  | cons r rs ih =>
    intro pre fuel hrs hlen
    have hr := hrs r List.mem_cons_self
    have hsplit : pre ++ frames (r :: rs) ++ tail = pre ++ (r.frame ++ (frames rs ++ tail)) := by simp
    have hassoc : pre ++ (r.frame ++ (frames rs ++ tail)) = pre ++ r.frame ++ frames rs ++ tail := by simp
    have hts := frame_timestamp r pre (frames rs ++ tail)
    have hsize := frame_size r pre (frames rs ++ tail) hr.fits
    have hpos : 0 < r.data.length := List.length_pos_iff.mpr hr.payload
    have hlen' : (pre ++ (r.frame ++ (frames rs ++ tail))).length =
        pre.length + (r.data.length + TRANSACTION_LOG_ENTRY_HEADER_SIZE) + (frames rs ++ tail).length := by
      rw [List.length_append, List.length_append, r.frame_length]
      omega
    rw [hsplit] at hlen ⊢
    have hend : frameEnd (pre ++ (r.frame ++ (frames rs ++ tail))) pre.length = (pre ++ r.frame).length := by
      rw [frameEnd, hsize, List.length_append, r.frame_length, add32, add32, Nat.mod_eq_of_lt, Nat.mod_eq_of_lt]
      · omega
      · omega
      · rw [Nat.mod_eq_of_lt] <;> omega
    rw [List.length_cons, Nat.add_right_comm, scanLoop]
    simp only [hts, hsize, hr.timestamp, Bool.false_eq_true, if_false]
    rw [if_neg (by rw [hlen']; simp only [TRANSACTION_LOG_ENTRY_HEADER_SIZE]; omega), if_neg (by rw [hlen']; omega),
      if_neg (by rw [hlen']; omega), hend]
    have hrest := ih (pre ++ r.frame) fuel (fun r' hr' => hrs r' (List.mem_cons_of_mem _ hr'))
      (by rw [← hassoc]; exact hlen)
    rw [hassoc, hrest, frames_cons, ← List.append_assoc]

/-- Where the scan of an image stops, and what it says of the rest. -/
theorem scan_image {timestamp : Binary64} {rs : List LogRecord} (tail : Bytes) (hrs : ∀ r ∈ rs, r.Scannable)
    (hlen : (fileHeader timestamp ++ frames rs ++ tail).length < UINT32_RANGE)
    (htail : tail = [] ∨ Torn (fileHeader timestamp ++ frames rs ++ tail) (fileHeader timestamp ++ frames rs).length) :
    let bytes := fileHeader timestamp ++ frames rs ++ tail
    scanTransactionLogForRecovery bytes bytes.length =
      ⟨if tail = [] then .clean else .truncateTail, (fileHeader timestamp ++ frames rs).length⟩ := by
  intro bytes
  have hblen : bytes.length = TRANSACTION_LOG_FILE_HEADER_SIZE + (frames rs).length + tail.length := by
    simp only [bytes, List.length_append, fileHeader_length]
  have hge := frames_length_ge rs
  have hwhole : (fileHeader timestamp ++ frames rs).length = TRANSACTION_LOG_FILE_HEADER_SIZE + (frames rs).length := by
    rw [List.length_append, fileHeader_length]
  unfold scanTransactionLogForRecovery
  by_cases hsmall : bytes.length ≤ TRANSACTION_LOG_FILE_HEADER_SIZE
  · have htnil : tail = [] := List.length_eq_zero_iff.mp (by omega)
    rw [if_pos hsmall, if_pos htnil, hwhole, hblen, htnil, List.length_nil, Nat.add_zero]
  rw [if_neg hsmall]
  obtain ⟨fuel, hfuel⟩ : ∃ fuel, bytes.length + 1 = rs.length + (fuel + 1) := ⟨bytes.length - rs.length, by omega⟩
  have hloop := scanLoop_frames tail rs (fileHeader timestamp) (fuel + 1) hrs hlen
  rw [fileHeader_length] at hloop
  rw [hfuel, hloop]
  change scanLoop bytes bytes.length (fuel + 1) _ = _
  rw [scanLoop]
  by_cases htnil : tail = []
  · have hend : (fileHeader timestamp ++ frames rs).length = bytes.length := by
      rw [hwhole, hblen, htnil, List.length_nil, Nat.add_zero]
    rw [if_pos hend, if_pos htnil, hend]
  · have hpos := List.length_pos_iff.mpr htnil
    rw [if_neg (by rw [hwhole, hblen]; omega), if_neg htnil]
    rcases htail.resolve_left htnil with hshort | ⟨hts, hbad, hframing⟩
    · rw [if_pos hshort]
    · by_cases hshort : bytes.length < (fileHeader timestamp ++ frames rs).length + TRANSACTION_LOG_ENTRY_HEADER_SIZE
      · rw [if_pos hshort]
      · rw [if_neg hshort, if_neg (by rw [hts]; exact Bool.false_ne_true)]
        exact (if_pos hbad).trans (if_neg (by rw [hframing]; exact Bool.false_ne_true))

/-- Recovery cuts an image back to its whole frames. -/
theorem recoverTail_image {f : TransactionLogFile} {timestamp : Binary64} {rs : List LogRecord} {tail : Bytes}
    {io : TransactionLogFile.RecoverCalls} (hrs : ∀ r ∈ rs, r.Scannable)
    (hlen : (fileHeader timestamp ++ frames rs ++ tail).length < UINT32_RANGE)
    (htail : tail = [] ∨ Torn (fileHeader timestamp ++ frames rs ++ tail) (fileHeader timestamp ++ frames rs).length)
    (hsize : f.size = (fileHeader timestamp ++ frames rs ++ tail).length) (hv : f.version = 1)
    (hio : io.readable = true ∧ io.truncated = true) :
    f.recoverTail (fileHeader timestamp ++ frames rs ++ tail) io =
      ({ f with size := (fileHeader timestamp ++ frames rs).length }, fileHeader timestamp ++ frames rs) := by
  have hscan := scan_image tail hrs hlen htail
  have hsame : tail = [] → (f, fileHeader timestamp ++ frames rs ++ tail) =
      ({ f with size := (fileHeader timestamp ++ frames rs).length }, fileHeader timestamp ++ frames rs) := by
    intro htnil
    rw [htnil, List.append_nil] at hsize ⊢
    rw [← hsize]
  unfold TransactionLogFile.recoverTail
  rw [if_neg (by simp [hv])]
  by_cases hsmall : f.size ≤ TRANSACTION_LOG_FILE_HEADER_SIZE
  · rw [if_pos hsmall]
    apply hsame
    rw [hsize, List.length_append, List.length_append, fileHeader_length] at hsmall
    exact List.length_eq_zero_iff.mp (by omega)
  have htake : (fileHeader timestamp ++ frames rs ++ tail).take f.size = fileHeader timestamp ++ frames rs ++ tail := by
    rw [hsize, List.take_length]
  rw [if_neg hsmall, htake, if_neg (by rw [hio.1, hsize]; simp)]
  simp only [hsize, hscan]
  by_cases htnil : tail = []
  · simp only [if_pos htnil]
    exact hsame htnil
  · simp only [if_neg htnil]
    have hpos := List.length_pos_iff.mpr htnil
    rw [if_neg (by simp only [List.length_append]; omega), if_pos hio.2, List.take_left]

/-- What `open` leaves of a file with a valid header, or of an empty one that `load` opens. -/
def openedBytes (bytes : Bytes) : Bytes := if bytes = [] then fileHeader Binary64.zero else bytes

/-- Nothing, or a file with a valid header. -/
def Headed (bytes : Bytes) : Prop := bytes = [] ∨ ∃ timestamp rest, bytes = fileHeader timestamp ++ rest

/-- A successful `open` by a store that has seen no timestamp. -/
theorem open_load {f : TransactionLogFile} {disk : Option Bytes} {io : OpenCalls} (hio : io.Succeeds)
    (hclosed : f.isOpen = false) (hv : f.version = 1) (hd : Headed (disk.getD []))
    (hlt : (disk.getD []).length < UINT32_RANGE) :
    ∃ f', f.open disk Binary64.zero io = (none, f', some (openedBytes (disk.getD []))) ∧ f'.isOpen = true ∧
      f'.version = 1 ∧ f'.size = (openedBytes (disk.getD [])).length := by
  rcases hd with hnil | ⟨timestamp, rest, hbytes⟩
  · rw [open_empty hio hclosed hv hnil, openedBytes, if_pos hnil]
    exact ⟨_, rfl, rfl, hv, (fileHeader_length _).symm⟩
  · cases disk with
    | none => simp [fileHeader] at hbytes
    | some bytes =>
      have hne : bytes ≠ [] := by
        rintro rfl
        simp [fileHeader] at hbytes
      rw [Option.getD_some] at hbytes hlt ⊢
      rw [open_headed hio hclosed hbytes hlt, openedBytes, if_neg hne]
      exact ⟨_, rfl, rfl, rfl, rfl⟩

/-- The scan of `load` with `todo` still to come, on a directory that was `d0`. -/
structure ScanLog (cfg : StoreConfig) (io : FilesCalls) (d0 : Disk) (todo : List ℕ)
    (s : TransactionLogStore) (d : Disk) : Prop where
  scanned : Scanned s
  file : ∀ {q f}, s.sequenceFiles.get? q = some f → q ∉ todo ∧ q ≤ s.currentSequenceNumber ∧ f.version = 1 ∧
    expired cfg io q = false ∧ (d0.logs.get? q).isSome ∧
      ((f.isOpen = true ∧ f.size = (openedBytes (d0.bytes q)).length ∧
        d.logs.get? q = some (openedBytes (d0.bytes q))) ∨
        (f.isOpen = false ∧ f.size = 0 ∧ q < s.currentSequenceNumber))
  logs : ∀ q, d.logs.get? q = d0.logs.get? q ∨ q ∉ todo ∧ (d.logs.get? q = none ∨
    (d0.logs.get? q).isSome ∧ d.logs.get? q = some (openedBytes (d0.bytes q)))
  gone : ∀ q, (d0.logs.get? q).isSome → q ∉ todo → expired cfg io q = true → io.removed q = true → d.logs.get? q = none
  current : s.currentSequenceNumber = 1 ∨ (s.sequenceFiles.get? s.currentSequenceNumber).isSome
  next : s.nextSequenceNumber = s.currentSequenceNumber + 1

section
variable {cfg : StoreConfig} {io : FilesCalls} {d0 d : Disk} {seq : ℕ} {order todo : List ℕ} {s : TransactionLogStore}

theorem scanLog_new (cfg : StoreConfig) (io : FilesCalls) {d0 : Disk} (h : order.Perm d0.logs.keys) :
    ScanLog cfg io d0 order {} d0 := by
  refine ⟨⟨_, _, _, _, rfl⟩, fun h => (nomatch h), fun _ => Or.inl rfl, fun q hq hn => absurd ?_ hn, Or.inl rfl, rfl⟩
  obtain ⟨bytes, hbytes⟩ := Option.isSome_iff_exists.mp hq
  exact h.mem_iff.mpr (SeqMap.mem_keys_iff.mpr ⟨bytes, hbytes⟩)

/-- A file that the scan passes by, or fails to remove. -/
theorem ScanLog.skip (h : ScanLog cfg io d0 (seq :: todo) s d)
    (hstay : ¬ (expired cfg io seq = true ∧ io.removed seq = true)) :
    ScanLog cfg io d0 todo s d := by
  refine ⟨h.scanned, fun hf => ?_, fun q => ?_, fun q hq hn hexp hrem => h.gone q hq (fun hm => ?_) hexp hrem,
    h.current,
    h.next⟩
  · obtain ⟨h1, h2⟩ := h.file hf
    exact ⟨fun hq => h1 (List.mem_cons_of_mem _ hq), h2⟩
  · rcases h.logs q with hl | ⟨hq, hl⟩
    · exact Or.inl hl
    · exact Or.inr ⟨fun hm => hq (List.mem_cons_of_mem _ hm), hl⟩
  · rcases List.mem_cons.mp hm with rfl | hm
    · exact hstay ⟨hexp, hrem⟩
    · exact hn hm

/-- A file that the scan removes. -/
theorem ScanLog.remove (h : ScanLog cfg io d0 (seq :: todo) s d) (hexp : expired cfg io seq = true)
    (hnew : seq ∉ todo) :
    ScanLog cfg io d0 todo s { d with logs := d.logs.erase seq } := by
  refine ⟨h.scanned, fun {q f} hf => ?_, fun q => ?_, fun q hq hn hexp' hrem => ?_, h.current, h.next⟩
  · obtain ⟨h1, h2, h3, h4, h5, h6⟩ := h.file hf
    refine ⟨fun hm => h1 (List.mem_cons_of_mem _ hm), h2, h3, h4, h5, h6.imp_left fun ⟨ho, hs, hl⟩ => ⟨ho, hs, ?_⟩⟩
    have hne : q ≠ seq := by
      rintro rfl
      rw [hexp] at h4
      cases h4
    simp only [SeqMap.get?_erase, if_neg hne]
    exact hl
  · simp only [SeqMap.get?_erase]
    split_ifs with hq
    · exact Or.inr ⟨hq ▸ hnew, Or.inl rfl⟩
    · exact (h.logs q).imp_right fun ⟨hm, hl⟩ => ⟨fun hm' => hm (List.mem_cons_of_mem _ hm'), hl⟩
  · simp only [SeqMap.get?_erase]
    split_ifs with hqs
    · rfl
    · exact h.gone q hq (fun hm => (List.mem_cons.mp hm).elim hqs hn) hexp' hrem

theorem Scanned.latest (h : Scanned s) : s.latestTimestamp = Binary64.zero := by
  obtain ⟨_, _, _, _, rfl⟩ := h
  rfl

/-- A file that the scan registers. -/
theorem ScanLog.register (h : ScanLog cfg io d0 (seq :: todo) s d) (hexp : expired cfg io seq = false)
    (hnew : seq ∉ todo) (hthere : (d0.logs.get? seq).isSome) (hhead : Headed (d0.bytes seq))
    (hlt : (d0.bytes seq).length < UINT32_RANGE) (hio : (io.openCalls seq).Succeeds) :
    ScanLog cfg io d0 todo (s.registerLogFile d seq io).1 (s.registerLogFile d seq io).2 ∧
      ((s.registerLogFile d seq io).1.sequenceFiles.get? seq).isSome := by
  have hskip := h.skip fun hgone => by rw [hexp] at hgone; exact Bool.false_ne_true hgone.1
  have hdisk : d.logs.get? seq = d0.logs.get? seq := by
    rcases h.logs seq with hl | ⟨hq, -⟩
    · exact hl
    · exact absurd List.mem_cons_self hq
  have hunreg : s.sequenceFiles.get? seq = none := by
    cases hg : s.sequenceFiles.get? seq with
    | none => rfl
    | some f => exact absurd List.mem_cons_self (h.file hg).1
  have hscanned := registerLogFile_scanned h.scanned d seq io
  set f0 : TransactionLogFile := { sequenceNumber := seq, fileLastWriteTime := (io.mtime seq).getD io.now } with hf0
  by_cases hcur : s.currentSequenceNumber ≤ seq
  · obtain ⟨f', hopen, ho, hv, hsize⟩ := open_load (f := f0) hio rfl rfl hhead hlt
    have hreg : s.registerLogFile d seq io = ({ s with
        sequenceFiles := (s.sequenceFiles.set seq f0).set seq f'
        currentSequenceNumber := seq
        nextLogPosition := ⟨f'.size, seq⟩
        nextSequenceNumber := max s.nextSequenceNumber (seq + 1) },
        { d with logs := d.logs.set seq (openedBytes (d0.bytes seq)), directory := true }) := by
      have hens : (s.setFile seq f0).ensureOpen d seq f0 (io.openCalls seq) = (none,
          (s.setFile seq f0).setFile seq f',
          { d with logs := d.logs.set seq (openedBytes (d0.bytes seq)), directory := true }) := by
        have hlatest : (s.setFile seq f0).latestTimestamp = Binary64.zero := h.scanned.latest
        simp only [ensureOpen, hf0, Bool.false_eq_true, if_false, openLogFile]
        rw [hdisk, ← hf0, hlatest, hopen]
        rfl
      unfold registerLogFile
      rw [← hf0]
      simp only [hens]
      rw [if_pos (show (s.setFile seq f0).currentSequenceNumber ≤ seq from hcur)]
      simp only [setFile, SeqMap.get?_set_self, Option.map_some, Option.getD_some]
    rw [hreg] at hscanned ⊢
    have hget : ∀ q, ((s.sequenceFiles.set seq f0).set seq f').get? q = if q = seq then some f'
        else s.sequenceFiles.get? q := by
      intro q
      simp only [SeqMap.get?_set]
      split_ifs <;> rfl
    refine ⟨⟨hscanned, fun {q f} hf => ?_, fun q => ?_, fun q hq hn hexp' hrem => ?_, Or.inr ?_, ?_⟩, ?_⟩
    · simp only [hget] at hf
      simp only [SeqMap.get?_set]
      split_ifs at hf ⊢ with hq
      · obtain rfl := Option.some.inj hf
        subst hq
        exact ⟨hnew, le_rfl, hv, hexp, hthere, Or.inl ⟨ho, hsize, rfl⟩⟩
      · obtain ⟨h1, h2, h3, h4, h5, h6⟩ := hskip.file hf
        exact ⟨h1, h2.trans hcur, h3, h4, h5, h6.imp_right fun hold => ⟨hold.1, hold.2.1, hold.2.2.trans_le hcur⟩⟩
    · simp only [SeqMap.get?_set]
      split_ifs with hq
      · subst hq
        exact Or.inr ⟨hnew, Or.inr ⟨hthere, rfl⟩⟩
      · exact hskip.logs q
    · have hqs : q ≠ seq := by
        rintro rfl
        rw [hexp] at hexp'
        cases hexp'
      simp only [SeqMap.get?_set, if_neg hqs]
      exact hskip.gone q hq hn hexp' hrem
    · simp only [hget, if_true, Option.isSome_some]
    · rw [h.next]
      exact max_eq_right (Nat.succ_le_succ hcur)
    · simp only [hget, if_true, Option.isSome_some]
  · have hreg : s.registerLogFile d seq io = ({ s.setFile seq f0 with
        nextSequenceNumber := max s.nextSequenceNumber (seq + 1) }, d) := by
      unfold registerLogFile
      rw [← hf0]
      exact if_neg hcur
    rw [hreg] at hscanned ⊢
    have hlt' : seq < s.currentSequenceNumber := not_le.mp hcur
    refine ⟨⟨hscanned, fun {q f} hf => ?_, hskip.logs, hskip.gone, ?_, ?_⟩, ?_⟩
    · simp only [setFile, SeqMap.get?_set] at hf
      split_ifs at hf with hq
      · obtain rfl := Option.some.inj hf
        subst hq
        exact ⟨hnew, hlt'.le, rfl, hexp, hthere, Or.inr ⟨rfl, rfl, hlt'⟩⟩
      · exact hskip.file hf
    · simp only [setFile, SeqMap.get?_set]
      exact h.current.imp_right fun hc => by rw [if_neg hlt'.ne']; exact hc
    · rw [h.next]
      exact max_eq_left (Nat.succ_le_succ hlt'.le)
    · simp only [setFile, SeqMap.get?_set_self, Option.isSome_some]

/-- A directory that `load` brings back: every file has a valid header or is empty, and what is newer than
the newest file that is kept is removed. -/
structure Loadable (cfg : StoreConfig) (io : FilesCalls) (d0 : Disk) (order : List ℕ) (newest : ℕ) : Prop where
  perm : order.Perm d0.logs.keys
  mem : newest ∈ order
  le : ∀ q ∈ order, q ≤ newest ∨ (expired cfg io q = true ∧ io.removed q = true)
  pos : 0 < newest
  calls : ∀ q ∈ order, (io.openCalls q).Succeeds
  kept : expired cfg io newest = false ∧ (0 < cfg.retentionMs → (io.mtime newest).isSome)
  headed : ∀ q, Headed (d0.bytes q)
  below : ∀ q, (d0.bytes q).length < UINT32_RANGE

variable {newest : ℕ}

theorem Loadable.file (h : Loadable cfg io d0 order newest) (hq : seq ∈ order) : (d0.logs.get? seq).isSome := by
  obtain ⟨bytes, hbytes⟩ := SeqMap.mem_keys_iff.mp (h.perm.mem_iff.mp hq)
  rw [hbytes]
  rfl

theorem scan_scanLog (h : Loadable cfg io d0 order newest) : ∀ (l : List ℕ) (s : TransactionLogStore) (d : Disk),
    l.Nodup → (∀ q ∈ l, q ∈ order) → ScanLog cfg io d0 l s d →
    (newest ∈ l ∨ (s.sequenceFiles.get? newest).isSome) →
    let sd := l.foldl (loadFile cfg io) (s, d)
    ScanLog cfg io d0 [] sd.1 sd.2 ∧ (sd.1.sequenceFiles.get? newest).isSome := by
  intro l
  induction l with
  | nil =>
    intro s d _ _ hs hn
    exact ⟨hs, hn.resolve_left (List.not_mem_nil)⟩
  | cons q l ih =>
    intro s d hnodup hsub hs hn
    obtain ⟨hq, hnodup'⟩ := List.nodup_cons.mp hnodup
    have hqo := hsub q List.mem_cons_self
    have hsub' := fun x hx => hsub x (List.mem_cons_of_mem _ hx)
    have hother : q ≠ newest → newest ∈ l ∨ (s.sequenceFiles.get? newest).isSome := by
      intro hne
      refine hn.imp_left fun hm => ?_
      exact (List.mem_cons.mp hm).resolve_left (Ne.symm hne)
    rw [List.foldl_cons]
    unfold loadFile
    split_ifs with hstat hexp hrem
    · have hnone := Option.isNone_iff_eq_none.mp hstat.2
      refine ih s d hnodup' hsub' (hs.skip fun hgone => ?_) (hother ?_)
      · rw [expired, hnone] at hgone
        cases hgone.1
      rintro rfl
      have := h.kept.2 hstat.1
      rw [hnone] at this
      cases this
    · refine ih s _ hnodup' hsub' (hs.remove hexp hq) (hother ?_)
      rintro rfl
      rw [h.kept.1] at hexp
      cases hexp
    · refine ih s d hnodup' hsub' (hs.skip fun hgone => hrem hgone.2) (hother ?_)
      rintro rfl
      rw [h.kept.1] at hexp
      cases hexp
    · obtain ⟨hreg, hmem⟩ := hs.register (Bool.eq_false_iff.mpr hexp) hq (h.file hqo) (h.headed q)
        (h.below q) (h.calls q hqo)
      have hkept : newest ∈ l ∨ ((s.registerLogFile d q io).1.sequenceFiles.get? newest).isSome := by
        by_cases hne : q = newest
        · exact Or.inr (hne ▸ hmem)
        · rw [registerLogFile_get? (Ne.symm hne)]
          exact hother hne
      exact ih _ _ hnodup' hsub' hreg hkept

/-- The scan leaves `txn.state` alone. -/
theorem scan_txnState (cfg : StoreConfig) (io : FilesCalls) (l : List ℕ) (sd : TransactionLogStore × Disk) :
    (l.foldl (loadFile cfg io) sd).2.txnState = sd.2.txnState := by
  induction l generalizing sd with
  | nil => rfl
  | cons q l ih =>
    rw [List.foldl_cons, ih]
    unfold loadFile
    split_ifs
    · rfl
    · rfl
    · rfl
    · simp only [registerLogFile]
      split_ifs
      · split <;> exact ensureOpen_txnState _ _ _ _ _
      · rfl

theorem keys_nodup {α : Type*} (m : SeqMap α) : m.keys.Nodup := m.sorted.imp fun h => ne_of_lt h

/-- Recovery leaves a header and the frames of records that meet `P`, below 4 GiB. -/
def RecoversTo (io : TransactionLogFile.RecoverCalls) (bytes : Bytes) (timestamp : Binary64)
    (P : List LogRecord → Prop) : Prop :=
  ∀ f : TransactionLogFile, f.version = 1 → f.size = bytes.length → ∃ rs, P rs ∧ (∀ r ∈ rs, r.Fits) ∧
    (fileHeader timestamp ++ frames rs).length < UINT32_RANGE ∧
    f.recoverTail bytes io = ({ f with size := (fileHeader timestamp ++ frames rs).length },
      fileHeader timestamp ++ frames rs)

/-- The registered files from number `first` on. -/
def TransactionLogStore.fromFile (s : TransactionLogStore) (first : ℕ) : TransactionLogStore :=
  { s with sequenceFiles := s.sequenceFiles.fromKey first }

/-- The log files from number `first` on. -/
def Disk.fromFile (d : Disk) (first : ℕ) : Disk := { d with logs := d.logs.fromKey first }

/-- The log files from `first` on after any number of calls of `writeBatch` that succeed: their numbers
have no gap up to the current one's, those before it are open, each one there is is registered, and every file is
below 4 GiB. -/
structure Chained (first : ℕ) (s : TransactionLogStore) (d : Disk) : Prop where
  notClosing : s.isClosing = false
  le : first ≤ s.currentSequenceNumber
  next : s.nextSequenceNumber = s.currentSequenceNumber + 1
  opened : ∀ k, first ≤ k → k < s.currentSequenceNumber → ∃ f, s.sequenceFiles.get? k = some f ∧ f.isOpen = true
  filed : ∀ k, first ≤ k → (d.logs.get? k).isSome → (s.sequenceFiles.get? k).isSome
  below : ∀ k, (d.bytes k).length < UINT32_RANGE

/-- The store goes on in its newest file, which is open and holds `bytes`. -/
structure Recovered (newest : ℕ) (bytes : Bytes) (s : TransactionLogStore) (d : Disk) : Prop where
  log : LogOk s d
  chained : Chained newest s d
  current : s.currentSequenceNumber = newest
  opened : OpenAt s newest
  file : d.logs.get? newest = some bytes

variable {newest : ℕ} {s : TransactionLogStore} {d : Disk}

/-- The scan ends in the newest file. -/
theorem Loadable.current (h : Loadable cfg io d0 order newest) (hscan : ScanLog cfg io d0 [] s d)
    (hmem : (s.sequenceFiles.get? newest).isSome) : s.currentSequenceNumber = newest := by
  obtain ⟨f, hf⟩ := Option.isSome_iff_exists.mp hmem
  refine le_antisymm ?_ (hscan.file hf).2.1
  rcases hscan.current with h1 | h1
  · rw [h1]
    exact h.pos
  · obtain ⟨g, hg⟩ := Option.isSome_iff_exists.mp h1
    obtain ⟨-, -, -, hkept, hthere, -⟩ := hscan.file hg
    obtain ⟨bytes, hbytes⟩ := Option.isSome_iff_exists.mp hthere
    refine (h.le _ (h.perm.mem_iff.mpr (SeqMap.mem_keys_iff.mpr ⟨bytes, hbytes⟩))).resolve_right fun hgone => ?_
    rw [hkept] at hgone
    cases hgone.1

/-- The scan leaves no newer file. -/
theorem Loadable.log_le (h : Loadable cfg io d0 order newest) (hscan : ScanLog cfg io d0 [] s d) {q : ℕ}
    (hq : (d.logs.get? q).isSome) : q ≤ newest := by
  have hthere : (d0.logs.get? q).isSome := by
    rcases hscan.logs q with hl | ⟨-, hl | ⟨hsome, -⟩⟩
    · exact hl ▸ hq
    · rw [hl] at hq
      cases hq
    · exact hsome
  obtain ⟨bytes, hbytes⟩ := Option.isSome_iff_exists.mp hthere
  refine (h.le q (h.perm.mem_iff.mpr (SeqMap.mem_keys_iff.mpr ⟨bytes, hbytes⟩))).resolve_right fun hgone => ?_
  rw [hscan.gone q hthere List.not_mem_nil hgone.1 hgone.2] at hq
  cases hq

/-- A store with one file, which is open and is the current one. -/
theorem recovered_single {timestamp : Binary64} {rs : List LogRecord} {f : TransactionLogFile}
    (hfiles : ∀ q, s.sequenceFiles.get? q = if q = newest then some f else none)
    (hlogs : ∀ q, d.logs.get? q = if q = newest then some (fileHeader timestamp ++ frames rs) else none)
    (hf : f.version = 1 ∧ f.isOpen = true ∧ f.size = (fileHeader timestamp ++ frames rs).length)
    (hfits : ∀ r ∈ rs, r.Fits) (hlt : (fileHeader timestamp ++ frames rs).length < UINT32_RANGE)
    (hcur : s.currentSequenceNumber = newest) (hnext : s.nextSequenceNumber = s.currentSequenceNumber + 1)
    (hclosing : s.isClosing = false) : Recovered newest (fileHeader timestamp ++ frames rs) s d := by
  have hfile : ∀ {q g}, s.sequenceFiles.get? q = some g → q = newest ∧ g = f := fun {q g} hg => by
    rw [hfiles] at hg
    split_ifs at hg with hq
    exact ⟨hq, (Option.some.inj hg).symm⟩
  have hlog : ∀ {q bytes}, d.logs.get? q = some bytes → q = newest ∧ bytes = fileHeader timestamp ++ frames rs :=
    fun {q bytes} hb => by
    rw [hlogs] at hb
    split_ifs at hb with hq
    exact ⟨hq, (Option.some.inj hb).symm⟩
  have hthere : d.logs.get? newest = some (fileHeader timestamp ++ frames rs) := by rw [hlogs, if_pos rfl]
  obtain ⟨hv, ho, hsize⟩ := hf
  refine ⟨⟨fun hb => ?_, fun hg => ?_, fun hg _ => ?_, fun hg hgo => ?_, fun hg => ?_, fun hb => ?_,
    hnext ▸ Nat.lt_succ_self _⟩,
    ⟨hclosing, hcur.ge, hnext, fun k hk hlt' => absurd (hlt'.trans_eq hcur) (not_lt.mpr hk),
      fun k _ hk => ?_, fun k => ?_⟩,
    hcur, fun g hg => (hfile hg).2 ▸ ho, hthere⟩
  · rw [(hlog hb).2]
    exact Or.inr ⟨timestamp, rs, rfl, hfits⟩
  · rw [(hfile hg).2]
    exact hv
  · obtain ⟨rfl, rfl⟩ := hfile hg
    rw [Disk.bytes_eq hthere, hsize, Nat.mod_eq_of_lt hlt]
    exact ⟨rfl, by simp [fileHeader]⟩
  · rw [(hfile hg).2, ho] at hgo
    cases hgo
  · exact ((hfile hg).1.trans hcur.symm).le
  · exact ((hlog hb).1.trans hcur.symm).le
  · obtain ⟨bytes, hb⟩ := Option.isSome_iff_exists.mp hk
    rw [hfiles, if_pos (hlog hb).1]
    rfl
  · cases hb : d.logs.get? k with
    | none =>
      rw [Disk.bytes_none hb]
      decide
    | some bytes =>
      rw [Disk.bytes_eq hb, (hlog hb).2]
      exact hlt

/-- The store that `load` returns is right about whole files from the newest one on, and goes on where
that one now ends. -/
theorem load_recovered {timestamp : Binary64} {P : List LogRecord → Prop} (h : Loadable cfg io d0 order newest)
    (hrec : RecoversTo io.recover (openedBytes (d0.bytes newest)) timestamp P) :
    ∃ s d' rs, load cfg d0 order io = (some s, d') ∧ P rs ∧ (∀ r ∈ rs, r.Fits) ∧
      Recovered newest (fileHeader timestamp ++ frames rs) (s.fromFile newest) (d'.fromFile newest) := by
  obtain ⟨hscan, hmem⟩ := scan_scanLog h order {} d0 (h.perm.nodup_iff.mpr (keys_nodup _)) (fun _ hq => hq)
    (scanLog_new cfg io h.perm) (Or.inl h.mem)
  unfold load
  generalize order.foldl (loadFile cfg io) ({}, d0) = sd at hscan hmem
  obtain ⟨s, d⟩ := sd
  simp only at hscan hmem ⊢
  obtain ⟨f, hf⟩ := Option.isSome_iff_exists.mp hmem
  have hcur := h.current hscan hmem
  obtain ⟨-, -, hv, -, hthere, hopen⟩ := hscan.file hf
  obtain ⟨ho, hsize, hlog⟩ := hopen.resolve_right fun ⟨_, _, hlt⟩ => by omega
  have hbytes : d.bytes newest = openedBytes (d0.bytes newest) := Disk.bytes_eq hlog
  obtain ⟨rs, hP, hfits, hlt, hrecover⟩ := hrec f hv hsize
  have hens : s.ensureOpen d newest f (io.openCalls newest) = (none, s, d) := if_pos ho
  simp only [hcur, hf, hens, Option.getD_some, hbytes, hrecover]
  refine ⟨_, _, rs, rfl, hP, hfits, recovered_single
    (f := { f with size := (fileHeader timestamp ++ frames rs).length }) (fun q => ?_) (fun q => ?_) ⟨hv, ho,
    rfl⟩ hfits hlt hcur hscan.next ?_⟩
  · simp only [TransactionLogStore.fromFile, SeqMap.get?_fromKey, positionInsert, setFile, SeqMap.get?_set]
    split_ifs with hle hq
    · rfl
    · -- a file behind the newest one is not registered
      cases hg : s.sequenceFiles.get? q with
      | none => rfl
      | some g =>
        have hge := (hscan.file hg).2.1
        omega
    · omega
    · rfl
  · simp only [Disk.fromFile, SeqMap.get?_fromKey, SeqMap.get?_set]
    split_ifs with hle hq
    · rfl
    · cases hb : d.logs.get? q with
      | none => rfl
      | some bytes =>
        have hge := h.log_le hscan (by rw [hb]; rfl : (d.logs.get? q).isSome)
        omega
    · omega
    · rfl
  · obtain ⟨files, current, next, position, hs⟩ := hscan.scanned
    rw [hs]
    rfl

/-- An image is brought back with the records of its whole frames. -/
theorem recoversTo_image {timestamp : Binary64} {rs : List LogRecord} {tail : Bytes}
    {o : TransactionLogFile.RecoverCalls} (hrs : ∀ r ∈ rs, r.Scannable)
    (hlen : (fileHeader timestamp ++ frames rs ++ tail).length < UINT32_RANGE)
    (htail : tail = [] ∨ Torn (fileHeader timestamp ++ frames rs ++ tail) (fileHeader timestamp ++ frames rs).length)
    (ho : o.readable = true ∧ o.truncated = true) :
    RecoversTo o (fileHeader timestamp ++ frames rs ++ tail) timestamp (· = rs) := by
  intro f hv hsize
  refine ⟨rs, rfl, fun r hr => (hrs r hr).fits, ?_, recoverTail_image hrs hlen htail hsize hv ho⟩
  rw [List.length_append] at hlen
  exact lt_of_le_of_lt (Nat.le_add_right _ _) hlen

theorem exists_scannable_prefix (rs : List LogRecord) (hfits : ∀ r ∈ rs, r.Fits) :
    (∀ r ∈ rs, r.Scannable) ∨ ∃ front r back, rs = front ++ r :: back ∧ (∀ r ∈ front, r.Scannable) ∧
      (r.data = [] ∨ r.timestamp.isZero = true) := by
  induction rs with
  | nil => exact Or.inl fun r hr => by cases hr
  | cons r rs ih =>
    by_cases hbad : r.data = [] ∨ r.timestamp.isZero = true
    · refine Or.inr ⟨[], r, rs, rfl, ?_, hbad⟩
      intro x hx
      cases hx
    · obtain ⟨hd, hz⟩ := not_or.mp hbad
      have hr : r.Scannable := ⟨hfits r List.mem_cons_self, hd, Bool.eq_false_iff.mpr hz⟩
      rcases ih fun r' hr' => hfits r' (List.mem_cons_of_mem _ hr') with hall | ⟨front, x, back, hsplit, hfront, hx⟩
      · exact Or.inl fun r' hr' => (List.mem_cons.mp hr').elim (fun he => he ▸ hr) (hall r')
      · refine Or.inr ⟨r :: front, x, back, by rw [hsplit]; rfl, fun r' hr' => ?_, hx⟩
        exact (List.mem_cons.mp hr').elim (fun he => he ▸ hr) (hfront r')

/-- What the scan says of a whole file: nothing to do, or cut it at a frame that it cannot walk. -/
theorem scan_whole {bytes : Bytes} {timestamp : Binary64} {rs : List LogRecord}
    (hw : WholeFile bytes timestamp rs) (hlen : bytes.length < UINT32_RANGE) {e : ℕ}
    (hscan : scanTransactionLogForRecovery bytes bytes.length = ⟨.truncateTail, e⟩) :
    (¬ ∀ r ∈ rs, r.Scannable) ∧ ∃ front, front <+: rs ∧ e = (fileHeader timestamp ++ frames front).length := by
  have hbytes := hw.eq
  rcases exists_scannable_prefix rs hw.fits with hall | ⟨front, r, back, rfl, hfront, hbad⟩
  · have hclean := scan_image [] hall (by rw [List.append_nil, ← hbytes]; exact hlen) (Or.inl rfl)
    simp only [List.append_nil, ← hbytes, hscan, if_true] at hclean
    cases hclean
  · refine ⟨fun hall => ?_, front, List.prefix_append _ _, ?_⟩
    · obtain ⟨-, hd, hz⟩ := hall r (by simp)
      rcases hbad with h1 | h1
      · exact hd h1
      · rw [hz] at h1
        cases h1
    · have hsplit : bytes = fileHeader timestamp ++ frames front ++ (r.frame ++ frames back) := by
        rw [hbytes]
        simp
      have hge := frames_length_ge front
      have hblen : bytes.length = TRANSACTION_LOG_FILE_HEADER_SIZE + (frames front).length +
          (r.data.length + TRANSACTION_LOG_ENTRY_HEADER_SIZE + (frames back).length) := by
        rw [hsplit, List.length_append, List.length_append, List.length_append, fileHeader_length, r.frame_length]
      have hpos : (fileHeader timestamp ++ frames front).length = TRANSACTION_LOG_FILE_HEADER_SIZE +
          (frames front).length := by
        rw [List.length_append, fileHeader_length]
      have h13 : TRANSACTION_LOG_ENTRY_HEADER_SIZE = 13 := rfl
      obtain ⟨fuel, hfuel⟩ : ∃ fuel, bytes.length + 1 = front.length + (fuel + 1) :=
        ⟨bytes.length - front.length, by omega⟩
      have hloop := scanLoop_frames (r.frame ++ frames back) front (fileHeader timestamp) (fuel + 1) hfront
        (by rw [← hsplit]; exact hlen)
      rw [← hsplit, fileHeader_length] at hloop
      rw [scanTransactionLogForRecovery, if_neg (by omega), hfuel, hloop, scanLoop, if_neg (by omega),
        if_neg (by omega)] at hscan
      -- the frame that stops the scan: a zero timestamp ends it as clean, a missing payload does not
      by_cases hz : (readDoubleBE bytes (fileHeader timestamp ++ frames front).length).isZero
      · rw [if_pos hz] at hscan
        cases hscan
      · rw [if_neg hz] at hscan
        have hts := frame_timestamp r (fileHeader timestamp ++ frames front) (frames back)
        rw [← hsplit] at hts
        have hd : r.data = [] := hbad.resolve_right fun h1 => by rw [hts] at hz; exact hz h1
        have hsize := frame_size r (fileHeader timestamp ++ frames front) (frames back) (hw.fits r (by simp))
        rw [← hsplit, hd, List.length_nil] at hsize
        simp only [hsize, true_or, if_true] at hscan
        split_ifs at hscan
        · cases hscan
        · exact ((RecoveryScan.mk.injEq ..).mp hscan).2.symm

/-- A whole file is brought back with a first part of its records, and with all of them when
the scan can walk them. -/
theorem recoversTo_whole {bytes : Bytes} {timestamp : Binary64} {rs : List LogRecord}
    (hw : WholeFile bytes timestamp rs) (hlen : bytes.length < UINT32_RANGE)
    (o : TransactionLogFile.RecoverCalls) :
    RecoversTo o bytes timestamp fun rs' => rs' <+: rs ∧ ((∀ r ∈ rs, r.Scannable) → rs' = rs) := by
  intro f hv hsize
  have htake : bytes.take f.size = bytes := by rw [hsize, List.take_length]
  rcases recoverTail_cases f bytes o with hr | ⟨e, he, hscan, hr⟩
  · refine ⟨rs, ⟨List.prefix_refl _, fun _ => rfl⟩, hw.fits, by rw [← hw.eq]; exact hlen, hr.trans ?_⟩
    rw [← hw.eq, ← hsize]
  · rw [htake, hsize] at hscan
    obtain ⟨hbad, front, hfront, rfl⟩ := scan_whole hw hlen hscan
    obtain ⟨back, hback⟩ := hfront
    refine ⟨front, ⟨⟨back, hback⟩, fun hall => absurd hall hbad⟩, fun r hr => hw.fits r ?_, by omega, hr.trans ?_⟩
    · rw [← hback]
      exact List.mem_append_left _ hr
    · congr 1
      rw [hw.eq, ← hback, frames_append, ← List.append_assoc, List.take_left]

end

end RocksdbJs
