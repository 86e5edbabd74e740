import RocksdbJs.Sanity.Index
import RocksdbJs.Sanity.Numbers
import RocksdbJs.Sanity.Recovery
import RocksdbJs.Sanity.BatchRun

/-! The timestamps of the whole log. When every header carries a timestamp at or above those
of all entries in earlier files, the backwards walk over the files misses no entry. -/

namespace RocksdbJs

open TransactionLogStore

/-- The timestamp in a file's header. -/
def headerTimestamp (bytes : Bytes) : Binary64 := readDoubleBE bytes TRANSACTION_LOG_FILE_TIMESTAMP_POSITION

theorem WholeFile.header {bytes : Bytes} {timestamp : Binary64} {rs : List LogRecord}
    (h : WholeFile bytes timestamp rs) :
    headerTimestamp bytes = timestamp := by
  rw [headerTimestamp, h.eq, header_timestamp]

/-- Every file is of whole frames with positive timestamps, and its header is at or above all
that comes before. -/
structure DiskStamped (d : Disk) : Prop where
  whole : ∀ {q bytes}, d.logs.get? q = some bytes → ∃ timestamp rs, StampedFile bytes timestamp rs
  headers : ∀ {p q bytes bytes'}, p < q → d.logs.get? p = some bytes → d.logs.get? q = some bytes' →
    ∀ r ∈ fileRecords bytes, r.timestamp.key ≤ (headerTimestamp bytes').key

/-- A file's object: right about its size and with an index that covers what it has seen. -/
structure FileStamped (f : TransactionLogFile) (disk : Option Bytes) : Prop where
  version : f.version = 1
  closed : f.isOpen = false → f.size = 0 ∧ f.positionByTimestampIndex = [] ∧
    f.lastIndexedPosition = TRANSACTION_LOG_FILE_TIMESTAMP_POSITION
  opened : f.isOpen = true → ∃ bytes timestamp rs, disk = some bytes ∧ StampedFile bytes timestamp rs ∧
    Indexed f bytes timestamp rs ∧ bytes.length < UINT32_RANGE

structure StoreStamped (s : TransactionLogStore) (d : Disk) : Prop where
  numbered : Numbered d.logs.keys s d
  disk : DiskStamped d
  file : ∀ {q f}, s.sequenceFiles.get? q = some f → FileStamped f (d.logs.get? q)

/-- The lookup can see all files: each number from the oldest file up to the current one is
registered, every registered file is open and can be mapped, and the current one fits its
mapping. -/
structure FindOk (cfg : StoreConfig) (s : TransactionLogStore) (d : Disk) (io : ReadCalls) : Prop where
  gapless : ∀ q ∈ d.logs.keys, ∀ p < s.currentSequenceNumber, q ≤ p → (s.sequenceFiles.get? p).isSome
  opened : ∀ e ∈ s.sequenceFiles.entries, e.2.isOpen = true ∧ io.mmapOk e.1 = true
  fits : ∀ f ∈ s.sequenceFiles.get? s.currentSequenceNumber, f.size ≤ cfg.maxFileSize

/-- Every entry of file `q` from timestamp `t` on lies at or after `position`. -/
def NotSkipped (d : Disk) (t : Binary64) (position : LogPosition) (q : ℕ) : Prop :=
  ∀ bytes ∈ d.logs.get? q, ∀ x ∈ located TRANSACTION_LOG_FILE_HEADER_SIZE (fileRecords bytes),
    Binary64.ge x.2.timestamp t = true → position ≤ ⟨x.1, q⟩

section
variable {cfg : StoreConfig} {s : TransactionLogStore} {d : Disk} {io : ReadCalls} {t : Binary64}

/-- Files after the position's are not skipped. -/
theorem notSkipped_above {position : LogPosition} {seq q : ℕ} (hle : position ≤ ⟨TRANSACTION_LOG_FILE_HEADER_SIZE, seq⟩)
    (hq : seq ≤ q) : NotSkipped d t position q := by
  intro bytes _ x hx _
  have hpos := (located_mem x hx).2
  refine hle.trans ?_
  rw [LogPosition.le_iff]
  rcases lt_or_eq_of_le hq with hlt | heq
  · exact Or.inl hlt
  · exact Or.inr ⟨heq, hpos⟩

/-- Nor are files before one whose header is below `t`. -/
theorem DiskStamped.notSkipped_below (h : DiskStamped d) {position : LogPosition} {seq q : ℕ} {bytes : Bytes}
    (hseq : d.logs.get? seq = some bytes) (hlt : Binary64.lt (headerTimestamp bytes) t = true) (hq : q < seq) :
    NotSkipped d t position q := by
  intro bytes' hb' x hx hge
  obtain ⟨timestamp, rs, hw⟩ := h.whole hb'
  have hmem : x.2 ∈ fileRecords bytes' := (located_mem x hx).1
  have hkey := h.headers hq hb' hseq x.2 hmem
  obtain ⟨timestamp', rs', hw'⟩ := h.whole hseq
  have hnan : (headerTimestamp bytes).isNaN = false := by
    rw [hw'.header]
    exact hw'.header_pos.not_nan
  rw [not_lt_of_ge hnan hge hkey] at hlt
  cases hlt

/-- Looking up in a file leaves its object right. -/
theorem StoreStamped.reindex (h : StoreStamped s d) {seq : ℕ} {f : TransactionLogFile} {bytes : Bytes}
    {timestamp : Binary64} {rs : List LogRecord} {index : List (Binary64 × ℕ)}
    (hf : s.sequenceFiles.get? seq = some f) (hopen : f.isOpen = true)
    (hseq : d.logs.get? seq = some bytes) (hw : StampedFile bytes timestamp rs)
    (hsize : f.size = bytes.length) (hlt : bytes.length < UINT32_RANGE) (hcov : Covers index timestamp rs) :
    StoreStamped (s.setFile seq (f.reindexed index bytes.length)) d := by
  refine ⟨⟨h.numbered.le, h.numbered.current_lt, fun hsome => ?_, fun {q g} hg ho => ?_⟩, h.disk, fun {q g} hg => ?_⟩
  · have := h.numbered.current hsome
    simp only [setFile, SeqMap.get?_set]
    split_ifs
    · rfl
    · exact this
  · simp only [setFile, SeqMap.get?_set] at hg
    split_ifs at hg with hq
    · rw [hq, hseq]
      rfl
    · exact h.numbered.opened hg ho
  · simp only [setFile, SeqMap.get?_set] at hg
    split_ifs at hg with hq
    · obtain rfl := Option.some.inj hg
      refine ⟨(h.file hf).version, fun hc => ?_, fun _ =>
        ⟨bytes, timestamp, rs, hq ▸ hseq, hw, ⟨hsize, Or.inr ?_⟩, hlt⟩⟩
      · rw [show (f.reindexed index bytes.length).isOpen = f.isOpen from rfl, hopen] at hc
        cases hc
      · exact ⟨rs, [], (List.append_nil _).symm, hw.length, hcov⟩
    · exact h.file hg

theorem FindOk.reindex (h : FindOk cfg s d io) {seq : ℕ} {f : TransactionLogFile}
    (hf : s.sequenceFiles.get? seq = some f) (index : List (Binary64 × ℕ)) (last : ℕ) :
    FindOk cfg (s.setFile seq (f.reindexed index last)) d io := by
  have hget : ∀ q, (s.setFile seq (f.reindexed index last)).sequenceFiles.get? q =
      if q = seq then some (f.reindexed index last) else s.sequenceFiles.get? q := fun q => SeqMap.get?_set _ _ _ _
  refine ⟨fun q hq p hp hqp => ?_, fun e he => ?_, fun g hg => ?_⟩
  · have := h.gapless q hq p hp hqp
    rw [hget]
    split_ifs
    · rfl
    · exact this
  · have hq := SeqMap.get?_eq_some_iff.mpr he
    rw [hget] at hq
    split_ifs at hq with hseq
    · obtain ⟨ho, hm⟩ := h.opened _ (SeqMap.get?_eq_some_iff.mp hf)
      rw [← Option.some.inj hq, hseq]
      exact ⟨ho, hm⟩
    · exact h.opened e (SeqMap.get?_eq_some_iff.mp hq)
  · have hq : (s.setFile seq (f.reindexed index last)).sequenceFiles.get? s.currentSequenceNumber = some g := hg
    rw [hget] at hq
    split_ifs at hq with hseq
    · rw [← Option.some.inj hq]
      exact h.fits f (by rw [hseq]; exact hf)
    · exact h.fits g hq

/-- The walk from `seq` down. -/
theorem findPositionFrom_spec :
    ∀ (seq : ℕ) (isCurrent : Bool) (s : TransactionLogStore), StoreStamped s d → FindOk cfg s d io →
    (isCurrent = true → seq = s.currentSequenceNumber) →
      (s.sequenceFiles.get? seq = none → ∀ q ≤ seq, d.logs.get? q = none) →
    seq ≤ s.currentSequenceNumber →
    ∃ position s', findPositionFrom cfg d t io seq isCurrent s = (.ok position, s') ∧ StoreStamped s' d ∧
      position ≤ ⟨TRANSACTION_LOG_FILE_HEADER_SIZE, seq + 1⟩ ∧ ∀ q ≤ seq, NotSkipped d t position q := by
  intro seq
  induction seq using Nat.strong_induction_on with
  | _ seq ih =>
    intro isCurrent s hs hok hc hnone hle
    unfold findPositionFrom
    cases hf : s.sequenceFiles.get? seq with
    | none =>
      refine ⟨_, _, rfl, hs, le_rfl, fun q hq bytes hb => ?_⟩
      rw [hnone hf q hq] at hb
      cases hb
    | some f =>
      obtain ⟨hopen, hmap⟩ := hok.opened (seq, f) (SeqMap.get?_eq_some_iff.mp hf)
      obtain ⟨bytes, timestamp, rs, hseq, hw, hix, hlt⟩ := (hs.file hf).opened hopen
      have hlen : bytes.length ≤ (if isCurrent then cfg.maxFileSize else f.size) := by
        rw [← hix.size]
        cases isCurrent with
        | true => exact hok.fits f (by rw [← hc rfl]; exact hf)
        | false => exact le_rfl
      obtain ⟨index, p, hfind, hcov, hfinds⟩ := findPosition_finds hw hlen hlt hix t
      have hbytes : d.bytes seq = bytes := by rw [Disk.bytes, hseq, Option.getD_some]
      simp only at hopen hmap
      simp only [hopen, if_true, hbytes, hmap, hfind]
      have hs1 := hs.reindex hf hopen hseq hw hix.size hlt hcov
      have hsame : ∀ {position : LogPosition},
          (∀ x ∈ located TRANSACTION_LOG_FILE_HEADER_SIZE rs, Binary64.ge x.2.timestamp t = true →
            position ≤ ⟨x.1, seq⟩) →
          NotSkipped d t position seq := by
        intro position hall bytes' hb' x hx hge
        obtain rfl := Option.some.inj (hseq.symm.trans hb')
        rw [hw.records] at hx
        exact hall x hx hge
      have hbelow : ∀ {position : LogPosition}, Binary64.lt timestamp t = true →
          NotSkipped d t position seq → ∀ q ≤ seq, NotSkipped d t position q := by
        intro position hlt' hown q hq
        rcases lt_or_eq_of_le hq with hq | rfl
        · exact hs.disk.notSkipped_below hseq (hw.header ▸ hlt') hq
        · exact hown
      have hnext : ∀ {position : ℕ}, (⟨position, seq⟩ : LogPosition) ≤ ⟨TRANSACTION_LOG_FILE_HEADER_SIZE, seq + 1⟩ := by
        intro position
        rw [LogPosition.le_iff]
        exact Or.inl (Nat.lt_succ_self _)
      cases hfinds with
      | before hb =>
        -- the header is not below `t`, so the walk goes on to the file before
        rw [if_neg (Nat.lt_irrefl 0)]
        cases seq with
        | zero => exact ⟨_, _, rfl, hs1, hnext, fun q hq => notSkipped_above le_rfl (Nat.zero_le q)⟩
        | succ n =>
          have hok1 := hok.reindex hf index bytes.length
          have hempty : (s.setFile (n + 1) (f.reindexed index bytes.length)).sequenceFiles.get? n = none →
              ∀ q ≤ n, d.logs.get? q = none := by
            intro hno q hq
            cases hq' : d.logs.get? q with
            | none => rfl
            | some b =>
              have := hok1.gapless q (SeqMap.mem_keys_iff.mpr ⟨b, hq'⟩) n hle hq
              rw [hno] at this
              cases this
          obtain ⟨position, s', hr, hs', hpos, hskip⟩ :=
            ih n (Nat.lt_succ_self n) false _ hs1 hok1 (fun hc => by cases hc) hempty
            (Nat.le_of_succ_le hle)
          refine ⟨position, s', hr, hs', hpos.trans hnext, fun q hq => ?_⟩
          rcases Nat.lt_or_ge q (n + 1) with hlt' | hge
          · exact hskip q (by omega)
          · exact notSkipped_above hpos hge
      | inside hb hge hend hall =>
        have h13 : TRANSACTION_LOG_FILE_HEADER_SIZE = 13 := rfl
        have hlength := hw.length
        have hne : p ≠ NOT_IN_FILE := by
          unfold NOT_IN_FILE
          unfold UINT32_RANGE at hlt
          omega
        rw [if_pos (by omega), if_neg hne]
        refine ⟨_, _, rfl, hs1, hnext, hbelow hb (hsame fun x hx hg => ?_)⟩
        rw [LogPosition.le_iff]
        exact Or.inr ⟨rfl, hall x hx hg⟩
      | after hb hall =>
        have hown : ∀ {position : LogPosition}, NotSkipped d t position seq := hsame fun x hx hg => by
          rw [hall x hx] at hg
          cases hg
        rw [if_pos (by decide), if_pos rfl]
        split_ifs
        · exact ⟨_, _, rfl, hs1, le_rfl, hbelow hb hown⟩
        · exact ⟨_, _, rfl, hs1, hnext, hbelow hb hown⟩

/-- The lookup returns a position that no entry from `t` on lies before, and leaves the store
as right as it was. -/
theorem findPosition_spec (hs : StoreStamped s d) (hok : FindOk cfg s d io) :
    ∃ position s', findPositionByTimestamp cfg s d t io = (.ok position, s') ∧ StoreStamped s' d ∧
      ∀ q, NotSkipped d t position q := by
  have hall : ∀ {seq : ℕ} {position : LogPosition}, position ≤ ⟨TRANSACTION_LOG_FILE_HEADER_SIZE, seq + 1⟩ →
      (∀ q ≤ seq, NotSkipped d t position q) → ∀ q, NotSkipped d t position q := by
    intro seq position hle hskip q
    rcases Nat.lt_or_ge seq q with hlt | hge
    · exact notSkipped_above hle hlt
    · exact hskip q hge
  simp only [TransactionLogStore.findPositionByTimestamp]
  cases hf : s.sequenceFiles.get? s.currentSequenceNumber with
  | some f =>
    obtain ⟨position, s', hr, hs', hle, hskip⟩ :=
      findPositionFrom_spec (t := t) s.currentSequenceNumber true s hs hok (fun _ => rfl)
      (fun hno => by rw [hf] at hno; cases hno) le_rfl
    exact ⟨position, s', hr, hs', hall hle hskip⟩
  | none =>
    have hcur : d.logs.get? s.currentSequenceNumber = none := by
      cases hb : d.logs.get? s.currentSequenceNumber with
      | none => rfl
      | some b =>
        have := hs.numbered.current (by rw [hb]; rfl)
        rw [hf] at this
        cases this
    have hempty : s.sequenceFiles.get? (s.currentSequenceNumber - 1) = none →
        ∀ q ≤ s.currentSequenceNumber - 1, d.logs.get? q = none := by
      intro hno q hq
      rcases Nat.eq_zero_or_pos s.currentSequenceNumber with hz | hpos
      · rw [show q = s.currentSequenceNumber by omega]
        exact hcur
      · cases hq' : d.logs.get? q with
        | none => rfl
        | some b =>
          have := hok.gapless q (SeqMap.mem_keys_iff.mpr ⟨b, hq'⟩) (s.currentSequenceNumber - 1) (by omega) hq
          rw [hno] at this
          cases this
    obtain ⟨position, s', hr, hs', hle, hskip⟩ :=
      findPositionFrom_spec (t := t) (s.currentSequenceNumber - 1) false s hs hok
      (fun hc => by cases hc) hempty (Nat.sub_le _ _)
    exact ⟨position, s', hr, hs', hall hle hskip⟩

end

/-- An open that the lookup can live with: the calls succeed, the file is below 4 GiB, and
when the open makes the file its header is at or above all that is logged. -/
structure OpensStamped (s : TransactionLogStore) (d : Disk) (seq : ℕ) (io : OpenCalls) : Prop where
  calls : io.Succeeds
  below : (d.bytes seq).length < UINT32_RANGE
  header : d.logs.get? seq = none → s.latestTimestamp.IsPos ∧ ∀ r ∈ d.content, r.timestamp.key ≤ s.latestTimestamp.key

/-- A fresh object opened on a file that is there. -/
theorem open_stamped {f : TransactionLogFile} {bytes : Bytes} {timestamp : Binary64} {rs : List LogRecord}
    {io : OpenCalls} (latest : Binary64) (hw : StampedFile bytes timestamp rs)
    (hlt : bytes.length < UINT32_RANGE) (hio : io.Succeeds) (hclosed : f.isOpen = false)
    (hf : FileStamped f (some bytes)) :
    ∃ f', f.open (some bytes) latest io = (none, f', some bytes) ∧ f'.isOpen = true ∧ FileStamped f' (some bytes) ∧
      f'.positionByTimestampIndex = [] ∧ f'.lastIndexedPosition = TRANSACTION_LOG_FILE_TIMESTAMP_POSITION := by
  obtain ⟨-, hindex, hlast⟩ := hf.closed hclosed
  rw [open_headed hio hclosed hw.eq hlt]
  refine ⟨_, rfl, rfl, ⟨rfl, fun hc => (nomatch hc), fun _ =>
    ⟨bytes, timestamp, rs, rfl, hw, ⟨rfl, Or.inl ⟨hindex, hlast⟩⟩, hlt⟩⟩,
    hindex, hlast⟩

section
variable {s : TransactionLogStore} {d d' : Disk} {seq : ℕ}

theorem DiskStamped.mono (h : DiskStamped d)
    (hsub : ∀ {q bytes}, d'.logs.get? q = some bytes → d.logs.get? q = some bytes) :
    DiskStamped d' :=
  ⟨fun hb => h.whole (hsub hb), fun hpq hp hq => h.headers hpq (hsub hp) (hsub hq)⟩

/-- One file, at the end of the log, is replaced by one whose header is above the files before. -/
theorem DiskStamped.set (h : DiskStamped d) {bytes : Bytes} {timestamp : Binary64} {rs : List LogRecord} (dir : Bool)
    (hw : StampedFile bytes timestamp rs) (htop : ∀ q, seq < q → d.logs.get? q = none)
    (hhead : ∀ {p old}, p < seq → d.logs.get? p = some old → ∀ r ∈ fileRecords old, r.timestamp.key ≤ timestamp.key) :
    DiskStamped { d with logs := d.logs.set seq bytes, directory := dir } := by
  refine ⟨fun {q b} hb => ?_, fun {p q b b'} hpq hp hq => ?_⟩
  · simp only [SeqMap.get?_set] at hb
    split_ifs at hb
    · obtain rfl := Option.some.inj hb
      exact ⟨timestamp, rs, hw⟩
    · exact h.whole hb
  · simp only [SeqMap.get?_set] at hp hq
    split_ifs at hq with hq'
    · obtain rfl := Option.some.inj hq
      rw [if_neg (by omega)] at hp
      rw [hw.header]
      exact hhead (by omega) hp
    · split_ifs at hp with hp'
      · rw [htop q (by omega)] at hq
        cases hq
      · exact h.headers hpq hp hq

theorem StoreStamped.top (h : StoreStamped s d) {q : ℕ} (hq : s.currentSequenceNumber < q) : d.logs.get? q = none := by
  cases hb : d.logs.get? q with
  | none => rfl
  | some b =>
    have := (h.numbered.le q (SeqMap.mem_keys_iff.mpr ⟨b, hb⟩)).1
    omega

theorem allUsed_keys (d : Disk) : AllUsed d.logs.keys d :=
  fun _ hq => SeqMap.mem_keys_iff.mpr (Option.isSome_iff_exists.mp hq)

/-- The numbers of the files there are. -/
theorem Numbered.keys {used : List ℕ} (h : Numbered (usedWith d used) s d) : Numbered d.logs.keys s d :=
  ⟨fun u hu => h.le u (List.mem_append_left _ hu), h.current_lt, h.current, h.opened⟩

/-- The current file with another object and other bytes. -/
theorem Numbered.setCurrent (h : Numbered d.logs.keys s d) (f : TransactionLogFile) (bytes : Bytes) :
    Numbered (d.logs.set s.currentSequenceNumber bytes).keys (s.setFile s.currentSequenceNumber f)
      { d with logs := d.logs.set s.currentSequenceNumber bytes } := by
  have hget : ∀ q, (d.logs.set s.currentSequenceNumber bytes).get? q =
      if q = s.currentSequenceNumber then some bytes else d.logs.get? q := fun q => SeqMap.get?_set _ _ _ _
  refine ⟨fun u hu => ?_, h.current_lt, fun _ => ?_, fun {q g} hg ho => ?_⟩
  · obtain ⟨b, hb⟩ := SeqMap.mem_keys_iff.mp hu
    refine ⟨?_, fun _ => by rw [hb]; rfl⟩
    rw [hget] at hb
    split_ifs at hb with hq
    · exact hq.le
    · exact (h.le u (SeqMap.mem_keys_iff.mpr ⟨b, hb⟩)).1
  · change ((s.sequenceFiles.set s.currentSequenceNumber f).get? s.currentSequenceNumber).isSome
    rw [SeqMap.get?_set_self]
    rfl
  · simp only [TransactionLogStore.setFile, SeqMap.get?_set] at hg ⊢
    split_ifs at hg ⊢
    · rfl
    · exact h.opened hg ho

/-- An open object in place of the file's, with the bytes it has seen. -/
theorem StoreStamped.setFile (h : StoreStamped s d) {f : TransactionLogFile} {bytes : Bytes} (dir : Bool)
    (hn : Numbered { d with logs := d.logs.set seq bytes, directory := dir }.logs.keys (s.setFile seq f)
      { d with logs := d.logs.set seq bytes, directory := dir })
    (hd : DiskStamped { d with logs := d.logs.set seq bytes, directory := dir }) (hf : FileStamped f (some bytes)) :
    StoreStamped (s.setFile seq f) { d with logs := d.logs.set seq bytes, directory := dir } := by
  refine ⟨hn, hd, fun {q g} hg => ?_⟩
  simp only [TransactionLogStore.setFile, SeqMap.get?_set] at hg ⊢
  split_ifs at hg ⊢
  · obtain rfl := Option.some.inj hg
    exact hf
  · exact h.file hg

theorem ensureOpen_stamped {f : TransactionLogFile} {io : OpenCalls} (h : StoreStamped s d)
    (hf : s.sequenceFiles.get? seq = some f) (hio : OpensStamped s d seq io)
    (hseq : (d.logs.get? seq).isSome ∨ seq = s.currentSequenceNumber) :
    (s.ensureOpen d seq f io).1 = none ∧ StoreStamped (s.ensureOpen d seq f io).2.1 (s.ensureOpen d seq f io).2.2 := by
  have hop := ensureOpen_grows d io hf (h.numbered.opened hf)
  have hn := (hop.numbered h.numbered (allUsed_keys d) hseq).1.keys
  unfold ensureOpen at hn ⊢
  cases ho : f.isOpen with
  | true =>
    simp only [if_true]
    exact ⟨trivial, h⟩
  | false =>
    simp only [ho, Bool.false_eq_true, if_false, openLogFile] at hn ⊢
    have hfile := h.file hf
    cases hb : d.logs.get? seq with
    | some bytes =>
      obtain ⟨timestamp, rs, hw⟩ := h.disk.whole hb
      have hlt := hio.below
      rw [Disk.bytes, hb, Option.getD_some] at hlt
      obtain ⟨f', hopen, ho', hf', -⟩ := open_stamped s.latestTimestamp hw hlt hio.calls ho (hb ▸ hfile)
      rw [hb, hopen] at hn
      simp only [hopen] at hn ⊢
      refine ⟨trivial, h.setFile true hn (h.disk.mono fun {q b} hq => ?_) hf'⟩
      simp only [SeqMap.get?_set] at hq
      split_ifs at hq with hqs
      · obtain rfl := Option.some.inj hq
        exact hqs ▸ hb
      · exact hq
    | none =>
      obtain rfl := hseq.resolve_left (by rw [hb]; exact Bool.false_ne_true)
      obtain ⟨hpos, hall⟩ := hio.header hb
      obtain ⟨-, hindex, hlast⟩ := hfile.closed ho
      have hopen : f.open none s.latestTimestamp io = _ := open_empty hio.calls ho hfile.version rfl
      rw [hb, hopen] at hn
      simp only [hopen] at hn ⊢
      have hw : StampedFile (fileHeader s.latestTimestamp) s.latestTimestamp [] :=
        ⟨wholeFile_header _, hpos, fun r hr => by cases hr⟩
      refine ⟨trivial, h.setFile true hn (h.disk.set true hw (fun q hq => h.top hq)
        fun {p old} _ hp r hr => hall r ?_) ?_⟩
      · exact List.mem_flatMap.mpr ⟨(p, old), SeqMap.get?_eq_some_iff.mp hp, hr⟩
      · refine ⟨hfile.version, fun hc => (by cases hc), fun _ => ⟨_, _, _, rfl, hw, ⟨?_, Or.inl ⟨hindex, hlast⟩⟩, ?_⟩⟩
        · rw [fileHeader_length]
        · rw [fileHeader_length]
          decide

theorem StoreStamped.sizesExact (h : StoreStamped s d) : SizesExact s d := by
  intro q f hf
  refine ⟨fun ho => ?_, fun ho => ((h.file hf).closed ho).1⟩
  obtain ⟨bytes, timestamp, rs, hb, -, hix, -⟩ := (h.file hf).opened ho
  rw [Disk.bytes, hb, Option.getD_some]
  exact hix.size

/-- The log as another store with the same files sees it. -/
theorem StoreStamped.congr {s' : TransactionLogStore} (h : StoreStamped s d) (hn : Numbered d'.logs.keys s' d')
    (hfiles : s'.sequenceFiles = s.sequenceFiles) (hlogs : d'.logs = d.logs) : StoreStamped s' d' := by
  refine ⟨hn, h.disk.mono fun hb => by rw [← hlogs]; exact hb, fun hf => ?_⟩
  rw [hfiles] at hf
  rw [hlogs]
  exact h.file hf

/-- Appending whole frames to an open file leaves its object right. -/
theorem FileStamped.append {f : TransactionLogFile} {bytes : Bytes} (h : FileStamped f (some bytes))
    (f' : TransactionLogFile) (rs' : List LogRecord) (ho : f.isOpen = true) (ho' : f'.isOpen = true)
    (hv : f'.version = f.version) (hindex : f'.positionByTimestampIndex = f.positionByTimestampIndex)
    (hlast : f'.lastIndexedPosition = f.lastIndexedPosition)
    (hsize : f'.size = (bytes ++ frames rs').length) (hlt : (bytes ++ frames rs').length < UINT32_RANGE)
    (hfits : ∀ r ∈ rs', r.Fits) (hpos : ∀ r ∈ rs', r.timestamp.IsPos) :
    FileStamped f' (some (bytes ++ frames rs')) ∧
      ∃ rs, StampedFile (bytes ++ frames rs') (headerTimestamp bytes) rs := by
  obtain ⟨bytes0, timestamp, rs, hb, hw, hix, -⟩ := h.opened ho
  obtain rfl := Option.some.inj hb
  have hw' : StampedFile (bytes ++ frames rs') timestamp (rs ++ rs') :=
    ⟨hw.append hfits, hw.header_pos, fun r hr => (List.mem_append.mp hr).elim (hw.pos r) (hpos r)⟩
  refine ⟨⟨hv.trans h.version, fun hc => ?_, fun _ => ⟨_, timestamp, rs ++ rs', rfl, hw', ⟨hsize, ?_⟩, hlt⟩⟩,
    rs ++ rs', ?_⟩
  · rw [ho'] at hc
    cases hc
  · rw [hindex, hlast]
    refine hix.index.imp_right ?_
    rintro ⟨front, back, rfl, h1, h2⟩
    exact ⟨front, back ++ rs', List.append_assoc _ _ _, h1, h2⟩
  · rw [hw.header]
    exact hw'

theorem nextRecords_pos {b : TransactionLogEntryBatch} (h : b.timestamp.IsPos) (n : ℕ) :
    ∀ r ∈ b.nextRecords n, r.timestamp.IsPos ∧ r.Fits := by
  intro r hr
  have hmem : r ∈ b.records := List.mem_of_mem_drop (List.mem_of_mem_take hr)
  refine ⟨?_, records_fit b r hmem⟩
  obtain ⟨i, hi, rfl⟩ := List.mem_mapIdx.mp hmem
  exact h

/-- The calls of a writer's step, as far as the timestamps of the log depend on them. -/
def WriterCalls.Stamped (cfg : StoreConfig) (w : World) (wr : Writer) (io : WriterCalls) : Prop :=
  match wr.pc with
  | .tryOpen seq => OpensStamped w.store w.disk seq io.openCalls
  | .write seq => ∀ f ∈ w.store.sequenceFiles.get? seq,
      failsEarly io.results (toWrite f wr.batch cfg.maxFileSize) = false ∧
        f.size + (toWrite f wr.batch cfg.maxFileSize).flatten.length < UINT32_RANGE
  | _ => True

theorem WriterCalls.Stamped.exact {cfg : StoreConfig} {w : World} {wr : Writer} {io : WriterCalls}
    (h : io.Stamped cfg w wr) :
    io.Exact cfg w wr := by
  obtain ⟨pc, batch, pos⟩ := wr
  cases pc with
  | tryOpen seq => exact ⟨⟨h.calls.2.1, h.calls.2.2.2⟩, h.below⟩
  | write seq => exact h
  | _ => trivial

/-- A writer on a log with its timestamps in order. -/
structure WriterStamped (w : World) (wr : Writer) : Prop where
  atCurrent : wr.AtCurrent w.store w.disk
  fileOpen : wr.FileOpen w.store
  pos : wr.batch.timestamp.IsPos

theorem writerStep_stamped {cfg : StoreConfig} {w w' : World} {wr : Writer} {io : WriterCalls}
    (h : StoreStamped w.store w.disk) (hwr : WriterStamped w wr) (hio : io.Stamped cfg w wr)
    (hstep : writerStep cfg w wr io = some w') :
    StoreStamped w'.store w'.disk ∧ ∀ wr' ∈ w'.writer, WriterStamped w' wr' := by
  have hnum := writerStep_numbered h.numbered (allUsed_keys _) hwr.atCurrent hstep
  have hexact := writerStep_exact h.sizesExact hwr.fileOpen hio.exact hstep
  have hn := hnum.numbered.keys
  -- what is left is the batch's timestamp and the files
  suffices hleft : StoreStamped w'.store w'.disk ∧ ∀ wr' ∈ w'.writer, wr'.batch.timestamp.IsPos by
    exact ⟨hleft.1, fun wr' hwr' => ⟨hnum.writer wr' hwr', hexact.2 wr' hwr', hleft.2 wr' hwr'⟩⟩
  have hpos : wr.batch.timestamp.IsPos := hwr.pos
  have hcurrent := hwr.atCurrent
  cases writerStep_move hstep with
  | turn | rotate | place | setNext | finish => exact ⟨h.congr hn rfl rfl, forall_mem_some hpos⟩
  | get hpc =>
    refine ⟨⟨hn, ?_, ?_⟩, forall_mem_some hpos⟩
    · refine h.disk.mono fun {q b} hb => ?_
      unfold getLogFile at hb
      split at hb <;> exact hb
    · intro q f hf
      unfold getLogFile at hf ⊢
      split at hf
      · exact h.file hf
      · simp only [SeqMap.get?_set] at hf
        split_ifs at hf with hq
        · obtain rfl := Option.some.inj hf
          exact ⟨rfl, fun _ => ⟨rfl, rfl, rfl⟩, fun ho => (by cases ho)⟩
        · exact h.file hf
  | opens seq f hpc hf hroom =>
    rw [Writer.AtCurrent, hpc] at hcurrent
    rw [WriterCalls.Stamped, hpc] at hio
    obtain rfl : seq = w.store.currentSequenceNumber := hcurrent
    exact ⟨(ensureOpen_stamped h hf hio (Or.inr rfl)).2, forall_mem_some hpos⟩
  | append seq f hpc hf hreturns =>
    rw [Writer.AtCurrent, hpc] at hcurrent
    rw [WriterCalls.Stamped, hpc] at hio
    obtain ⟨rfl, hthere⟩ := hcurrent
    have ho : f.isOpen = true := by
      have hopen := hwr.fileOpen
      rw [Writer.FileOpen, hpc] at hopen
      exact hopen f hf
    obtain ⟨bytes, hb⟩ := Option.isSome_iff_exists.mp hthere
    have hbytes : w.disk.bytes w.store.currentSequenceNumber = bytes := by rw [Disk.bytes, hb, Option.getD_some]
    have hfile : FileStamped f (some bytes) := hb ▸ h.file hf
    obtain ⟨bytes0, timestamp, rs, hb0, hw, hix, hlt0⟩ := hfile.opened ho
    obtain rfl := Option.some.inj hb0
    obtain ⟨hok, hlt⟩ := hio f hf
    rw [toWrite_flatten] at hlt
    rw [hbytes] at hreturns hn ⊢
    obtain ⟨total, hr⟩ := writeEntries_success bytes hfile.version (hix.size ▸ hlt0) hok hreturns
    set n := f.numEntriesToWrite wr.batch cfg.maxFileSize
    rw [hr] at hn ⊢
    have hlen : (bytes ++ frames (wr.batch.nextRecords n)).length = f.size + (wr.batch.nextBytes n).length := by
      rw [List.length_append, hix.size]
      rfl
    obtain ⟨hf', rs', hw'⟩ := hfile.append { f.touched with
        size := add32 f.size (wr.batch.nextBytes n).length, fileLastWriteTime :=
          io.now } (wr.batch.nextRecords n) ho ho rfl rfl rfl
      (by rw [hlen]; exact Nat.mod_eq_of_lt hlt) (by rw [hlen]; exact hlt) (fun r hr => (nextRecords_pos hpos n r hr).2)
      fun r hr => (nextRecords_pos hpos n r hr).1
    refine ⟨h.setFile w.disk.directory hn (h.disk.set w.disk.directory hw' (fun q hq => h.top hq)
      fun {p old} hp hold => ?_) hf',
      forall_mem_some hpos⟩
    exact h.disk.headers hp hold hb

theorem doPurge_stamped (cfg : StoreConfig) (h : StoreStamped s d) (all : Bool) (before : ℕ) (io : FilesCalls) :
    StoreStamped (doPurge cfg s d all before io).1 (doPurge cfg s d all before io).2 := by
  have hn := doPurge_numbered cfg h.numbered (allUsed_keys d) all before io
  refine ⟨⟨fun u hu => hn.le u ?_, hn.current_lt, hn.current, hn.opened⟩, h.disk.mono doPurge_logs, fun hf => ?_⟩
  · exact allUsed_keys d u (doPurge_logs_isSome (Option.isSome_iff_exists.mpr (SeqMap.mem_keys_iff.mp hu)))
  · obtain ⟨hf', hlogs⟩ := doPurge_file hf
    rw [hlogs]
    exact h.file hf'

end

section Load
variable {cfg : StoreConfig} {io : FilesCalls} {d0 d : Disk} {s : TransactionLogStore} {seq : ℕ} {todo order : List ℕ}

/-- Every file that a load lists is either past its retention and removed, or can be opened. -/
def LoadsStamped (cfg : StoreConfig) (io : FilesCalls) (d : Disk) (order : List ℕ) : Prop :=
  ∀ q ∈ order, (0 < cfg.retentionMs → (io.mtime q).isSome) ∧ (expired cfg io q = true → io.removed q = true) ∧
    (io.openCalls q).Succeeds ∧ (d.bytes q).length < UINT32_RANGE

/-- The scan with `todo` still to come: it has registered all the files it has met and left, as
they were. -/
structure ScanStamped (d0 : Disk) (todo : List ℕ) (s : TransactionLogStore) (d : Disk) : Prop where
  logs : ∀ {q bytes}, d.logs.get? q = some bytes → d0.logs.get? q = some bytes
  unmet : ∀ q ∈ todo, d.logs.get? q = d0.logs.get? q
  file : ∀ {q f}, s.sequenceFiles.get? q = some f → q ∉ todo ∧ (d.logs.get? q).isSome ∧ q ≤ s.currentSequenceNumber ∧
    FileStamped f (d.logs.get? q) ∧ f.positionByTimestampIndex = [] ∧
      f.lastIndexedPosition = TRANSACTION_LOG_FILE_TIMESTAMP_POSITION
  met : ∀ q, (d.logs.get? q).isSome → q ∉ todo → (s.sequenceFiles.get? q).isSome
  current_lt : s.currentSequenceNumber < s.nextSequenceNumber
  current_open : ∀ {f}, s.sequenceFiles.get? s.currentSequenceNumber = some f → f.isOpen = true

theorem ScanStamped.remove (h : ScanStamped d0 (seq :: todo) s d) (hnew : seq ∉ todo) :
    ScanStamped d0 todo s { d with logs := d.logs.erase seq } := by
  have hget : ∀ q, q ≠ seq → (d.logs.erase seq).get? q = d.logs.get? q := fun q hq => by
    rw [SeqMap.get?_erase, if_neg hq]
  refine ⟨fun {q bytes} hb => ?_, fun q hq => ?_, fun {q f} hf => ?_, fun q hq hn => ?_, h.current_lt, h.current_open⟩
  · simp only [SeqMap.get?_erase] at hb
    split_ifs at hb
    exact h.logs hb
  · have hne : q ≠ seq := fun he => hnew (he ▸ hq)
    exact (hget q hne).trans (h.unmet q (List.mem_cons_of_mem _ hq))
  · obtain ⟨h1, h2⟩ := h.file hf
    have hne : q ≠ seq := fun he => h1 (he ▸ List.mem_cons_self)
    refine ⟨fun hm => h1 (List.mem_cons_of_mem _ hm), ?_⟩
    simp only [hget q hne]
    exact h2
  · simp only [SeqMap.get?_erase] at hq
    split_ifs at hq with hne
    · cases hq
    · refine h.met q hq fun hm => ?_
      rcases List.mem_cons.mp hm with he | hm
      · exact hne he
      · exact hn hm

theorem ScanStamped.register (h : ScanStamped d0 (seq :: todo) s d) (hd : DiskStamped d0)
    (hnew : seq ∉ todo) (hthere : (d0.logs.get? seq).isSome) (hio : (io.openCalls seq).Succeeds)
    (hlt : (d0.bytes seq).length < UINT32_RANGE) :
    ScanStamped d0 todo (s.registerLogFile d seq io).1 (s.registerLogFile d seq io).2 := by
  obtain ⟨bytes, hb0⟩ := Option.isSome_iff_exists.mp hthere
  have hb : d.logs.get? seq = some bytes := (h.unmet seq List.mem_cons_self).trans hb0
  rw [Disk.bytes, hb0, Option.getD_some] at hlt
  obtain ⟨timestamp, rs, hw⟩ := hd.whole hb0
  have hmem : ∀ q, q ∉ todo → q ≠ seq → q ∉ seq :: todo := by
    intro q hq hne hm
    rcases List.mem_cons.mp hm with he | hm
    · exact hne he
    · exact hq hm
  simp only [registerLogFile]
  set f : TransactionLogFile := { sequenceNumber := seq, fileLastWriteTime := (io.mtime seq).getD io.now }
  have hf : FileStamped f (some bytes) := ⟨rfl, fun _ => ⟨rfl, rfl, rfl⟩, fun ho => (by cases ho)⟩
  by_cases hcur : s.currentSequenceNumber ≤ seq
  · rw [if_pos (show (s.setFile seq f).currentSequenceNumber ≤ seq from hcur)]
    obtain ⟨f', hopen, ho', hf', hindex, hlast⟩ := open_stamped (s.setFile seq f).latestTimestamp hw hlt hio rfl hf
    have hens : (s.setFile seq f).ensureOpen d seq f (io.openCalls seq) =
        (none, (s.setFile seq f).setFile seq f', { d with logs := d.logs.set seq bytes, directory := true }) := by
      rw [ensureOpen, if_neg Bool.false_ne_true, openLogFile, hb, hopen]
    rw [hens]
    have hlogs : ∀ q, (d.logs.set seq bytes).get? q = d.logs.get? q := by
      intro q
      rw [SeqMap.get?_set]
      split_ifs with hq
      · rw [hq, hb]
      · rfl
    refine ⟨fun {q b} hq => h.logs ((hlogs q).symm.trans hq), fun q hq => ?_, fun {q g} hg => ?_,
      fun q hq hn => ?_, ?_, fun hg => ?_⟩
    · exact (hlogs q).trans (h.unmet q (List.mem_cons_of_mem _ hq))
    · simp only [setFile, SeqMap.get?_set] at hg
      simp only [hlogs]
      split_ifs at hg with hq
      · obtain rfl := Option.some.inj hg
        rw [hq, hb]
        exact ⟨hnew, rfl, le_rfl, hf', hindex, hlast⟩
      · obtain ⟨h1, h2, h3, h4⟩ := h.file hg
        exact ⟨fun hm => h1 (List.mem_cons_of_mem _ hm), h2, h3.trans hcur, h4⟩
    · simp only [hlogs] at hq
      simp only [setFile, SeqMap.get?_set]
      split_ifs with hne
      · rfl
      · exact h.met q hq (hmem q hn hne)
    · exact lt_of_lt_of_le (Nat.lt_succ_self seq) (le_max_right _ _)
    · simp only [setFile, SeqMap.get?_set_self] at hg
      rw [← Option.some.inj hg]
      exact ho'
  · rw [if_neg (show ¬ (s.setFile seq f).currentSequenceNumber ≤ seq from hcur)]
    refine ⟨h.logs, fun q hq => h.unmet q (List.mem_cons_of_mem _ hq), fun {q g} hg => ?_, fun q hq hn => ?_,
      lt_of_lt_of_le h.current_lt (le_max_left _ _), fun hg =>
        h.current_open ((SeqMap.get?_set_ne _ (by omega) _).symm.trans hg)⟩
    · simp only [setFile, SeqMap.get?_set] at hg
      split_ifs at hg with hq
      · obtain rfl := Option.some.inj hg
        rw [hq, hb]
        exact ⟨hnew, rfl, (not_le.mp hcur).le, hf, rfl, rfl⟩
      · obtain ⟨h1, h2⟩ := h.file hg
        exact ⟨fun hm => h1 (List.mem_cons_of_mem _ hm), h2⟩
    · simp only [setFile, SeqMap.get?_set]
      split_ifs with hne
      · rfl
      · exact h.met q hq (hmem q hn hne)

theorem scan_stamped (hd : DiskStamped d0) (hload : LoadsStamped cfg io d0 order)
    (hthere : ∀ q ∈ order, (d0.logs.get? q).isSome) : ∀ (l : List ℕ) (sd : TransactionLogStore × Disk), l.Nodup →
      (∀ q ∈ l, q ∈ order) → ScanStamped d0 l sd.1 sd.2 →
      ScanStamped d0 [] (l.foldl (loadFile cfg io) sd).1 (l.foldl (loadFile cfg io) sd).2 := by
  intro l
  induction l with
  | nil => exact fun sd _ _ h => h
  | cons seq l ih =>
    intro sd hnodup hsub h
    rw [List.foldl_cons]
    obtain ⟨hnew, hrest⟩ := List.nodup_cons.mp hnodup
    have hmem := hsub seq List.mem_cons_self
    obtain ⟨hstat, hexp, hio, hlt⟩ := hload seq hmem
    refine ih (loadFile cfg io sd seq) hrest (fun q hq => hsub q (List.mem_cons_of_mem _ hq)) ?_
    unfold loadFile
    split_ifs with h1 h2 h3
    · have := hstat h1.1
      rw [Option.isNone_iff_eq_none.mp h1.2] at this
      cases this
    · exact h.remove hnew
    · exact absurd (hexp h2) h3
    · exact h.register hd hnew (hthere seq hmem) hio hlt

/-- A load leaves the timestamps of the log in order; what recovery cuts is at the end. -/
theorem load_stamped (hd : DiskStamped d0) (hload : LoadsStamped cfg io d0 order) (hperm : order.Perm d0.logs.keys) :
    ∃ s d', load cfg d0 order io = (some s, d') ∧ StoreStamped s d' := by
  have hthere : ∀ q ∈ order, (d0.logs.get? q).isSome := fun q hq =>
    Option.isSome_iff_exists.mpr (SeqMap.mem_keys_iff.mp (hperm.mem_iff.mp hq))
  have hstart : ScanStamped d0 order {} d0 := by
    refine ⟨fun hb => hb, fun _ _ => rfl, fun hf => (nomatch hf), fun q hq hn => absurd ?_ hn, Nat.lt_succ_self 1,
      fun hf => (nomatch hf)⟩
    exact hperm.mem_iff.mpr (SeqMap.mem_keys_iff.mpr (Option.isSome_iff_exists.mp hq))
  have hscan := scan_stamped hd hload hthere order ({}, d0) (hperm.nodup_iff.mpr (keys_nodup _)) (fun _ hq => hq) hstart
  unfold load
  generalize order.foldl (loadFile cfg io) ({}, d0) = sd at hscan
  obtain ⟨s, d⟩ := sd
  simp only at hscan ⊢
  have hd' : DiskStamped d := hd.mono hscan.logs
  have hle : ∀ u, (d.logs.get? u).isSome → u ≤ s.currentSequenceNumber := by
    intro u hu
    obtain ⟨f, hf⟩ := Option.isSome_iff_exists.mp (hscan.met u hu List.not_mem_nil)
    exact (hscan.file hf).2.2.1
  have hlog : StoreStamped s d := by
    refine ⟨⟨fun u hu => ?_, hscan.current_lt, fun hsome => hscan.met _ hsome List.not_mem_nil,
      fun hf _ => (hscan.file hf).2.1⟩,
      hd', fun hf => (hscan.file hf).2.2.2.1⟩
    have hu' : (d.logs.get? u).isSome := Option.isSome_iff_exists.mpr (SeqMap.mem_keys_iff.mp hu)
    exact ⟨hle u hu', fun _ => hu'⟩
  cases hf : s.sequenceFiles.get? s.currentSequenceNumber with
  | none => exact ⟨_, _, rfl, hlog.congr (hlog.numbered.congr rfl rfl rfl rfl) rfl rfl⟩
  | some f =>
    have ho := hscan.current_open hf
    obtain ⟨-, -, -, hfile, hindex, hlast⟩ := hscan.file hf
    obtain ⟨bytes, timestamp, rs, hb, hw, hix, hlt⟩ := hfile.opened ho
    have hens : s.ensureOpen d s.currentSequenceNumber f (io.openCalls s.currentSequenceNumber) = (none, s, d) := by
      rw [ensureOpen, if_pos ho]
    have hbytes : d.bytes s.currentSequenceNumber = bytes := by rw [Disk.bytes, hb, Option.getD_some]
    obtain ⟨rs', ⟨hfront, -⟩, hfits, hlt', hrec⟩ :=
      recoversTo_whole hw.toWholeFile hlt io.recover f hfile.version hix.size
    simp only [hens, hf, Option.getD_some, hbytes, hrec]
    have hw' : StampedFile (fileHeader timestamp ++ frames rs') timestamp rs' :=
      ⟨⟨rfl, hfits⟩, hw.header_pos, fun r hr => hw.pos r (hfront.subset hr)⟩
    have hd1 := hd'.set d.directory hw' (fun q hq => hlog.top hq) fun {p old} hp hold => by
      have := hd'.headers hp hold hb
      rwa [hw.header] at this
    have hf' : FileStamped { f with size := (fileHeader timestamp ++ frames rs').length }
        (some (fileHeader timestamp ++ frames rs')) := by
      refine ⟨hfile.version, fun hc => ?_, fun _ => ⟨_, timestamp, rs', rfl, hw', ⟨rfl, Or.inl ⟨hindex, hlast⟩⟩, hlt'⟩⟩
      rw [show ({ f with size := (fileHeader timestamp ++ frames rs').length } : TransactionLogFile).isOpen =
        f.isOpen from rfl, ho] at hc
      cases hc
    have hstamped := hlog.setFile d.directory (hlog.numbered.setCurrent _ _) hd1 hf'
    exact ⟨_, _, rfl, hstamped.congr (hstamped.numbered.congr rfl rfl rfl rfl) rfl rfl⟩

end Load

end RocksdbJs
