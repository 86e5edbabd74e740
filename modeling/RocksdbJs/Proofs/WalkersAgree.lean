import Mathlib.Data.List.TakeWhile
import RocksdbJs.Sanity.BatchEnd
import RocksdbJs.Sanity.Positions
import RocksdbJs.Sanity.Reader
import RocksdbJs.Spec.Transactions
import RocksdbJs.Proofs.BatchLimits

/-! Four walkers of one format. They agree on an image exactly if every frame has a payload and a
timestamp that a query's default range holds, and the padding is none or as long as a frame
header: the parser goes over a frame without payload, where the count and the scan stop, and it
takes eight bytes of padding for the end, where the scan wants thirteen. -/

namespace RocksdbJs

open TransactionLogStore

/-- What an entry of the parser says of timestamp, end flag and payload. -/
def LogEntry.seen (e : LogEntry) : TransactionEntry := ⟨e.timestamp, e.flags &&& 1 != 0, e.data.getD []⟩

/-- A reader of log file `seq` that holds `bytes`, all of it mapped, with the watermark at `limit`. -/
structure ReadsImage (y : Reading) (seq : ℕ) (bytes : Bytes) (limit : ℕ) : Prop where
  holds : y.disk.bytes seq = bytes
  watermark : y.store.lastCommittedPosition = ⟨limit, seq⟩
  mapped : bytes.length ≤ (y.buffer seq).length

/-- The other walkers say what the parser says; the reader with one call more than there are entries. -/
structure WalkersAgree (bytes : Bytes) (log : ParsedLog) : Prop where
  count : countTransactionLogEntries bytes bytes.length = log.entries.length
  scan : scanTransactionLogForRecovery bytes bytes.length = ⟨.clean, log.size⟩
  query : ∀ (cfg : StoreConfig) (io : ReadCalls) (y : Reading) (seq : ℕ), ReadsImage y seq bytes log.size →
    Reading.drain cfg io (log.entries.length + 1) y (fullIterator seq TRANSACTION_LOG_FILE_HEADER_SIZE log.size) =
      (log.entries.map LogEntry.seen, some .done)

/-- Every frame has a payload and a timestamp from zero to below the largest double, and what is
behind the frames is nothing, or begins with a zero timestamp and is as long as a frame header. -/
def Walkable (bytes : Bytes) : Prop :=
  ∃ timestamp rs tail, bytes = fileHeader timestamp ++ (frames rs ++ tail) ∧
    (∀ r ∈ rs, r.Fits ∧ r.timestamp.isZero = false ∧ r.data ≠ [] ∧ inFullRange r.timestamp = true) ∧
    (tail = [] ∨ TRANSACTION_LOG_ENTRY_HEADER_SIZE ≤ tail.length ∧ (readDoubleBE tail 0).isZero = true)

section Agree
variable {bytes : Bytes} {timestamp : Binary64} {rs : List LogRecord} {tail : Bytes}

theorem seen_eq_iff : seen rs = rs.map LogRecord.yielded ↔ ∀ r ∈ rs, inFullRange r.timestamp = true := by
  constructor
  · intro h
    have hlen := congrArg List.length h
    rw [seen, List.length_map, List.length_map] at hlen
    have hsub : ((rs.takeWhile fun r => !r.timestamp.isNaN).filter fun r => inFullRange r.timestamp).Sublist rs :=
      List.filter_sublist.trans (List.takeWhile_sublist _)
    have heq := hsub.eq_of_length hlen
    intro r hr
    rw [← heq] at hr
    exact (List.mem_filter.mp hr).2
  · intro h
    have htake : (rs.takeWhile fun r => !r.timestamp.isNaN) = rs :=
      List.takeWhile_eq_self_iff.mpr fun r hr => by rw [inFullRange_not_nan (h r hr)]; rfl
    rw [seen, htake, List.filter_eq_self.mpr h]

theorem payloads_of_count (h : (rs.takeWhile fun r => !r.data.isEmpty).length = rs.length) : ∀ r ∈ rs, r.data ≠ [] := by
  have hall := List.takeWhile_eq_self_iff.mp ((List.takeWhile_sublist _).eq_of_length h)
  intro r hr hnil
  simpa [hnil] using hall r hr

theorem count_of_payloads (h : ∀ r ∈ rs, r.data ≠ []) : (rs.takeWhile fun r => !r.data.isEmpty).length = rs.length := by
  rw [List.takeWhile_eq_self_iff.mpr fun r hr => by simpa using h r hr]

/-- A reader of the image sees its frames and then zeros or padding. -/
theorem ReadsImage.view {y : Reading} {seq limit : ℕ} (h : ReadsImage y seq bytes limit) :
    ∃ zeros, y.view seq = bytes ++ zeros := by
  refine ⟨List.replicate ((y.buffer seq).length - bytes.length) 0, ?_⟩
  rw [Reading.view, mapView, h.holds, List.take_of_length_le h.mapped]

theorem ReadsImage.drain {y : Reading} {seq : ℕ} {cfg : StoreConfig} {io : ReadCalls}
    (himg : Image bytes timestamp rs tail)
    (h : ReadsImage y seq bytes (TRANSACTION_LOG_FILE_HEADER_SIZE + (frames rs).length)) {n : ℕ}
    (hn : rs.length < n) :
    Reading.drain cfg io n y (fullIterator seq TRANSACTION_LOG_FILE_HEADER_SIZE (TRANSACTION_LOG_FILE_HEADER_SIZE +
      (frames rs).length)) =
      (seen rs, some .done) := by
  obtain ⟨zeros, hview⟩ := h.view
  have hdrain := Reading.drain_image cfg io (tail ++ zeros) h.watermark n rs (fileHeader timestamp)
    (by rw [hview, himg.eq]; simp) himg.fits himg.stamped (by rw [List.length_append, fileHeader_length]) hn
  rwa [fileHeader_length] at hdrain

/-- A reader of any image. -/
theorem exists_readsImage (bytes : Bytes) (limit : ℕ) : ∃ y seq, ReadsImage y seq bytes limit := by
  let y : Reading := ⟨{ lastCommittedPosition := ⟨limit, 1⟩ }, { logs := SeqMap.empty.set 1 bytes },
    { logBuffers := SeqMap.empty.set 1 ⟨1, bytes.length, none⟩ }⟩
  exact ⟨y, 1, rfl, rfl, le_rfl⟩

theorem seen_parsed (rs : List LogRecord) :
    (rs.map (LogRecord.parsed false)).map LogEntry.seen = rs.map LogRecord.yielded := by
  rw [List.map_map]
  rfl

/-- The walkers agree on an image exactly if it is walkable. -/
theorem Image.walkersAgree_iff (h : Image bytes timestamp rs tail) (hlen : bytes.length < UINT32_RANGE) :
    WalkersAgree bytes (parsedLog false timestamp rs) ↔
      (∀ r ∈ rs, r.data ≠ [] ∧ inFullRange r.timestamp = true) ∧
      (tail = [] ∨ TRANSACTION_LOG_ENTRY_HEADER_SIZE ≤ tail.length) := by
  have hcount := h.count hlen
  have hentries : (parsedLog false timestamp rs).entries.length = rs.length := List.length_map _
  constructor
  · rintro ⟨hc, hs, hq⟩
    rw [hcount, hentries] at hc
    have hpay := payloads_of_count hc
    have htail : tail = [] ∨ TRANSACTION_LOG_ENTRY_HEADER_SIZE ≤ tail.length := by
      by_contra hno
      rw [h.scan hlen hpay, if_neg hno] at hs
      exact nomatch (RecoveryScan.mk.inj hs).1
    obtain ⟨y, seq, hy⟩ := exists_readsImage bytes (parsedLog false timestamp rs).size
    have hread := hq ⟨0, 0, none⟩ {} y seq hy
    rw [hentries] at hread
    have hsee : seen rs = rs.map LogRecord.yielded := by
      have := (ReadsImage.drain h hy (Nat.lt_succ_self _)).symm.trans hread
      exact (Prod.mk.inj this).1.trans (seen_parsed rs)
    exact ⟨fun r hr => ⟨hpay r hr, seen_eq_iff.mp hsee r hr⟩, htail⟩
  · rintro ⟨hrs, htail⟩
    have hpay : ∀ r ∈ rs, r.data ≠ [] := fun r hr => (hrs r hr).1
    refine ⟨?_, ?_, fun cfg io y seq hy => ?_⟩
    · rw [hcount, hentries]
      exact count_of_payloads hpay
    · rw [h.scan hlen hpay, if_pos htail]
      rfl
    · rw [hentries]
      have hsee := seen_eq_iff.mpr fun r hr => (hrs r hr).2
      exact (ReadsImage.drain h hy (Nat.lt_succ_self _)).trans
        (by rw [hsee]; exact congrArg (·, _) (seen_parsed rs).symm)

theorem walkersAgree_iff {log : ParsedLog} (hparse : parseTransactionLog (some bytes) false = .ok log)
    (hlen : bytes.length < UINT32_RANGE) : WalkersAgree bytes log ↔ Walkable bytes := by
  constructor
  · intro hagree
    obtain ⟨timestamp, rs, tail, himg⟩ := parse_ok hparse
    obtain rfl := Except.ok.inj (hparse.symm.trans himg.parse)
    obtain ⟨hrs, htail⟩ := (himg.walkersAgree_iff hlen).mp hagree
    refine ⟨timestamp, rs, tail, himg.eq, fun r hr => ⟨himg.fits r hr, himg.stamped r hr, hrs r hr⟩, ?_⟩
    rcases himg.padding with hnil | ⟨-, hzero⟩
    · exact Or.inl hnil
    · exact htail.imp_right fun hlong => ⟨hlong, hzero⟩
  · rintro ⟨timestamp, rs, tail, heq, hrs, htail⟩
    have himg : Image bytes timestamp rs tail := by
      refine ⟨heq, fun r hr => (hrs r hr).1, fun r hr => (hrs r hr).2.1, htail.imp_right fun ht => ⟨?_, ht.2⟩⟩
      exact le_trans (by decide) ht.1
    obtain rfl := Except.ok.inj (hparse.symm.trans himg.parse)
    exact (himg.walkersAgree_iff hlen).mpr ⟨fun r hr => (hrs r hr).2.2, htail.imp_right And.left⟩

end Agree

section Produced
variable {cfg : StoreConfig}

/-- A log that calls of `writeBatch` have written, one after the other and with every system call
succeeding, from batches with timestamps that `SetTimestamp` accepts. -/
inductive Produced (cfg : StoreConfig) : List TransactionLogEntryBatch → World → Prop
  | new : Produced cfg [] {}
  | batch {bs : List TransactionLogEntryBatch} {b : TransactionLogEntryBatch} {w w' : World}
      {wr : Writer} {ios : List WriterCalls}
      (before : Produced cfg bs w) (unwritten : Unwritten b) (timestamp : acceptsTimestamp b.timestamp = true)
      (succeed : Runs.Along (stepWriter cfg) (fun w io => ∀ wr ∈ w.writer, io.Succeeds cfg w wr ∧ io.Ok cfg w.store wr)
        (beginWrite w b) ios)
      (run : Runs.exec (stepWriter cfg) (beginWrite w b) ios = some w') (writer : w'.writer = some wr)
      (returned : wr.pc = .returned) : Produced cfg (bs ++ [b]) w'

/-- What the parser gives of a file. -/
def parsedEntries (bytes : Bytes) : List TransactionEntry :=
  match parseTransactionLog (some bytes) false with
  | .ok log => log.entries.map LogEntry.seen
  | .error _ => []

/-- The parser accepts every file of the log, and gives the records of the batches. -/
structure Decodes (d : Disk) (bs : List TransactionLogEntryBatch) : Prop where
  accepted : ∀ e ∈ d.logs.entries, ∃ log, parseTransactionLog (some e.2) false = .ok log
  decoded : (d.logs.entries.flatMap fun e => parsedEntries e.2) =
    (bs.flatMap TransactionLogEntryBatch.records).map LogRecord.yielded

/-- No log file is empty. -/
def Filled (d : Disk) : Prop := ∀ {seq bytes}, d.logs.get? seq = some bytes → bytes ≠ []

theorem acceptsTimestamp_not_zero {t : Binary64} (h : acceptsTimestamp t = true) : t.isZero = false := by
  cases hz : t.isZero with
  | false => rfl
  | true =>
    have hmag : t.magnitude = 0 := of_decide_eq_true hz
    have hnan : t.isNaN = false := by simp [Binary64.isNaN, hmag]
    have hkey : t.key = 0 := by simp [Binary64.key, hmag]
    have hnz : Binary64.zero.isNaN = false := by decide
    simp [acceptsTimestamp, Binary64.ge, hnan, hnz, hkey, Binary64.key_zero] at h

/-- Only the steps that open a file or write to it change the log. -/
theorem writerStep_logs {w w' : World} {wr : Writer} {io : WriterCalls} (hopen : ∀ seq, wr.pc ≠ .tryOpen seq)
    (hwrite : ∀ seq, wr.pc ≠ .write seq) (hstep : writerStep cfg w wr io = some w') : w'.disk.logs = w.disk.logs := by
  cases writerStep_move hstep with
  | opens seq f hpc => exact absurd hpc (hopen seq)
  | append seq f hpc => exact absurd hpc (hwrite seq)
  | get hpc =>
    dsimp only [getLogFile]
    split <;> rfl
  | turn | rotate | place | setNext | finish => rfl

theorem filled_of_current {d d' : Disk} {cur : ℕ} (hf : Filled d) (hne : ∀ q, q ≠ cur → d'.logs.get? q = d.logs.get? q)
    (hcur : d'.bytes cur ≠ []) : Filled d' := by
  intro q bytes hq
  by_cases hqc : q = cur
  · subst hqc
    rwa [Disk.bytes_eq hq] at hcur
  · exact hf ((hne q hqc).symm.trans hq)

/-- The call so far, with no empty file. -/
structure Filling (cfg : StoreConfig) (d0 : Disk) (b0 : TransactionLogEntryBatch) (w : World) : Prop where
  writing : ∃ wr, w.writer = some wr ∧ Writing cfg d0 b0 w wr ∧ wr.Ends w ∧ wr.Taken w.store
  filled : Filled w.disk
  next : NextOk w.store
  notClosing : w.store.isClosing = false

theorem Filling.step {d0 : Disk} {b0 : TransactionLogEntryBatch} {w w' : World} {io : WriterCalls}
    (h : Filling cfg d0 b0 w) (hok : ∀ wr ∈ w.writer, io.Succeeds cfg w wr ∧ io.Ok cfg w.store wr)
    (hstep : stepWriter cfg w io = some w') :
    Filling cfg d0 b0 w' := by
  obtain ⟨wr, hwr, hwriting, hends, htaken⟩ := h.writing
  obtain ⟨hsucc, hfit⟩ := hok wr hwr
  rw [stepWriter, hwr, Option.bind_some] at hstep
  have hfilled : Filled w'.disk := by
    by_cases hopen : ∃ seq, wr.pc = .tryOpen seq
    · obtain ⟨seq, hpc⟩ := hopen
      obtain ⟨z, vr, hz, -, -, -, f, -, ⟨-, -, -, -, hd⟩ | ⟨-, -, f', hop⟩⟩ := tryOpen_spec hwriting hpc hsucc
      · obtain rfl := Option.some.inj (hz.symm.trans hstep)
        rw [hd]
        exact h.filled
      · obtain rfl := Option.some.inj (hz.symm.trans hstep)
        refine filled_of_current h.filled hop.bytes_ne ?_
        rcases hop.bytes with ⟨-, hbytes, -⟩ | ⟨hbytes, hne, -⟩
        · rw [hbytes]
          exact List.ne_nil_of_length_pos (by rw [fileHeader_length]; decide)
        · rw [hbytes]
          exact hne
    by_cases hwrite : ∃ seq, wr.pc = .write seq
    · obtain ⟨seq, hpc⟩ := hwrite
      obtain ⟨z, vr, f, hz, happ, -, -⟩ := write_spec hwriting hpc hsucc
      obtain rfl := Option.some.inj (hz.symm.trans hstep)
      refine filled_of_current h.filled happ.get?_ne ?_
      have hplace := hwriting.place
      rw [Writer.Place, hpc] at hplace
      obtain ⟨-, -, rfl, g, hg, ho⟩ := hplace
      rw [happ.bytes]
      exact List.append_ne_nil_of_left_ne_nil (hwriting.log.size_open hg ho).2 _
    have hlogs := writerStep_logs (not_exists.mp hopen) (not_exists.mp hwrite) hstep
    rw [hlogs]
    exact h.filled
  obtain ⟨wr', hm⟩ := writerStep_moves h.next htaken hstep
  obtain ⟨hwriting', hends'⟩ := writing_step hwriting hends hsucc hfit hstep hm.writer
  exact ⟨⟨wr', hm.writer, hwriting', hends', hm.taken⟩, hfilled, hm.next, hm.isClosing.trans h.notClosing⟩

/-- The log after the calls. -/
structure ProducedLog (bs : List TransactionLogEntryBatch) (w : World) : Prop where
  ready : Ready w
  next : NextOk w.store
  filled : Filled w.disk
  content : w.disk.content = bs.flatMap TransactionLogEntryBatch.records
  stamped : ∀ b ∈ bs, b.timestamp.isZero = false

theorem Produced.log {bs : List TransactionLogEntryBatch} {w : World} (h : Produced cfg bs w) : ProducedLog bs w := by
  induction h with
  | new => exact ⟨ready_empty, ⟨by decide, by decide, fun _ => rfl, nofun⟩, nofun, rfl, nofun⟩
  | batch before unwritten timestamp succeed run writer returned ih =>
    rename_i bs b w w' wr ios
    obtain ⟨wr0, hwr0, hpc0, -, hd0, -, -, hwriting⟩ := beginWrite_writing cfg ih.ready unwritten
    have hstart : Filling cfg w.disk b (beginWrite w b) := by
      have hbegin : beginWrite w b = _ := if_neg (by rw [ih.ready.notClosing]; exact Bool.false_ne_true)
      have hpos : wr0.logPosition = w.store.nextLogPosition := by
        rw [hbegin] at hwr0
        exact (Option.some.inj hwr0) ▸ rfl
      have hnext : NextOk (beginWrite w b).store := by
        rw [hbegin]
        exact ih.next.congr rfl rfl rfl rfl
      refine ⟨⟨wr0, hwr0, hwriting, by rw [Writer.Ends, hpc0]; trivial, ?_⟩, ?_, hnext, ?_⟩
      · rw [Writer.Taken, hpc0]
        exact hpos ▸ ih.next.zero
      · rw [hd0]
        exact ih.filled
      · rw [hbegin]
        exact ih.ready.notClosing
    have hend := Runs.exec_invariant (fun _ _ _ hi ho hs => hi.step ho hs) hstart succeed run
    obtain ⟨vr, hvr, hw, hends, -⟩ := hend.writing
    obtain rfl := Option.some.inj (writer.symm.trans hvr)
    have hplace := hw.place
    rw [Writer.Place, returned, TransactionLogEntryBatch.isComplete, decide_eq_true_iff, hw.entries,
      ← records_length b] at hplace
    rw [Writer.Ends, returned] at hends
    refine ⟨⟨hw.log, hends.1, hend.notClosing⟩, hend.next, hend.filled, ?_, ?_⟩
    · rw [hw.content, List.take_of_length_le hplace, ih.content, List.flatMap_append]
      simp
    · intro b' hb'
      rcases List.mem_append.mp hb' with hb' | hb'
      · exact ih.stamped b' hb'
      · obtain rfl := List.mem_singleton.mp hb'
        exact acceptsTimestamp_not_zero timestamp

/-- Files that are a header and whole frames are accepted, and give their records. -/
theorem parsedEntries_images {es : List (ℕ × Bytes)}
    (h : ∀ e ∈ es, ∃ timestamp, Image e.2 timestamp (fileRecords e.2) []) :
    (∀ e ∈ es, ∃ log, parseTransactionLog (some e.2) false = .ok log) ∧
      (es.flatMap fun e => parsedEntries e.2) = (es.flatMap fun e => fileRecords e.2).map LogRecord.yielded := by
  refine ⟨fun e he => ?_, ?_⟩
  · obtain ⟨timestamp, himg⟩ := h e he
    exact ⟨_, himg.parse⟩
  · rw [List.map_flatMap]
    refine List.flatMap_congr fun e he => ?_
    obtain ⟨timestamp, himg⟩ := h e he
    rw [parsedEntries, himg.parse]
    exact seen_parsed _

theorem Produced.decodes {bs : List TransactionLogEntryBatch} {w : World} (h : Produced cfg bs w) :
    Decodes w.disk bs := by
  have hlog := h.log
  -- each file is a header and frames without padding
  have hfile : ∀ e ∈ w.disk.logs.entries, ∃ timestamp, Image e.2 timestamp (fileRecords e.2) [] := by
    intro e he
    have hget : w.disk.logs.get? e.1 = some e.2 := SeqMap.get?_eq_some_iff.mpr he
    obtain ⟨ts, rs, hw⟩ := (hlog.ready.log.whole hget).resolve_left (hlog.filled hget)
    rw [hw.records]
    refine ⟨ts, by rw [List.append_nil]; exact hw.eq, hw.fits, fun r hr => ?_, Or.inl rfl⟩
    have hmem : r ∈ w.disk.content := List.mem_flatMap.mpr ⟨e, he, by rw [hw.records]; exact hr⟩
    rw [hlog.content] at hmem
    obtain ⟨b, hb, hrb⟩ := List.mem_flatMap.mp hmem
    obtain ⟨i, hi, rfl⟩ := List.mem_mapIdx.mp hrb
    exact hlog.stamped b hb
  obtain ⟨haccepted, hentries⟩ := parsedEntries_images hfile
  refine ⟨haccepted, ?_⟩
  rw [← hlog.content]
  exact hentries

end Produced

/-- On every image the parser accepts, the other walkers agree with it exactly if the image is
walkable; and every log that `writeBatch` has written is accepted and gives the entries written. -/
theorem walkers_agree_iff {bytes : Bytes} {log : ParsedLog} (hlen : bytes.length < UINT32_RANGE)
    (hparse : parseTransactionLog (some bytes) false = .ok log) :
    (WalkersAgree bytes log ↔ Walkable bytes) ∧
      ∀ (cfg : StoreConfig) (bs : List TransactionLogEntryBatch) (w : World), Produced cfg bs w → Decodes w.disk bs :=
  ⟨walkersAgree_iff hparse hlen, fun _ _ _ h => h.decodes⟩

/-- A header and one record with the payload `data`. -/
def oneRecord (data : Bytes) : Bytes := fileHeader ⟨5⟩ ++ frames [⟨⟨5⟩, 1, data⟩]

theorem oneRecord_image (data : Bytes) (h : data.length < UINT32_RANGE) :
    Image (oneRecord data) ⟨5⟩ [⟨⟨5⟩, 1, data⟩] [] := by
  refine ⟨by rw [List.append_nil]; rfl, fun r hr => ?_, fun r hr => ?_, Or.inl rfl⟩
  all_goals obtain rfl := List.mem_singleton.mp hr
  · exact h
  · exact (by decide : (⟨5⟩ : Binary64).isZero = false)

/-- A record with a payload. -/
theorem walkers_agree_one : WalkersAgree (oneRecord [7]) (parsedLog false ⟨5⟩ [⟨⟨5⟩, 1, [7]⟩]) := by
  have himg := oneRecord_image [7] (by decide)
  refine (walkers_agree_iff (by decide) himg.parse).1.mpr ⟨⟨5⟩, _, [], himg.eq, fun r hr => ?_, Or.inl rfl⟩
  obtain rfl := List.mem_singleton.mp hr
  exact ⟨himg.fits _ List.mem_cons_self, by decide, by decide, by decide⟩

/-- A record without payload, which the parser returns and the count leaves out. -/
theorem empty_payload_uncounted :
    ¬ ((∀ (bytes : Bytes) (log : ParsedLog), bytes.length < UINT32_RANGE →
      parseTransactionLog (some bytes) false = .ok log →
      WalkersAgree bytes log) ∧
      ∀ (cfg : StoreConfig) (bs : List TransactionLogEntryBatch) (w : World), Produced cfg bs w →
      Decodes w.disk bs) := by
  intro h
  have hcount := (h.1 _ _ (by decide) (oneRecord_image [] (by decide)).parse).count
  revert hcount
  decide

end RocksdbJs
