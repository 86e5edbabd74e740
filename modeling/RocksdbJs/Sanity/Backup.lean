import RocksdbJs.Sanity.Numbers
import RocksdbJs.Spec.Backup

/-! What the life of an open store does to its log files: one may vanish, or grow at its end,
and one below the current file does not even grow, unless it is so blank that an open takes
it for a new one. -/

namespace RocksdbJs

open TransactionLogStore

/-- An `open` does not take the file for an empty one. -/
def NotBlank (bytes : Bytes) : Prop := bytes.length % UINT32_RANGE ≠ 0

instance (bytes : Bytes) : Decidable (NotBlank bytes) := inferInstanceAs (Decidable (_ ≠ _))

/-- The file `q` had the bytes `b` before, and what it may have now. -/
def Onward (below : Prop) (b : Bytes) (after : Option Bytes) : Prop :=
  after = none ∨ ∃ more, after = some (b ++ more) ∧ (below → NotBlank b → more = [])

theorem Onward.same {below : Prop} {b : Bytes} {after : Option Bytes} (h : after = some b) : Onward below b after :=
  Or.inr ⟨[], by rw [List.append_nil]; exact h, fun _ _ => rfl⟩

theorem open_onward {f : TransactionLogFile} (b : Bytes) (timestamp : Binary64) (io : OpenCalls)
    (hclosed : f.isOpen = false) :
    ∃ more, (f.open (some b) timestamp io).2.2 = some (b ++ more) ∧ (NotBlank b → more = []) := by
  have hsame : ∃ more, some b = some (b ++ more) ∧ (NotBlank b → more = []) :=
    ⟨[], by rw [List.append_nil], fun _ => rfl⟩
  unfold TransactionLogFile.open TransactionLogFile.openFile
  cases ho : io.opened with
  | false =>
    simp only [hclosed, Bool.false_eq_true, if_false, Bool.not_false, if_true]
    exact hsame
  | true =>
    cases hs : io.statted with
    | false =>
      simp only [hclosed, Bool.false_eq_true, if_false, Bool.not_true, Bool.not_false, if_true, Option.getD_some]
      exact hsame
    | true =>
      simp only [hclosed, Bool.false_eq_true, if_false, Bool.not_true, Option.getD_some]
      unfold TransactionLogFile.readHeader
      by_cases h0 : b.length % UINT32_RANGE = 0
      · simp only [h0, if_true]
        exact ⟨_, rfl, fun hnb => absurd h0 hnb⟩
      · simp only [h0, if_false]
        split_ifs
        all_goals exact hsame

theorem ensureOpen_onward (s : TransactionLogStore) {d : Disk} (seq : ℕ) (f : TransactionLogFile)
    (io : OpenCalls) {q : ℕ} {b : Bytes} (below : Prop) (hb : d.logs.get? q = some b) :
    Onward below b ((s.ensureOpen d seq f io).2.2.logs.get? q) := by
  unfold ensureOpen
  cases ho : f.isOpen with
  | true =>
    rw [if_pos rfl]
    exact Onward.same hb
  | false =>
    rw [if_neg Bool.false_ne_true]
    simp only [openLogFile]
    by_cases hq : q = seq
    · subst hq
      obtain ⟨more, hmore, hnb⟩ := open_onward b s.latestTimestamp io ho
      rw [hb, hmore]
      exact Or.inr ⟨more, SeqMap.get?_set_self _ _ _, fun _ => hnb⟩
    · split
      · exact Onward.same ((SeqMap.get?_set_ne _ hq _).trans hb)
      · exact Onward.same hb

theorem ensureOpen_counters (s : TransactionLogStore) (d : Disk) (seq : ℕ) (f : TransactionLogFile) (io : OpenCalls) :
    (s.ensureOpen d seq f io).2.1.currentSequenceNumber = s.currentSequenceNumber ∧
      (s.ensureOpen d seq f io).2.1.nextSequenceNumber = s.nextSequenceNumber := by
  obtain ⟨g, hstore⟩ := ensureOpen_store s d seq f io
  rcases hstore with hs | hs
  · rw [hs]
    exact ⟨rfl, rfl⟩
  · rw [hs]
    exact ⟨rfl, rfl⟩

section
variable {cfg : StoreConfig} {io : FilesCalls} {seq q : ℕ}

/-- What registering a file does to the counters and the files. -/
structure Registers (s : TransactionLogStore) (d : Disk) (seq : ℕ) (sd : TransactionLogStore × Disk) : Prop where
  current : sd.1.currentSequenceNumber = s.currentSequenceNumber ∨
    (sd.1.currentSequenceNumber = seq ∧ s.currentSequenceNumber ≤ seq)
  current_lt : s.currentSequenceNumber < s.nextSequenceNumber → sd.1.currentSequenceNumber < sd.1.nextSequenceNumber
  get?_ne : ∀ q, q ≠ seq → sd.2.logs.get? q = d.logs.get? q
  files : ∀ {q b}, d.logs.get? q = some b → Onward True b (sd.2.logs.get? q)

theorem ensureOpen_logs_ne (s : TransactionLogStore) (d : Disk) (f : TransactionLogFile) (o : OpenCalls)
    (hq : q ≠ seq) :
    (s.ensureOpen d seq f o).2.2.logs.get? q = d.logs.get? q := by
  unfold ensureOpen
  split_ifs
  · rfl
  · simp only [openLogFile]
    split
    · exact SeqMap.get?_set_ne _ hq _
    · rfl

theorem registerLogFile_registers (s : TransactionLogStore) (d : Disk) (seq : ℕ) (io : FilesCalls) :
    Registers s d seq (s.registerLogFile d seq io) := by
  unfold registerLogFile
  dsimp only
  generalize hf : ({ sequenceNumber := seq, fileLastWriteTime := (io.mtime seq).getD io.now } : TransactionLogFile) = f
  split_ifs with hle
  · have hcounters := ensureOpen_counters (s.setFile seq f) d seq f (io.openCalls seq)
    split
    · refine ⟨Or.inl hcounters.1, fun hlt => ?_, fun q hq => ensureOpen_logs_ne _ d f _ hq,
        fun hb => ensureOpen_onward _ _ _ _ _ hb⟩
      rw [hcounters.1, hcounters.2]
      exact hlt
    · exact ⟨Or.inr ⟨rfl, hle⟩, fun _ => lt_of_lt_of_le (Nat.lt_succ_self seq) (le_max_right _ _),
        fun q hq => ensureOpen_logs_ne _ d f _ hq, fun hb => ensureOpen_onward _ _ _ _ _ hb⟩
  · exact ⟨Or.inl rfl, fun hlt => lt_of_lt_of_le hlt (le_max_left _ _), fun _ _ => rfl, fun hb => Onward.same hb⟩

theorem scan_current_lt {l : List ℕ} {sd : TransactionLogStore × Disk}
    (h : sd.1.currentSequenceNumber < sd.1.nextSequenceNumber) :
    (l.foldl (loadFile cfg io) sd).1.currentSequenceNumber < (l.foldl (loadFile cfg io) sd).1.nextSequenceNumber := by
  induction l generalizing sd with
  | nil => exact h
  | cons seq l ih =>
    apply ih
    unfold TransactionLogStore.loadFile
    split_ifs
    · exact h
    · exact h
    · exact h
    · exact (registerLogFile_registers sd.1 sd.2 seq io).current_lt h

/-- What the end of `load` does after the scan. -/
theorem load_cases (cfg : StoreConfig) (d : Disk) (order : List ℕ) (io : FilesCalls) :
    let sd := order.foldl (loadFile cfg io) ({}, d)
    (∀ s ∈ (load cfg d order io).1, s.currentSequenceNumber = sd.1.currentSequenceNumber ∧ s.nextSequenceNumber =
      sd.1.nextSequenceNumber) ∧
      ∀ q, q ≠ sd.1.currentSequenceNumber → (load cfg d order io).2.logs.get? q = sd.2.logs.get? q := by
  intro sd
  unfold load
  dsimp only
  split
  · exact ⟨fun s hs => by obtain rfl := Option.some.inj hs; exact ⟨rfl, rfl⟩, fun _ _ => rfl⟩
  · rename_i f hf
    have hcounters := ensureOpen_counters sd.1 sd.2 sd.1.currentSequenceNumber f
      (io.openCalls sd.1.currentSequenceNumber)
    split
    · exact ⟨fun s hs => (nomatch hs), fun q hq => ensureOpen_logs_ne _ _ _ _ hq⟩
    · refine ⟨fun s hs => ?_, fun q hq => ?_⟩
      · obtain rfl := Option.some.inj hs
        exact hcounters
      · exact (SeqMap.get?_set_ne _ hq _).trans (ensureOpen_logs_ne _ _ _ _ hq)

end

theorem ensureOpen_isSome (s : TransactionLogStore) (d : Disk) (seq : ℕ) (f : TransactionLogFile)
    (io : OpenCalls) {q : ℕ} (hq : (s.sequenceFiles.get? q).isSome) :
    ((s.ensureOpen d seq f io).2.1.sequenceFiles.get? q).isSome := by
  obtain ⟨g, hs | hs⟩ := ensureOpen_store s d seq f io
  · rw [hs]
    exact hq
  · rw [hs]
    exact isSome_setFile s seq g hq

/-- The writer works on the current file. -/
def Writer.OnCurrent (s : TransactionLogStore) (wr : Writer) : Prop :=
  match wr.pc with
  | .tryOpen seq => seq = s.currentSequenceNumber
  | .fixPosition seq => seq = s.currentSequenceNumber
  | .checkAge seq => seq = s.currentSequenceNumber
  | .write seq => seq = s.currentSequenceNumber
  | _ => True

/-- An open store between two steps: it has a number above the current one to go on with, and
its writer is at the current file. -/
structure InSession (w : World) : Prop where
  current_lt : w.store.currentSequenceNumber < w.store.nextSequenceNumber
  writer : ∀ wr ∈ w.writer, wr.OnCurrent w.store

/-- One step of an open store. -/
structure Advances (w w' : World) : Prop where
  session : InSession w'
  current_le : w.store.currentSequenceNumber ≤ w'.store.currentSequenceNumber
  files : ∀ {q b}, w.disk.logs.get? q = some b → Onward (q < w.store.currentSequenceNumber) b (w'.disk.logs.get? q)
  registered : ∀ q, (w.store.sequenceFiles.get? q).isSome → (w'.disk.logs.get? q).isSome →
    (w'.store.sequenceFiles.get? q).isSome

theorem outerLoop_onCurrent (s : TransactionLogStore) (b : TransactionLogEntryBatch) (p : LogPosition) :
    Writer.OnCurrent s ⟨outerLoop b, b, p⟩ := by
  unfold outerLoop
  split_ifs
  · trivial
  · trivial

section
variable {cfg : StoreConfig} {w w' : World} {wr : Writer} {io : WriterCalls}

/-- A step that leaves the log files and the counters. -/
theorem Advances.of_same (h : InSession w) (hlogs : w'.disk.logs = w.disk.logs)
    (hcur : w'.store.currentSequenceNumber = w.store.currentSequenceNumber)
    (hnext : w'.store.nextSequenceNumber = w.store.nextSequenceNumber)
    (hfiles : ∀ q, (w.store.sequenceFiles.get? q).isSome → (w'.store.sequenceFiles.get? q).isSome)
    (hwr : ∀ wr' ∈ w'.writer, wr'.OnCurrent w'.store) : Advances w w' := by
  refine ⟨⟨?_, hwr⟩, hcur.ge, fun hb => Onward.same (by rw [hlogs]; exact hb), fun q hq _ => hfiles q hq⟩
  rw [hcur, hnext]
  exact h.current_lt

/-- A rotation. -/
theorem Advances.of_rotation (h : InSession w) (hlogs : w'.disk.logs = w.disk.logs)
    (hs : w'.store = w.store.advanceSequence) (hwr : ∀ wr' ∈ w'.writer, wr'.OnCurrent w'.store) :
    Advances w w' := by
  refine ⟨⟨?_, hwr⟩, ?_, fun hb => Onward.same (by rw [hlogs]; exact hb), fun q hq _ => ?_⟩
  · rw [hs]
    exact Nat.lt_succ_self _
  · rw [hs]
    exact h.current_lt.le
  · rw [hs]
    exact hq

theorem WriterRotates.onCurrent {pc : WriterPc} (h : WriterRotates cfg w wr io pc) (s : TransactionLogStore) :
    ({ wr with pc } : Writer).OnCurrent s := by
  cases h with
  | inner => exact trivial
  | old => exact outerLoop_onCurrent _ _ _
  | outer => exact trivial

theorem WriterTurns.onCurrent {pc : WriterPc} (h : WriterTurns cfg w wr io pc) (hon : wr.OnCurrent w.store) :
    ({ wr with pc } : Writer).OnCurrent w.store := by
  cases h with
  | full => exact trivial
  | placed seq hpc | young seq f hpc =>
    rw [Writer.OnCurrent, hpc] at hon
    exact hon
  | stays => exact trivial

theorem writerStep_advances (h : InSession w) (hon : wr.OnCurrent w.store)
    (hstep : writerStep cfg w wr io = some w') : Advances w w' := by
  cases writerStep_move hstep with
  | turn pc hturns => exact .of_same h rfl rfl rfl (fun _ hq => hq) (forall_mem_some (hturns.onCurrent hon))
  | rotate pc hrotates => exact .of_rotation h rfl rfl (forall_mem_some (hrotates.onCurrent _))
  | get hpc =>
    obtain ⟨files, next, hs⟩ := getLogFile_store w.store w.disk w.store.currentSequenceNumber io.now
    refine .of_same h ?_ (by rw [hs]) (by rw [hs]) (fun q hq => ?_) (forall_mem_some (show _ = _ by rw [hs]))
    · unfold getLogFile
      split <;> rfl
    · unfold getLogFile
      split
      · exact hq
      · exact isSome_setFile w.store _ _ hq
  | opens seq f hpc hf hroom =>
    rw [Writer.OnCurrent, hpc] at hon
    have hcounters := ensureOpen_counters w.store w.disk seq f io.openCalls
    refine ⟨⟨?_, forall_mem_some ?_⟩, hcounters.1.ge, fun hb => ensureOpen_onward _ _ _ _ _ hb,
      fun q hq _ => ensureOpen_isSome _ _ _ _ _ hq⟩
    · simp only [hcounters]
      exact h.current_lt
    · have hseq : seq = w.store.currentSequenceNumber := hon
      cases (w.store.ensureOpen w.disk seq f io.openCalls).1 with
      | some e => trivial
      | none => exact hseq.trans hcounters.1.symm
  | place seq hpc hzero =>
    rw [Writer.OnCurrent, hpc] at hon
    exact .of_same h rfl rfl rfl (fun _ hq => hq) (forall_mem_some hon)
  | append seq f hpc hf hreturns =>
    rw [Writer.OnCurrent, hpc] at hon
    obtain rfl : seq = w.store.currentSequenceNumber := hon
    refine ⟨⟨h.current_lt, forall_mem_some ?_⟩, le_rfl, fun {q b} hb => ?_, fun q hq _ => isSome_setFile w.store _ _ hq⟩
    · unfold Writer.OnCurrent TransactionLogFile.WriteEntriesResult.pc
      cases (f.writeEntries (w.disk.bytes w.store.currentSequenceNumber) wr.batch cfg.maxFileSize
        io.results).error <;> exact trivial
    · by_cases hq : q = w.store.currentSequenceNumber
      · subst hq
        obtain ⟨more, hmore⟩ := writeEntries_bytes f (w.disk.bytes w.store.currentSequenceNumber) wr.batch
          cfg.maxFileSize io.results
        have hbytes : w.disk.bytes w.store.currentSequenceNumber = b := by rw [Disk.bytes, hb, Option.getD_some]
        refine Or.inr ⟨more, ?_, fun hlt => absurd hlt (lt_irrefl _)⟩
        rw [SeqMap.get?_set_self, hmore, hbytes]
      · exact Onward.same ((SeqMap.get?_set_ne _ hq _).trans hb)
  | setNext => exact .of_same h rfl rfl rfl (fun _ hq => hq) (forall_mem_some (outerLoop_onCurrent _ _ _))
  | finish => exact .of_same h rfl rfl rfl (fun _ hq => hq) (forall_mem_some trivial)

end

namespace Life

variable {cfg : StoreConfig} {y y' : Life}

theorem advances_store {s : TransactionLogStore} (h : InSession y.world)
    (hcur : s.currentSequenceNumber = y.world.store.currentSequenceNumber)
    (hnext : s.nextSequenceNumber = y.world.store.nextSequenceNumber)
    (hfiles : ∀ q, (y.world.store.sequenceFiles.get? q).isSome → (s.sequenceFiles.get? q).isSome) :
    Advances y.world (y.withStore s).world := by
  refine Advances.of_same h rfl hcur hnext hfiles fun wr hwr => ?_
  have hon := h.writer wr hwr
  unfold Writer.OnCurrent at hon ⊢
  split at hon
  all_goals first | trivial | exact hon.trans hcur.symm

theorem not_busy_onCurrent {w : World} (h : w.busy = false) (s : TransactionLogStore) :
    ∀ wr ∈ w.writer, wr.OnCurrent s := by
  intro wr hwr
  rw [World.busy, show w.writer = some wr from hwr, Option.map_some, Option.getD_some] at h
  obtain ⟨pc, batch, pos⟩ := wr
  cases pc with
  | tryOpen seq | fixPosition seq | checkAge seq | write seq => cases h
  | _ => trivial

/-- A step of a store that stays open. -/
theorem stepOpen_advances {e : Event} (h : InSession y.world) (hopen' : y'.isOpen = true)
    (hstep : y.stepOpen cfg e = some y') : Advances y.world y'.world := by
  cases e with
  | create => cases hstep
  | beginWrite batch =>
    simp only [stepOpen] at hstep
    split_ifs at hstep
    obtain rfl := Option.some.inj hstep
    simp only [moveTo, RocksdbJs.beginWrite]
    by_cases hclosing : y.world.store.isClosing = true
    · rw [if_pos hclosing]
      exact Advances.of_same h rfl rfl rfl (fun _ hq => hq) fun wr hwr => by obtain rfl := Option.some.inj hwr; trivial
    · rw [if_neg hclosing]
      exact Advances.of_same h rfl rfl rfl (fun _ hq => hq) fun wr hwr => by
        obtain rfl := Option.some.inj hwr; exact outerLoop_onCurrent _ _ _
  | writer io =>
    simp only [stepOpen, stepWriter, Option.map_eq_some_iff, Option.bind_eq_some_iff] at hstep
    obtain ⟨w', ⟨wr, hwr, hw'⟩, rfl⟩ := hstep
    exact writerStep_advances h (h.writer wr hwr) hw'
  | commitFinished position seq =>
    obtain rfl := Option.some.inj hstep
    exact advances_store h rfl rfl fun _ hq => hq
  | commitAborted position =>
    obtain rfl := Option.some.inj hstep
    exact advances_store h rfl rfl fun _ hq => hq
  | flushScan seq =>
    obtain rfl := Option.some.inj hstep
    exact advances_store h rfl rfl fun _ hq => hq
  | flushWrite k =>
    simp only [stepOpen, Option.map_eq_some_iff] at hstep
    obtain ⟨position, -, rfl⟩ := hstep
    obtain ⟨stream, written, state, hr⟩ := writeFlushedPosition_cases y.world.store y.world.disk position
    rw [hr]
    exact Advances.of_same h rfl rfl rfl (fun _ hq => hq) fun wr hwr => h.writer wr hwr
  | getLastCommittedPosition =>
    obtain rfl := Option.some.inj hstep
    obtain ⟨position, hposition⟩ := getLastCommittedPosition_store y.world.store y.world.disk
    rw [hposition]
    exact advances_store h rfl rfl fun _ hq => hq
  | getLogFileSize seq io =>
    obtain rfl := Option.some.inj hstep
    rcases getLogFileSize_spec y.world.store y.world.disk seq io with heq | ⟨f, hf, heq⟩
    · rw [heq]
      exact advances_store h rfl rfl fun _ hq => hq
    · rw [heq]
      have hcounters := ensureOpen_counters y.world.store y.world.disk seq f (io.openCalls seq)
      have hfiles := fun q => ensureOpen_isSome (q := q) y.world.store y.world.disk seq f (io.openCalls seq)
      have hsame := advances_store h hcounters.1 hcounters.2 hfiles
      exact ⟨⟨hsame.session.current_lt, hsame.session.writer⟩, hsame.current_le,
        fun hb => ensureOpen_onward _ _ _ _ _ hb,
        fun q hq _ => hfiles q hq⟩
  | findPosition timestamp io =>
    obtain rfl := Option.some.inj hstep
    obtain ⟨files, hstore, hfiles⟩ := findPosition_store cfg y.world.store y.world.disk timestamp io
    rw [hstore]
    exact advances_store h rfl rfl hfiles
  | purge all before io =>
    simp only [stepOpen] at hstep
    split_ifs at hstep with hbusy
    obtain rfl := Option.some.inj hstep
    obtain ⟨hlt, hcur⟩ := foldl_forgetFile_current (purgedSequences cfg y.world.store y.world.disk all before io)
      h.current_lt
    obtain ⟨hc, hn, -⟩ := doPurge_counters cfg y.world.store y.world.disk all before io
    rw [← hc, ← hn] at hlt
    rw [← hc] at hcur
    have hnext := h.current_lt
    refine ⟨⟨hlt, not_busy_onCurrent (Bool.eq_false_iff.mpr hbusy) _⟩, ?_, fun {q b} hb => ?_, fun q hq hsome => ?_⟩
    · rcases hcur with ⟨hsame, -⟩ | hle
      · exact hsame.ge
      · exact hnext.le.trans hle
    · cases hafter : (doPurge cfg y.world.store y.world.disk all before io).2.logs.get? q with
      | none => exact Or.inl hafter
      | some b' =>
        obtain rfl := Option.some.inj (hb.symm.trans (doPurge_logs hafter))
        exact Onward.same hafter
    · obtain ⟨hfiles, hdisk⟩ := doPurge_cases cfg y.world.store y.world.disk all before io
      change ((doPurge cfg y.world.store y.world.disk all before io).1.sequenceFiles.get? q).isSome
      change ((doPurge cfg y.world.store y.world.disk all before io).2.logs.get? q).isSome at hsome
      rw [hfiles]
      rcases hdisk with hlogs | ⟨hempty, -⟩
      · rw [hlogs] at hsome
        split_ifs at hsome ⊢
        · cases hsome
        · exact hq
      · rw [hempty] at hsome
        cases hsome
  | close io =>
    simp only [stepOpen] at hstep
    split_ifs at hstep
    obtain rfl := Option.some.inj hstep
    cases hopen'
  | crash =>
    obtain rfl := Option.some.inj hstep
    cases hopen'
  | load order io => cases hstep

/-- The end of a store leaves its directory. -/
theorem stepOpen_ends {e : Event} (hopen : y.isOpen = true) (hopen' : y'.isOpen = false)
    (hstep : y.stepOpen cfg e = some y') :
    y'.world.disk = y.world.disk := by
  cases e with
  | close io =>
    simp only [stepOpen] at hstep
    split_ifs at hstep
    obtain rfl := Option.some.inj hstep
    exact (doClose_disk _ _ _ _).1
  | crash =>
    obtain rfl := Option.some.inj hstep
    rfl
  | writer io =>
    simp only [stepOpen, Option.map_eq_some_iff] at hstep
    obtain ⟨w', -, rfl⟩ := hstep
    exact absurd (hopen'.symm.trans hopen) Bool.false_ne_true
  | flushWrite k =>
    simp only [stepOpen, Option.map_eq_some_iff] at hstep
    obtain ⟨position, -, rfl⟩ := hstep
    exact absurd (hopen'.symm.trans hopen) Bool.false_ne_true
  | beginWrite batch =>
    simp only [stepOpen] at hstep
    split_ifs at hstep
    obtain rfl := Option.some.inj hstep
    exact absurd (hopen'.symm.trans hopen) Bool.false_ne_true
  | purge all before io =>
    simp only [stepOpen] at hstep
    split_ifs at hstep
    obtain rfl := Option.some.inj hstep
    exact absurd (hopen'.symm.trans hopen) Bool.false_ne_true
  | create => cases hstep
  | load order io => cases hstep
  | commitFinished position seq | commitAborted position | flushScan seq | getLastCommittedPosition
  | getLogFileSize seq io
  | findPosition timestamp io =>
    obtain rfl := Option.some.inj hstep
    exact absurd (hopen'.symm.trans hopen) Bool.false_ne_true

/-- A store that has just been made or loaded. -/
theorem stepClosed_session {e : Event} (hclosed : y.isOpen = false) (hopen' : y'.isOpen = true)
    (hstep : y.stepClosed cfg e = some y') :
    InSession y'.world := by
  cases e with
  | create =>
    simp only [stepClosed] at hstep
    split_ifs at hstep
    obtain rfl := Option.some.inj hstep
    exact ⟨show (1 : ℕ) < 2 by decide, fun wr hwr => (by cases hwr)⟩
  | load order io =>
    simp only [stepClosed] at hstep
    split_ifs at hstep
    split at hstep
    · rename_i s d hload
      obtain rfl := Option.some.inj hstep
      refine ⟨?_, fun wr hwr => (by cases hwr)⟩
      obtain ⟨hc, hn⟩ := (load_cases cfg y.world.disk order io).1 s (by rw [hload]; rfl)
      change s.currentSequenceNumber < s.nextSequenceNumber
      rw [hc, hn]
      exact scan_current_lt (show (1 : ℕ) < 2 by decide)
    · obtain rfl := Option.some.inj hstep
      exact absurd (hclosed.symm.trans hopen') Bool.false_ne_true
  | _ => cases hstep

end Life

/-- The size of the file is still to be read. -/
def SnapshotCall.Awaits (c : SnapshotCall) (seq : ℕ) : Prop :=
  match c.pc with
  | .readState => True
  | .listFiles => True
  | .sizes rest => seq ∈ rest
  | .returned => False

namespace Backups

theorem mem_stillNamed {d : Disk} {links : List (ℕ × Bytes)} {l : ℕ × Bytes} (h : l ∈ stillNamed d links) :
    d.directory = true ∧ l ∈ links ∧ (d.logs.get? l.1).isSome := by
  unfold stillNamed at h
  split_ifs at h with hdir
  · exact ⟨hdir, List.mem_filter.mp h⟩
  · cases h

/-- A batch of one entry. -/
def smallBatch : List BackupEvent :=
  .life (.beginWrite ⟨⟨5⟩, [oneByteEntry 7], 0⟩) :: List.replicate 8 (.life (.writer { results := [.count 14] }))

end Backups

end RocksdbJs
