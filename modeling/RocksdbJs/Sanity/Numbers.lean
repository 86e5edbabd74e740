import RocksdbJs.Sanity.Lifecycle

/-! The numbers of the log files. While a store is open its current number is at or above
every number there has been, and only the file with that number can come into being. This
needs nothing of the system calls, which may fail in any way. -/

namespace RocksdbJs

open TransactionLogStore
open TransactionLogFile (WriteEntriesResult)

/-- Of all the files only `seq` can have changed, and it only by growing. -/
structure Grows (seq : ℕ) (d d' : Disk) : Prop where
  txnState : d'.txnState = d.txnState
  get?_ne : ∀ q, q ≠ seq → d'.logs.get? q = d.logs.get? q
  kept : ∀ {bytes}, d.logs.get? seq = some bytes → ∃ more, d'.logs.get? seq = some (bytes ++ more)

theorem Grows.refl (seq : ℕ) (d : Disk) : Grows seq d d :=
  ⟨rfl, fun _ _ => rfl, fun {bytes} h => ⟨[], by rw [List.append_nil]; exact h⟩⟩

theorem Grows.isSome {seq q : ℕ} {d d' : Disk} (h : Grows seq d d') (hq : (d.logs.get? q).isSome) :
    (d'.logs.get? q).isSome := by
  by_cases hs : q = seq
  · obtain ⟨bytes, hb⟩ := Option.isSome_iff_exists.mp hq
    obtain ⟨more, hm⟩ := h.kept (hs ▸ hb)
    rw [hs, hm]
    rfl
  · rw [h.get?_ne q hs]
    exact hq

theorem grows_set (d : Disk) {seq : ℕ} {bytes more : Bytes} (dir : Bool) (hb : bytes = d.bytes seq ++ more) :
    Grows seq d { d with logs := d.logs.set seq bytes, directory := dir } := by
  refine ⟨rfl, fun q hq => SeqMap.get?_set_ne _ hq _, fun {old} hold => ⟨more, ?_⟩⟩
  have hold' : d.bytes seq = old := by rw [Disk.bytes, hold]; rfl
  rw [SeqMap.get?_set_self, hb, hold']

/-- `open` leaves the file as it was or puts a header behind it, and an open object has a file. -/
theorem open_grows {f : TransactionLogFile} (disk : Option Bytes) (timestamp : Binary64) (io : OpenCalls)
    (hclosed : f.isOpen = false) :
    ((f.open disk timestamp io).2.2 = disk ∧ (f.open disk timestamp io).2.1.isOpen = false) ∨
      ∃ more, (f.open disk timestamp io).2.2 = some (disk.getD [] ++ more) := by
  unfold TransactionLogFile.open TransactionLogFile.openFile
  cases ho : io.opened with
  | false =>
    simp only [hclosed, Bool.false_eq_true, if_false, Bool.not_false, if_true]
    exact Or.inl ⟨trivial, trivial⟩
  | true =>
    refine Or.inr ?_
    cases hs : io.statted with
    | false =>
      simp only [hclosed, Bool.false_eq_true, if_false, Bool.not_true, Bool.not_false, if_true]
      exact ⟨[], by rw [List.append_nil]⟩
    | true =>
      simp only [hclosed, Bool.false_eq_true, if_false, Bool.not_true, Option.getD_some, TransactionLogFile.readHeader]
      split_ifs
      · exact ⟨_, rfl⟩
      all_goals exact ⟨[], by rw [List.append_nil]⟩

/-- What an open does to the map and the files: an object that is open then has a file. -/
structure OpenGrows (s : TransactionLogStore) (d : Disk) (seq : ℕ) (s' : TransactionLogStore) (d' : Disk) : Prop where
  grows : Grows seq d d'
  store : ∃ files, s' = { s with sequenceFiles := files }
  get?_ne : ∀ q, q ≠ seq → s'.sequenceFiles.get? q = s.sequenceFiles.get? q
  file : (s'.sequenceFiles.get? seq).isSome
  opened : ∀ {f}, s'.sequenceFiles.get? seq = some f → f.isOpen = true → (d'.logs.get? seq).isSome

theorem ensureOpen_grows {s : TransactionLogStore} (d : Disk) {seq : ℕ} {f : TransactionLogFile} (io : OpenCalls)
    (hf : s.sequenceFiles.get? seq = some f) (hopened : f.isOpen = true → (d.logs.get? seq).isSome) :
    OpenGrows s d seq (s.ensureOpen d seq f io).2.1 (s.ensureOpen d seq f io).2.2 := by
  unfold ensureOpen
  cases ho : f.isOpen with
  | true =>
    simp only [if_true]
    refine ⟨Grows.refl _ _, ⟨_, rfl⟩, fun _ _ => rfl, by rw [hf]; rfl, fun {g} hg hgo => ?_⟩
    obtain rfl := Option.some.inj (hf.symm.trans hg)
    exact hopened hgo
  | false =>
    simp only [Bool.false_eq_true, if_false, openLogFile]
    have hset : ∀ g, ((s.setFile seq g).sequenceFiles.get? seq).isSome := by
      intro g
      rw [setFile, SeqMap.get?_set_self]
      rfl
    have hfile : ∀ {g g'}, (s.setFile seq g).sequenceFiles.get? seq = some g' → g' = g := by
      intro g g' hg
      rw [setFile, SeqMap.get?_set_self] at hg
      exact (Option.some.inj hg).symm
    rcases open_grows (d.logs.get? seq) s.latestTimestamp io ho with ⟨hd, hno⟩ | ⟨more, hd⟩
    · rw [hd]
      refine ⟨?_, ⟨_, rfl⟩, fun q hq => SeqMap.get?_set_ne _ hq _, hset _, fun {g} hg hgo => ?_⟩
      · split
        · rename_i bytes hb
          exact grows_set d true (show bytes = d.bytes seq ++ [] by rw [List.append_nil, Disk.bytes, hb]; rfl)
        · exact Grows.refl _ _
      · rw [hfile hg, hno] at hgo
        cases hgo
    · rw [hd]
      refine ⟨grows_set d true rfl, ⟨_, rfl⟩, fun q hq => SeqMap.get?_set_ne _ hq _, hset _, fun _ _ => ?_⟩
      rw [SeqMap.get?_set_self]
      rfl

/-- The store's current number is at or above every number used, and at it only while the
file is there; an open object has a file. -/
structure Numbered (used : List ℕ) (s : TransactionLogStore) (d : Disk) : Prop where
  le : ∀ u ∈ used, u ≤ s.currentSequenceNumber ∧ (u = s.currentSequenceNumber → (d.logs.get? u).isSome)
  current_lt : s.currentSequenceNumber < s.nextSequenceNumber
  current : (d.logs.get? s.currentSequenceNumber).isSome → (s.sequenceFiles.get? s.currentSequenceNumber).isSome
  opened : ∀ {q f}, s.sequenceFiles.get? q = some f → f.isOpen = true → (d.logs.get? q).isSome

/-- The numbers used, once the files of a disk count too. -/
def usedWith (d : Disk) (used : List ℕ) : List ℕ := d.logs.keys ++ used

theorem mem_usedWith {d : Disk} {used : List ℕ} {u : ℕ} : u ∈ usedWith d used ↔ (d.logs.get? u).isSome ∨ u ∈ used := by
  rw [usedWith, List.mem_append, SeqMap.mem_keys_iff, Option.isSome_iff_exists]

/-- Every log file counts as used. -/
def AllUsed (used : List ℕ) (d : Disk) : Prop := ∀ q, (d.logs.get? q).isSome → q ∈ used

/-- Every file that is new has a number above all those used before. -/
def FreshFiles (used : List ℕ) (d d' : Disk) : Prop :=
  ∀ q ∈ d'.logs.keys, d.logs.get? q = none → ∀ u ∈ used, u < q

instance (used : List ℕ) (d d' : Disk) : Decidable (FreshFiles used d d') :=
  inferInstanceAs (Decidable (∀ q ∈ _, _))

/-- The flushed position is none, or in or before a file that there has been, and not past
the end of its file. -/
structure FlushedIn (used : List ℕ) (d : Disk) : Prop where
  number : getLastFlushedPosition d = ⟨0, 0⟩ ∨ ∃ u ∈ used, (getLastFlushedPosition d).logSequenceNumber ≤ u
  length : ∀ {bytes}, d.logs.get? (getLastFlushedPosition d).logSequenceNumber = some bytes →
    (getLastFlushedPosition d).positionInLogFile ≤ bytes.length

section
variable {used : List ℕ} {s s' : TransactionLogStore} {d d' : Disk} {seq : ℕ}

theorem Numbered.new_above (h : Numbered used s d) (hnone : d.logs.get? s.currentSequenceNumber = none) :
    ∀ u ∈ used, u < s.currentSequenceNumber := by
  intro u hu
  obtain ⟨hle, heq⟩ := h.le u hu
  refine lt_of_le_of_ne hle fun he => ?_
  have := heq he
  rw [he, hnone] at this
  cases this

/-- A file may grow; one that is new must be above every number used. -/
theorem Grows.fresh (h : Grows seq d d') (hnew : d.logs.get? seq = none → ∀ u ∈ used, u < seq) :
    FreshFiles used d d' := by
  intro q hq hnone
  by_cases hs : q = seq
  · rw [hs] at hnone ⊢
    exact hnew hnone
  · obtain ⟨bytes, hb⟩ := SeqMap.mem_keys_iff.mp hq
    rw [h.get?_ne q hs, hnone] at hb
    cases hb

theorem Grows.flushedIn (h : Grows seq d d') (hf : FlushedIn used d)
    (hnew : d.logs.get? seq = none → ∀ u ∈ used, u < seq) :
    FlushedIn (usedWith d' used) d' := by
  have hpos : getLastFlushedPosition d' = getLastFlushedPosition d := by
    rw [getLastFlushedPosition, getLastFlushedPosition, h.txnState]
  refine ⟨?_, fun {bytes} hb => ?_⟩
  · rw [hpos]
    exact hf.number.imp_right fun ⟨u, hu, hle⟩ => ⟨u, mem_usedWith.mpr (Or.inr hu), hle⟩
  rw [hpos] at hb ⊢
  by_cases hs : (getLastFlushedPosition d).logSequenceNumber = seq
  · cases hold : d.logs.get? seq with
    | some old =>
      obtain ⟨more, hm⟩ := h.kept hold
      rw [hs, hm] at hb
      obtain rfl := Option.some.inj hb
      have := hf.length (hs ▸ hold)
      rw [List.length_append]
      omega
    | none =>
      rcases hf.number with hz | ⟨u, hu, hle⟩
      · rw [hz]
        exact Nat.zero_le _
      · have := hnew hold u hu
        omega
  · rw [h.get?_ne _ hs] at hb
    exact hf.length hb

theorem allUsed_usedWith (d : Disk) (used : List ℕ) : AllUsed (usedWith d used) d :=
  fun _ hq => mem_usedWith.mpr (Or.inl hq)

/-- An open of a file that is there, or of the current one. -/
theorem OpenGrows.numbered (h : OpenGrows s d seq s' d') (hn : Numbered used s d) (hall : AllUsed used d)
    (hseq : (d.logs.get? seq).isSome ∨ seq = s.currentSequenceNumber) :
    Numbered (usedWith d' used) s' d' ∧ (d.logs.get? seq = none → ∀ u ∈ used, u < seq) := by
  obtain ⟨files, hs⟩ := h.store
  have hcur : s'.currentSequenceNumber = s.currentSequenceNumber := by rw [hs]
  refine ⟨⟨fun u hu => ?_, ?_, fun hsome => ?_, fun {q f} hf ho => ?_⟩, fun hnone => ?_⟩
  · rw [hcur]
    have hof : ∀ {u}, u ∈ used → u ≤ s.currentSequenceNumber ∧
        (u = s.currentSequenceNumber → (d'.logs.get? u).isSome) :=
      fun hu => ⟨(hn.le _ hu).1, fun he => h.grows.isSome ((hn.le _ hu).2 he)⟩
    rcases mem_usedWith.mp hu with hu | hu
    · refine ⟨?_, fun _ => hu⟩
      by_cases hq : u = seq
      · rcases hseq with hold | hc
        · exact (hn.le u (hq ▸ hall seq hold)).1
        · exact (hq.trans hc).le
      · rw [h.grows.get?_ne u hq] at hu
        exact (hn.le u (hall u hu)).1
    · exact hof hu
  · rw [hs]
    exact hn.current_lt
  · rw [hcur] at hsome ⊢
    by_cases hq : s.currentSequenceNumber = seq
    · rw [hq]
      exact h.file
    · rw [h.get?_ne _ hq]
      rw [h.grows.get?_ne _ hq] at hsome
      exact hn.current hsome
  · by_cases hq : q = seq
    · subst hq
      exact h.opened hf ho
    · rw [h.get?_ne q hq] at hf
      exact h.grows.isSome (hn.opened hf ho)
  · rcases hseq with hold | rfl
    · rw [hnone] at hold
      cases hold
    · exact hn.new_above hnone

/-- The store moves on to a number above all. -/
theorem Numbered.advance (h : Numbered used s d) (hall : AllUsed used d) : Numbered used s.advanceSequence d := by
  have hlt := h.current_lt
  refine ⟨fun u hu => ?_, Nat.lt_succ_self _, fun hsome => ?_, h.opened⟩
  · have := (h.le u hu).1
    change u ≤ s.nextSequenceNumber ∧ (u = s.nextSequenceNumber → _)
    refine ⟨by omega, fun he => ?_⟩
    omega
  · have := (h.le _ (hall _ hsome)).1
    change s.nextSequenceNumber ≤ s.currentSequenceNumber at this
    omega

theorem Numbered.congr (h : Numbered used s d) (hfiles : s'.sequenceFiles = s.sequenceFiles)
    (hcur : s'.currentSequenceNumber = s.currentSequenceNumber) (hnext : s'.nextSequenceNumber = s.nextSequenceNumber)
    (hlogs : d'.logs = d.logs) : Numbered used s' d' := by
  refine ⟨?_, ?_, ?_, ?_⟩
  all_goals simp only [hfiles, hcur, hnext, hlogs]
  · exact h.le
  · exact h.current_lt
  · exact h.current
  · exact h.opened

/-- The files of the disk counted once more. -/
theorem Numbered.withFiles (h : Numbered used s d) (hall : AllUsed used d) : Numbered (usedWith d used) s d :=
  ⟨fun u hu => (mem_usedWith.mp hu).elim (fun hs => h.le u (hall u hs)) (h.le u), h.current_lt, h.current, h.opened⟩

theorem FlushedIn.withFiles (h : FlushedIn used d) : FlushedIn (usedWith d used) d :=
  ⟨h.number.imp_right fun ⟨u, hu, hle⟩ => ⟨u, mem_usedWith.mpr (Or.inr hu), hle⟩, h.length⟩

theorem freshFiles_of_subset (h : ∀ q, (d'.logs.get? q).isSome → (d.logs.get? q).isSome) : FreshFiles used d d' := by
  intro q hq hnone
  have hsome := h q (Option.isSome_iff_exists.mpr (SeqMap.mem_keys_iff.mp hq))
  rw [hnone] at hsome
  cases hsome

theorem freshFiles_of_logs (hlogs : d'.logs = d.logs) : FreshFiles used d d' :=
  freshFiles_of_subset fun q hq => by rw [← hlogs]; exact hq

end

/-- What the writer holds: the current file, which it has found open. -/
def Writer.AtCurrent (s : TransactionLogStore) (d : Disk) (wr : Writer) : Prop :=
  match wr.pc with
  | .tryOpen seq => seq = s.currentSequenceNumber
  | .fixPosition seq => seq = s.currentSequenceNumber ∧ (d.logs.get? seq).isSome
  | .checkAge seq => seq = s.currentSequenceNumber ∧ (d.logs.get? seq).isSome
  | .write seq => seq = s.currentSequenceNumber ∧ (d.logs.get? seq).isSome
  | _ => True

theorem Writer.AtCurrent.mono {s s' : TransactionLogStore} {d d' : Disk} {wr : Writer} (h : wr.AtCurrent s d)
    (hcur : s'.currentSequenceNumber = s.currentSequenceNumber)
    (hkept : ∀ q, (d.logs.get? q).isSome → (d'.logs.get? q).isSome) : wr.AtCurrent s' d' := by
  obtain ⟨pc, batch, pos⟩ := wr
  cases pc <;> first
    | trivial
    | exact h.trans hcur.symm
    | exact ⟨h.1.trans hcur.symm, hkept _ h.2⟩

theorem not_busy_atCurrent {w : World} (h : w.busy = false) (s : TransactionLogStore) (d : Disk) :
    ∀ wr ∈ w.writer, wr.AtCurrent s d := by
  intro wr hwr
  rw [World.busy, show w.writer = some wr from hwr, Option.map_some, Option.getD_some] at h
  obtain ⟨pc, batch, pos⟩ := wr
  cases pc <;> trivial

theorem outerLoop_atCurrent (s : TransactionLogStore) (d : Disk) (b : TransactionLogEntryBatch) (p : LogPosition) :
    Writer.AtCurrent s d ⟨outerLoop b, b, p⟩ := by
  unfold outerLoop
  split_ifs <;> trivial

/-- A step of the store and its writer on numbered files: they stay so, one file may grow, and
if it is new it is above all before. -/
structure NumberedStep (used : List ℕ) (w w' : World) : Prop where
  numbered : Numbered (usedWith w'.disk used) w'.store w'.disk
  writer : ∀ wr' ∈ w'.writer, wr'.AtCurrent w'.store w'.disk
  grows : ∃ seq, Grows seq w.disk w'.disk ∧ (w.disk.logs.get? seq = none → ∀ u ∈ used, u < seq)

theorem NumberedStep.fresh {used : List ℕ} {w w' : World} (h : NumberedStep used w w') :
    FreshFiles used w.disk w'.disk := by
  obtain ⟨seq, hg, hnew⟩ := h.grows
  exact hg.fresh hnew

theorem NumberedStep.flushed {used : List ℕ} {w w' : World} (h : NumberedStep used w w') (hf : FlushedIn used w.disk) :
    FlushedIn (usedWith w'.disk used) w'.disk := by
  obtain ⟨seq, hg, hnew⟩ := h.grows
  exact hg.flushedIn hf hnew

/-- The places the writer's step from `w` to `w'` appends entries at. -/
def World.appends (w w' : World) : List LogPosition :=
  match w.writer, w'.writer with
  | some wr, some wr' => wr.appends wr' w.disk
  | _, _ => []

theorem entryLocations_mem {seq : ℕ} : ∀ {rs : List LogRecord} {offset : ℕ}, ∀ l ∈ entryLocations seq offset rs,
    l.logSequenceNumber = seq ∧ offset ≤ l.positionInLogFile := by
  intro rs
  induction rs with
  | nil => intro offset l hl; cases hl
  | cons r rs ih =>
    intro offset l hl
    rcases List.mem_cons.mp hl with rfl | hl
    · exact ⟨rfl, le_rfl⟩
    · obtain ⟨h1, h2⟩ := ih l hl
      exact ⟨h1, by omega⟩

/-- The bytes that `writeEntries` leaves begin with those it found. -/
theorem writeEntries_bytes (f : TransactionLogFile) (bytes : Bytes) (batch : TransactionLogEntryBatch) (maxFileSize : ℕ)
    (results : List WritevResult) : ∃ more, (f.writeEntries bytes batch maxFileSize results).bytes = bytes ++ more := by
  simp only [TransactionLogFile.writeEntries, TransactionLogFile.writeEntriesV1]
  split_ifs
  · exact ⟨[], (List.append_nil _).symm⟩
  · split <;> exact ⟨_, rfl⟩
  · exact ⟨[], (List.append_nil _).symm⟩

section
variable {cfg : StoreConfig} {used : List ℕ} {w w' : World} {wr : Writer} {io : WriterCalls}

/-- A step that leaves the files alone. -/
theorem NumberedStep.of_logs (hn : Numbered used w'.store w'.disk) (hall : AllUsed used w.disk)
    (hlogs : w'.disk.logs = w.disk.logs) (ht : w'.disk.txnState = w.disk.txnState)
    (hwr : ∀ wr' ∈ w'.writer, wr'.AtCurrent w'.store w'.disk) : NumberedStep used w w' := by
  have hall' : AllUsed used w'.disk := fun q hq => hall q (by rw [← hlogs]; exact hq)
  refine ⟨hn.withFiles hall', hwr, w'.store.nextSequenceNumber,
    ⟨ht, fun q _ => by rw [hlogs], fun {bytes} hb => ⟨[], ?_⟩⟩,
    fun _ u hu => ?_⟩
  · rw [hlogs, List.append_nil]
    exact hb
  · have := (hn.le u hu).1
    have := hn.current_lt
    omega

theorem WriterRotates.atCurrent {pc : WriterPc} (h : WriterRotates cfg w wr io pc)
    (s : TransactionLogStore) (d : Disk) :
    ({ wr with pc } : Writer).AtCurrent s d := by
  cases h with
  | inner => exact trivial
  | old => exact outerLoop_atCurrent _ _ _ _
  | outer => exact trivial

theorem WriterTurns.atCurrent {pc : WriterPc} (h : WriterTurns cfg w wr io pc) (hwr : wr.AtCurrent w.store w.disk) :
    ({ wr with pc } : Writer).AtCurrent w.store w.disk := by
  cases h with
  | full => exact trivial
  | placed seq hpc =>
    rw [Writer.AtCurrent, hpc] at hwr
    exact hwr
  | young seq f hpc =>
    rw [Writer.AtCurrent, hpc] at hwr
    exact hwr
  | stays => exact trivial

theorem afterWrite_atCurrent (r : WriteEntriesResult) (seq sizeBefore : ℕ) (b : TransactionLogEntryBatch)
    (p : LogPosition) (s : TransactionLogStore) (d : Disk) :
    Writer.AtCurrent s d ⟨r.pc seq sizeBefore, b, p⟩ := by
  unfold Writer.AtCurrent WriteEntriesResult.pc
  cases r.error <;> exact trivial

theorem writerStep_numbered (hn : Numbered used w.store w.disk) (hall : AllUsed used w.disk)
    (hwr : wr.AtCurrent w.store w.disk) (h : writerStep cfg w wr io = some w') : NumberedStep used w w' := by
  cases writerStep_move h with
  | turn pc hturns => exact .of_logs hn hall rfl rfl (forall_mem_some (hturns.atCurrent hwr))
  | rotate pc hrotates => exact .of_logs (hn.advance hall) hall rfl rfl (forall_mem_some (hrotates.atCurrent _ _))
  | get hpc =>
    unfold getLogFile
    split
    · exact .of_logs hn hall rfl rfl (forall_mem_some rfl)
    · refine .of_logs ⟨hn.le, hn.current_lt, fun _ => ?_, fun {q f} hq ho => ?_⟩ hall rfl rfl (forall_mem_some rfl)
      · rw [SeqMap.get?_set_self]
        rfl
      · simp only [SeqMap.get?_set] at hq
        split_ifs at hq
        · obtain rfl := Option.some.inj hq
          cases ho
        · exact hn.opened hq ho
  | opens seq f hpc hfile hroom =>
    rw [Writer.AtCurrent, hpc] at hwr
    obtain rfl : seq = w.store.currentSequenceNumber := hwr
    have hop := ensureOpen_grows w.disk io.openCalls hfile (hn.opened hfile)
    obtain ⟨hn', hnew⟩ := hop.numbered hn hall (Or.inr rfl)
    refine ⟨hn', forall_mem_some ?_, _, hop.grows, hnew⟩
    cases hr : (w.store.ensureOpen w.disk w.store.currentSequenceNumber f io.openCalls).1 with
    | some e => exact trivial
    | none =>
      obtain ⟨files, hs⟩ := hop.store
      obtain ⟨g, hg⟩ := Option.isSome_iff_exists.mp hop.file
      refine ⟨by rw [hs], hop.opened hg (ensureOpen_isOpen hfile hr hg)⟩
  | place seq hpc hzero =>
    rw [Writer.AtCurrent, hpc] at hwr
    exact .of_logs (hn.congr rfl rfl rfl rfl) hall rfl rfl (forall_mem_some hwr)
  | append seq f hpc hfile hreturns =>
    rw [Writer.AtCurrent, hpc] at hwr
    obtain ⟨rfl, hthere⟩ := hwr
    obtain ⟨more, hmore⟩ := writeEntries_bytes f (w.disk.bytes w.store.currentSequenceNumber) wr.batch
      cfg.maxFileSize io.results
    have hg := grows_set w.disk w.disk.directory hmore
    have hnew : w.disk.logs.get? w.store.currentSequenceNumber = none → ∀ u ∈ used, u < w.store.currentSequenceNumber :=
      fun hnone => by rw [hnone] at hthere; cases hthere
    refine ⟨⟨fun u hu => ?_, hn.current_lt, fun _ => ?_, fun {q g} hq ho => ?_⟩,
      forall_mem_some (afterWrite_atCurrent _ _ _ _ _ _ _), _, hg, hnew⟩
    · rcases mem_usedWith.mp hu with hu' | hu'
      · refine ⟨?_, fun _ => hu'⟩
        change ((w.disk.logs.set _ _).get? u).isSome at hu'
        rw [SeqMap.get?_set] at hu'
        split_ifs at hu' with hq
        · exact hq.le
        · exact (hn.le u (hall u hu')).1
      · exact ⟨(hn.le u hu').1, fun he => hg.isSome ((hn.le u hu').2 he)⟩
    · change ((w.store.sequenceFiles.set w.store.currentSequenceNumber _).get? w.store.currentSequenceNumber).isSome
      rw [SeqMap.get?_set_self]
      rfl
    · by_cases hqs : q = w.store.currentSequenceNumber
      · exact hg.isSome (hqs ▸ hthere)
      · exact hg.isSome (hn.opened ((SeqMap.get?_set_ne _ hqs _).symm.trans hq) ho)
  | setNext => exact .of_logs (hn.congr rfl rfl rfl rfl) hall rfl rfl (forall_mem_some (outerLoop_atCurrent _ _ _ _))
  | finish => exact .of_logs (hn.congr rfl rfl rfl rfl) hall rfl rfl (forall_mem_some trivial)

/-- The writer appends at the end of the current file, where or after which the flushed
position cannot be. -/
theorem appends_after {wr' : Writer} (hn : Numbered used w.store w.disk) (hf : FlushedIn used w.disk)
    (hwr : wr.AtCurrent w.store w.disk) : ∀ l ∈ wr.appends wr' w.disk, getLastFlushedPosition w.disk ≤ l := by
  obtain ⟨pc, batch, pos⟩ := wr
  intro l hl
  cases pc with
  | write seq =>
    obtain ⟨rfl, hthere⟩ := hwr
    obtain ⟨bytes, hbytes⟩ := Option.isSome_iff_exists.mp hthere
    obtain ⟨hs, hpos⟩ := entryLocations_mem l hl
    rw [LogPosition.le_iff, hs]
    rcases hf.number with hz | ⟨u, hu, hle⟩
    · rw [hz]
      rcases Nat.eq_zero_or_pos w.store.currentSequenceNumber with h0 | h0
      · exact Or.inr ⟨h0.symm, Nat.zero_le _⟩
      · exact Or.inl h0
    · rcases lt_or_eq_of_le (hle.trans (hn.le u hu).1) with hlt | heq
      · exact Or.inl hlt
      · have hlen := hf.length (heq ▸ hbytes)
        rw [Disk.bytes, hbytes, Option.getD_some] at hpos
        exact Or.inr ⟨heq, hlen.trans hpos⟩
  | _ => cases hl

end

section Purge
variable {cfg : StoreConfig} {used : List ℕ} {s : TransactionLogStore} {d : Disk}

/-- A purge leaves the current file, or moves the store on. -/
theorem foldl_forgetFile_current (l : List ℕ) {s : TransactionLogStore}
    (h : s.currentSequenceNumber < s.nextSequenceNumber) :
    let s' := l.foldl forgetFile s
    s'.currentSequenceNumber < s'.nextSequenceNumber ∧
      ((s'.currentSequenceNumber = s.currentSequenceNumber ∧ s.currentSequenceNumber ∉ l) ∨
        s.nextSequenceNumber ≤ s'.currentSequenceNumber) := by
  induction l generalizing s with
  | nil => exact ⟨h, Or.inl ⟨rfl, List.not_mem_nil⟩⟩
  | cons seq l ih =>
    rw [List.foldl_cons]
    by_cases hseq : seq = s.currentSequenceNumber
    · have hs : (s.forgetFile seq).currentSequenceNumber = s.nextSequenceNumber ∧
          (s.forgetFile seq).nextSequenceNumber = s.nextSequenceNumber + 1 := by
        unfold forgetFile
        rw [if_pos hseq]
        exact ⟨rfl, rfl⟩
      obtain ⟨h1, h2⟩ := ih (by rw [hs.1, hs.2]; exact Nat.lt_succ_self _)
      rw [hs.1, hs.2] at h2
      refine ⟨h1, Or.inr ?_⟩
      omega
    · have hs : (s.forgetFile seq).currentSequenceNumber = s.currentSequenceNumber ∧
          (s.forgetFile seq).nextSequenceNumber = s.nextSequenceNumber := by
        unfold forgetFile
        rw [if_neg hseq]
        exact ⟨rfl, rfl⟩
      obtain ⟨h1, h2⟩ := ih (by rw [hs.1, hs.2]; exact h)
      rw [hs.1, hs.2] at h2
      refine ⟨h1, h2.imp_left fun ⟨he, hn⟩ => ⟨he, fun hm => ?_⟩⟩
      rcases List.mem_cons.mp hm with hm | hm
      · exact hseq hm.symm
      · exact hn hm

/-- What `doPurge` does to the counters and to `txn.state`. -/
theorem doPurge_counters (cfg : StoreConfig) (s : TransactionLogStore) (d : Disk) (all : Bool)
    (before : ℕ) (io : FilesCalls) :
    let r := doPurge cfg s d all before io
    let s' := (purgedSequences cfg s d all before io).foldl forgetFile s
    r.1.currentSequenceNumber = s'.currentSequenceNumber ∧ r.1.nextSequenceNumber = s'.nextSequenceNumber ∧
      (r.2.txnState = d.txnState ∨ (r.2.txnState = none ∧ r.2.logs = SeqMap.empty)) := by
  simp only [doPurge]
  split
  · exact ⟨rfl, rfl, Or.inr ⟨rfl, rfl⟩⟩
  · exact ⟨rfl, rfl, Or.inl rfl⟩

/-- A purge changes no file that it leaves. -/
theorem doPurge_logs {all : Bool} {before : ℕ} {io : FilesCalls} {q : ℕ} {bytes : Bytes}
    (h : (doPurge cfg s d all before io).2.logs.get? q = some bytes) : d.logs.get? q = some bytes := by
  rcases (doPurge_cases cfg s d all before io).2 with hlogs | ⟨hempty, -⟩
  · rw [hlogs] at h
    split_ifs at h
    exact h
  · rw [hempty] at h
    cases h

theorem doPurge_logs_isSome {all : Bool} {before : ℕ} {io : FilesCalls} {q : ℕ}
    (h : ((doPurge cfg s d all before io).2.logs.get? q).isSome) : (d.logs.get? q).isSome := by
  obtain ⟨bytes, hb⟩ := Option.isSome_iff_exists.mp h
  rw [doPurge_logs hb]
  rfl

/-- A file that a purge leaves registered is as it was, on disk too. -/
theorem doPurge_file {all : Bool} {before : ℕ} {io : FilesCalls} {q : ℕ} {f : TransactionLogFile}
    (h : (doPurge cfg s d all before io).1.sequenceFiles.get? q = some f) :
    s.sequenceFiles.get? q = some f ∧ (doPurge cfg s d all before io).2.logs.get? q = d.logs.get? q := by
  obtain ⟨hfiles, hdisk⟩ := doPurge_cases cfg s d all before io
  have hq := h
  rw [hfiles] at hq
  split_ifs at hq with hmem
  refine ⟨hq, ?_⟩
  rcases hdisk with hlogs | ⟨-, hgone⟩
  · rw [hlogs, if_neg hmem]
  · rw [hgone q] at h
    cases h

theorem doPurge_numbered (cfg : StoreConfig) (h : Numbered used s d) (hall : AllUsed used d) (all : Bool)
    (before : ℕ) (io : FilesCalls) :
    Numbered used (doPurge cfg s d all before io).1 (doPurge cfg s d all before io).2 := by
  obtain ⟨hfiles, hdisk⟩ := doPurge_cases cfg s d all before io
  obtain ⟨hlt, hcur⟩ := foldl_forgetFile_current (purgedSequences cfg s d all before io) h.current_lt
  obtain ⟨hc, hx, -⟩ := doPurge_counters cfg s d all before io
  rw [← hc, ← hx] at hlt
  rw [← hc] at hcur
  have hnext := h.current_lt
  refine ⟨fun u hu => ?_, hlt, fun hsome => ?_, fun {q f} hq ho => ?_⟩
  · obtain ⟨hle, heq⟩ := h.le u hu
    rcases hcur with ⟨he, hmem⟩ | hge
    · rw [he]
      refine ⟨hle, fun hu' => ?_⟩
      have hthere := heq hu'
      rcases hdisk with hlogs | ⟨-, hgone⟩
      · rw [hlogs, if_neg (hu' ▸ hmem)]
        exact hthere
      · -- the directory is removed only when no file is registered any more
        have hreg := h.current (hu' ▸ hthere)
        have hno := hgone s.currentSequenceNumber
        rw [hfiles, if_neg hmem] at hno
        rw [hno] at hreg
        cases hreg
    · exact ⟨by omega, fun he => by omega⟩
  · rcases hcur with ⟨he, hmem⟩ | hge
    · rw [he] at hsome ⊢
      rw [hfiles, if_neg hmem]
      exact h.current (doPurge_logs_isSome hsome)
    · have := (h.le _ (hall _ (doPurge_logs_isSome hsome))).1
      omega
  · obtain ⟨hq', hlogs⟩ := doPurge_file hq
    rw [hlogs]
    exact h.opened hq' ho

theorem doPurge_flushedIn (cfg : StoreConfig) (s : TransactionLogStore) (hf : FlushedIn used d)
    (all : Bool) (before : ℕ) (io : FilesCalls) :
    FlushedIn used (doPurge cfg s d all before io).2 := by
  rcases (doPurge_counters cfg s d all before io).2.2 with ht | ⟨ht, hempty⟩
  · have hpos : getLastFlushedPosition (doPurge cfg s d all before io).2 = getLastFlushedPosition d := by
      rw [getLastFlushedPosition, getLastFlushedPosition, ht]
    refine ⟨by rw [hpos]; exact hf.number, fun {bytes} hb => ?_⟩
    rw [hpos] at hb ⊢
    exact hf.length (doPurge_logs hb)
  · refine ⟨Or.inl (by rw [getLastFlushedPosition, ht]; rfl), fun {bytes} hb => ?_⟩
    rw [hempty] at hb
    cases hb

end Purge

section Load

/-- From `pos` on, complete frames with a timestamp and a payload follow each other up to
`target` or beyond. -/
def framesReach (data : Bytes) (fileSize target : ℕ) : ℕ → ℕ → Bool
  | 0, pos => decide (target ≤ pos)
  | fuel + 1, pos => decide (target ≤ pos) ||
      (frameFits data pos fileSize && framesReach data fileSize target fuel (frameEnd data pos))

theorem frameFits_end {data : Bytes} {pos fileSize : ℕ} (hlt : fileSize < UINT32_RANGE)
    (h : frameFits data pos fileSize = true) :
    frameEnd data pos = pos + TRANSACTION_LOG_ENTRY_HEADER_SIZE + readUint32BE data (pos + 8) ∧
      frameEnd data pos ≤ fileSize ∧ (readDoubleBE data pos).isZero = false ∧ readUint32BE data (pos + 8) ≠ 0 := by
  simp only [frameFits] at h
  split_ifs at h with h1 h2 h3
  rw [decide_eq_true_eq] at h
  have hend : frameEnd data pos = pos + TRANSACTION_LOG_ENTRY_HEADER_SIZE + readUint32BE data (pos + 8) := by
    unfold frameEnd add32
    rw [Nat.mod_eq_of_lt (a := TRANSACTION_LOG_ENTRY_HEADER_SIZE + _) (by omega), Nat.mod_eq_of_lt (by omega),
      Nat.add_assoc]
  exact ⟨hend, hend ▸ h, Bool.eq_false_iff.mpr h2, h3⟩

/-- The scan never goes back. -/
theorem scanLoop_ge {data : Bytes} {fileSize : ℕ} (hlt : fileSize < UINT32_RANGE) :
    ∀ {fuel pos : ℕ}, pos ≤ fileSize → pos ≤ (scanLoop data fileSize fuel pos).validEnd := by
  intro fuel
  induction fuel with
  | zero => exact fun _ => le_rfl
  | succ fuel ih =>
    intro pos hpos
    simp only [scanLoop]
    split_ifs with h1 h2 h3 h4 h5
    · exact hpos
    · exact le_rfl
    · exact le_rfl
    · exact le_rfl
    · exact le_rfl
    · have hfits : frameFits data pos fileSize = true := by
        obtain ⟨h6, h7⟩ := not_or.mp h4
        simp only [frameFits, if_neg h2, if_neg h3, if_neg h6, decide_eq_true_eq]
        exact not_lt.mp h7
      obtain ⟨hend, hle, -⟩ := frameFits_end hlt hfits
      exact le_trans (by omega) (ih hle)

/-- The scan cuts nothing of such frames. -/
theorem scanLoop_reach {data : Bytes} {fileSize target : ℕ} (hlt : fileSize < UINT32_RANGE) :
    ∀ {fuel fuel' pos : ℕ}, framesReach data fileSize target fuel pos = true → pos ≤ fileSize → fileSize < pos + fuel' →
      target ≤ (scanLoop data fileSize fuel' pos).validEnd := by
  intro fuel
  induction fuel with
  | zero =>
    intro fuel' pos h hpos _
    rw [framesReach, decide_eq_true_eq] at h
    exact h.trans (scanLoop_ge hlt hpos)
  | succ fuel ih =>
    intro fuel' pos h hpos hfuel
    rw [framesReach, Bool.or_eq_true, decide_eq_true_eq, Bool.and_eq_true] at h
    rcases h with h | ⟨hfits, hreach⟩
    · exact h.trans (scanLoop_ge hlt hpos)
    · obtain ⟨hend, hle, hts, hlen⟩ := frameFits_end hlt hfits
      cases fuel' with
      | zero => omega
      | succ fuel' =>
        have h13 : TRANSACTION_LOG_ENTRY_HEADER_SIZE = 13 := rfl
        rw [scanLoop, if_neg (by omega), if_neg (by omega), if_neg (by rw [hts]; exact Bool.false_ne_true),
          if_neg (by omega)]
        exact ih hreach hle (by omega)

/-- The file's header is one that `open` accepts, or still to be written. -/
def ValidHeader (bytes : Bytes) : Prop :=
  bytes = [] ∨ (TRANSACTION_LOG_FILE_HEADER_SIZE ≤ bytes.length ∧ readUint32BE bytes 0 = TRANSACTION_LOG_TOKEN ∧
    readUint8 bytes 4 = 1)

instance (bytes : Bytes) : Decidable (ValidHeader bytes) := inferInstanceAs (Decidable (_ ∨ _))

/-- The newest file is listed and not expired, it can be opened, and its frames are complete up
to the flushed position. -/
structure NewestKept (cfg : StoreConfig) (io : FilesCalls) (d : Disk) (order : List ℕ) (newest : ℕ) : Prop where
  pos : 0 < newest
  mem : newest ∈ order
  kept : expired cfg io newest = false ∧ (0 < cfg.retentionMs → (io.mtime newest).isSome)
  opens : (io.openCalls newest).opened = true ∧ (io.openCalls newest).statted = true ∧
    (io.openCalls newest).readable = true
  header : ValidHeader (d.bytes newest)
  below : (d.bytes newest).length < UINT32_RANGE
  frames : (getLastFlushedPosition d).logSequenceNumber = newest →
    framesReach (d.bytes newest) (d.bytes newest).length (getLastFlushedPosition d).positionInLogFile
      (d.bytes newest).length TRANSACTION_LOG_FILE_HEADER_SIZE = true

/-- The newest file once it is open. -/
theorem open_newest {f : TransactionLogFile} (disk : Option Bytes) (timestamp : Binary64) {o : OpenCalls}
    (hclosed : f.isOpen = false) (hv : f.version = 1)
    (ho : o.opened = true ∧ o.statted = true ∧ o.readable = true) (hh : ValidHeader (disk.getD []))
    (hlt : (disk.getD []).length < UINT32_RANGE) :
    (f.open disk timestamp o).1 = none ∧ (f.open disk timestamp o).2.1.isOpen = true ∧
      (f.open disk timestamp o).2.1.version = 1 ∧ (disk.getD []).length ≤ (f.open disk timestamp o).2.1.size ∧
      ((f.open disk timestamp o).2.1.size ≤ TRANSACTION_LOG_FILE_HEADER_SIZE ∨
        ((f.open disk timestamp o).2.1.size = (disk.getD []).length ∧
          (f.open disk timestamp o).2.2 = some (disk.getD []))) := by
  obtain ⟨h1, h2, h3⟩ := ho
  rcases hh with hnil | ⟨hlen, htoken, hversion⟩
  · simp only [TransactionLogFile.open, TransactionLogFile.openFile, hclosed, h1, h2, Bool.not_true, Bool.false_eq_true,
      if_false, hnil, List.length_nil, Nat.zero_mod, TransactionLogFile.readHeader, Option.getD_some, if_true]
    exact ⟨trivial, trivial, hv, Nat.zero_le _, Or.inl le_rfl⟩
  · have h13 : TRANSACTION_LOG_FILE_HEADER_SIZE = 13 := rfl
    have hne : (disk.getD []).length ≠ 0 := by omega
    simp only [TransactionLogFile.open, TransactionLogFile.openFile, hclosed, h1, h2, h3, Bool.not_true,
      Bool.false_eq_true,
      if_false, Option.getD_some, Nat.mod_eq_of_lt hlt, TransactionLogFile.readHeader, hne,
      not_lt.mpr hlen, htoken, hversion,
      ne_eq, not_true_eq_false]
    exact ⟨trivial, trivial, trivial, le_rfl, Or.inr ⟨trivial, trivial⟩⟩

/-- The newest file's object, right about what it found. -/
structure NewestOpen (d0 d : Disk) (newest : ℕ) (f : TransactionLogFile) : Prop where
  isOpen : f.isOpen = true
  version : f.version = 1
  size_ge : (d0.bytes newest).length ≤ f.size
  size : f.size ≤ TRANSACTION_LOG_FILE_HEADER_SIZE ∨
    (f.size = (d0.bytes newest).length ∧ d.logs.get? newest = some (d0.bytes newest))

/-- The scan with `todo` still to come: it makes no file, and once it has met the newest that
one is current. -/
structure ScanTop (d0 : Disk) (newest : ℕ) (todo : List ℕ) (s : TransactionLogStore) (d : Disk) : Prop where
  current_le : s.currentSequenceNumber ≤ newest
  current_lt : s.currentSequenceNumber < s.nextSequenceNumber
  file : ∀ {q f}, s.sequenceFiles.get? q = some f → q ∉ todo ∧ (d.logs.get? q).isSome
  logs : ∀ {q bytes}, d.logs.get? q = some bytes → (d0.logs.get? q).isSome ∧ ∃ more, bytes = d0.bytes q ++ more
  unmet : ∀ q ∈ todo, d.logs.get? q = d0.logs.get? q
  txnState : d.txnState = d0.txnState
  top : newest ∉ todo → s.currentSequenceNumber = newest ∧
    ∃ f, s.sequenceFiles.get? newest = some f ∧ NewestOpen d0 d newest f

variable {cfg : StoreConfig} {io : FilesCalls} {d0 d d' : Disk} {s s' : TransactionLogStore}
    {newest seq : ℕ} {todo order : List ℕ}

/-- What the scan leaves of the files when it opens one of them. -/
theorem ScanTop.grow (h : ScanTop d0 newest (seq :: todo) s d) (hnew : seq ∉ todo) (hthere : (d0.logs.get? seq).isSome)
    (hg : Grows seq d d') :
    (∀ {q bytes}, d'.logs.get? q = some bytes → (d0.logs.get? q).isSome ∧ ∃ more, bytes = d0.bytes q ++ more) ∧
      (∀ q ∈ todo, d'.logs.get? q = d0.logs.get? q) ∧ d'.txnState = d0.txnState ∧ (d'.logs.get? seq).isSome := by
  obtain ⟨old, hold⟩ := Option.isSome_iff_exists.mp hthere
  have hseq : d.logs.get? seq = some old := (h.unmet seq List.mem_cons_self).trans hold
  obtain ⟨more, hmore⟩ := hg.kept hseq
  refine ⟨fun {q bytes} hb => ?_, fun q hq => ?_, hg.txnState.trans h.txnState, by rw [hmore]; rfl⟩
  · by_cases hq : q = seq
    · rw [hq, hmore] at hb
      obtain rfl := Option.some.inj hb
      refine ⟨by rw [hq]; exact hthere, more, ?_⟩
      rw [hq, Disk.bytes, hold, Option.getD_some]
    · rw [hg.get?_ne q hq] at hb
      exact h.logs hb
  · have hne : q ≠ seq := fun he => hnew (he ▸ hq)
    rw [hg.get?_ne q hne]
    exact h.unmet q (List.mem_cons_of_mem _ hq)

theorem ScanTop.skip (h : ScanTop d0 newest (seq :: todo) s d) (hne : seq ≠ newest) : ScanTop d0 newest todo s d := by
  refine ⟨h.current_le, h.current_lt, fun hf => ?_, h.logs, fun q hq => h.unmet q (List.mem_cons_of_mem _ hq),
    h.txnState,
    fun hn => h.top ?_⟩
  · obtain ⟨h1, h2⟩ := h.file hf
    exact ⟨fun hm => h1 (List.mem_cons_of_mem _ hm), h2⟩
  · intro hm
    rcases List.mem_cons.mp hm with he | hm
    · exact hne he.symm
    · exact hn hm

theorem ScanTop.remove (h : ScanTop d0 newest (seq :: todo) s d) (hne : seq ≠ newest) (hnew : seq ∉ todo) :
    ScanTop d0 newest todo s { d with logs := d.logs.erase seq } := by
  have hskip := h.skip hne
  have hget : ∀ q, q ≠ seq → (d.logs.erase seq).get? q = d.logs.get? q := fun q hq => by
    rw [SeqMap.get?_erase, if_neg hq]
  refine ⟨h.current_le, h.current_lt, fun {q f} hf => ?_, fun {q bytes} hb => ?_, fun q hq => ?_,
    h.txnState, fun hn => ?_⟩
  · have hq : q ≠ seq := fun he => (h.file hf).1 (he ▸ List.mem_cons_self)
    exact ⟨(hskip.file hf).1, by rw [hget q hq]; exact (h.file hf).2⟩
  · simp only [SeqMap.get?_erase] at hb
    split_ifs at hb
    exact h.logs hb
  · have hq' : q ≠ seq := fun he => hnew (he ▸ hq)
    exact (hget q hq').trans (hskip.unmet q hq)
  · obtain ⟨hc, f, hf, ho⟩ := hskip.top hn
    exact ⟨hc, f, hf, ho.isOpen, ho.version, ho.size_ge, ho.size.imp_right fun ⟨h1, h2⟩ =>
      ⟨h1, (hget _ hne.symm).trans h2⟩⟩

theorem ScanTop.register (h : ScanTop d0 newest (seq :: todo) s d) (hnew : seq ∉ todo)
    (hthere : (d0.logs.get? seq).isSome) (hle : seq ≤ newest) (hkept : NewestKept cfg io d0 order newest) :
    ScanTop d0 newest todo (s.registerLogFile d seq io).1 (s.registerLogFile d seq io).2 := by
  simp only [registerLogFile]
  set f : TransactionLogFile := { sequenceNumber := seq, fileLastWriteTime := (io.mtime seq).getD io.now } with hfdef
  have hf : (s.setFile seq f).sequenceFiles.get? seq = some f := SeqMap.get?_set_self _ _ _
  have hfiles : ∀ {q g}, q ≠ seq → (s.setFile seq f).sequenceFiles.get? q = some g →
      q ∉ todo ∧ (d.logs.get? q).isSome := by
    intro q g hq hg
    obtain ⟨h1, h2⟩ := h.file ((SeqMap.get?_set_ne _ hq _).symm.trans hg)
    exact ⟨fun hm => h1 (List.mem_cons_of_mem _ hm), h2⟩
  by_cases hcur : s.currentSequenceNumber ≤ seq
  · rw [if_pos (show (s.setFile seq f).currentSequenceNumber ≤ seq from hcur)]
    have hop := ensureOpen_grows d (io.openCalls seq) hf (fun ho => by cases ho)
    obtain ⟨hlogs, htodo, htxn, hseq⟩ := h.grow hnew hthere hop.grows
    -- when the file opened is the newest
    have htop : seq = newest → ((s.setFile seq f).ensureOpen d seq f (io.openCalls seq)).1 = none ∧
        ∃ g, ((s.setFile seq f).ensureOpen d seq f (io.openCalls seq)).2.1.sequenceFiles.get? seq = some g ∧
          NewestOpen d0 ((s.setFile seq f).ensureOpen d seq f (io.openCalls seq)).2.2 newest g := by
      intro he
      have hd : d.logs.get? seq = d0.logs.get? seq := h.unmet seq List.mem_cons_self
      have hbytes : (d.logs.get? seq).getD [] = d0.bytes newest := by rw [hd, he]; rfl
      obtain ⟨h1, h2, h3, h4, h5⟩ := open_newest (f := f) (d.logs.get? seq) (s.setFile seq f).latestTimestamp rfl rfl
        (he ▸ hkept.opens) (by rw [hbytes]; exact hkept.header) (by rw [hbytes]; exact hkept.below)
      have hens : (s.setFile seq f).ensureOpen d seq f (io.openCalls seq) =
          (s.setFile seq f).openLogFile d seq f (io.openCalls seq) := by
        unfold ensureOpen
        exact if_neg Bool.false_ne_true
      rw [hens]
      rw [hbytes] at h4 h5
      refine ⟨h1, _, SeqMap.get?_set_self _ _ _, h2, h3, h4, h5.imp_right fun hkeeps => ⟨hkeeps.1, ?_⟩⟩
      simp only [openLogFile, hkeeps.2]
      rw [← he, SeqMap.get?_set_self]
    -- a newest file met before would have stayed current
    have hmet : newest ∉ todo → seq = newest := by
      intro hn
      by_contra hne
      obtain ⟨hc, -⟩ := (h.skip hne).top hn
      omega
    obtain ⟨files, hs⟩ := hop.store
    have hfile : ∀ {q g}, ((s.setFile seq f).ensureOpen d seq f (io.openCalls seq)).2.1.sequenceFiles.get? q = some g →
        q ∉ todo ∧ (((s.setFile seq f).ensureOpen d seq f (io.openCalls seq)).2.2.logs.get? q).isSome := by
      intro q g hg
      by_cases hq : q = seq
      · rw [hq]
        exact ⟨hnew, hseq⟩
      · rw [hop.get?_ne q hq] at hg
        exact ⟨(hfiles hq hg).1, hop.grows.isSome (hfiles hq hg).2⟩
    generalize (s.setFile seq f).ensureOpen d seq f (io.openCalls seq) = r at hop hlogs htodo htxn hseq htop hs hfile
    obtain ⟨threw, s1, d1⟩ := r
    cases threw with
    | some e =>
      simp only at hs
      refine ⟨by rw [hs]; exact h.current_le, by rw [hs]; exact h.current_lt, hfile, hlogs, htodo, htxn, fun hn => ?_⟩
      have := (htop (hmet hn)).1
      cases this
    | none =>
      refine ⟨hle, ?_, hfile, hlogs, htodo, htxn, fun hn => ?_⟩
      · exact lt_of_lt_of_le (Nat.lt_succ_self seq) (le_max_right _ _)
      · obtain ⟨-, g, hg, ho⟩ := htop (hmet hn)
        exact ⟨hmet hn, g, by rw [← hmet hn]; exact hg, ho⟩
  · rw [if_neg (show ¬ (s.setFile seq f).currentSequenceNumber ≤ seq from hcur)]
    have hne : seq ≠ newest := by
      have := h.current_le
      omega
    have hskip := h.skip hne
    refine ⟨h.current_le, lt_of_lt_of_le h.current_lt (le_max_left _ _), fun {q g} hg => ?_, h.logs,
      hskip.unmet, h.txnState,
      fun hn => ?_⟩
    · by_cases hq : q = seq
      · rw [hq]
        refine ⟨hnew, ?_⟩
        rw [h.unmet seq List.mem_cons_self]
        exact hthere
      · exact hfiles hq hg
    · obtain ⟨hc, g, hg, ho⟩ := hskip.top hn
      exact ⟨hc, g, (SeqMap.get?_set_ne _ hne.symm _).trans hg, ho⟩

theorem scan_scanTop (hkept : NewestKept cfg io d0 order newest) (hthere : ∀ q ∈ order, (d0.logs.get? q).isSome)
    (hle : ∀ q ∈ order, q ≤ newest) : ∀ (l : List ℕ) (sd : TransactionLogStore × Disk), l.Nodup → (∀ q ∈ l, q ∈ order) →
      ScanTop d0 newest l sd.1 sd.2 →
      ScanTop d0 newest [] (l.foldl (loadFile cfg io) sd).1 (l.foldl (loadFile cfg io) sd).2 := by
  intro l
  induction l with
  | nil => exact fun sd _ _ h => h
  | cons seq l ih =>
    intro sd hnodup hsub h
    rw [List.foldl_cons]
    have hnew : seq ∉ l := (List.nodup_cons.mp hnodup).1
    have hmem := hsub seq List.mem_cons_self
    refine ih (loadFile cfg io sd seq) (List.nodup_cons.mp hnodup).2 (fun q hq => hsub q (List.mem_cons_of_mem _ hq)) ?_
    unfold loadFile
    split_ifs with hstat hexp hrem
    · refine h.skip ?_
      rintro rfl
      have := hkept.kept.2 hstat.1
      rw [Option.isNone_iff_eq_none.mp hstat.2] at this
      cases this
    · refine h.remove ?_ hnew
      rintro rfl
      rw [hkept.kept.1] at hexp
      cases hexp
    · refine h.skip ?_
      rintro rfl
      rw [hkept.kept.1] at hexp
      cases hexp
    · exact h.register hnew (hthere seq hmem) (hle seq hmem) hkept

/-- What a load that finds the newest file gives: a store at that file, whose next entry is at
or after the flushed position, and no file that was not there. -/
theorem load_numbered {used : List ℕ} (hkept : NewestKept cfg io d0 order newest) (hperm : order.Perm d0.logs.keys)
    (hle : ∀ u ∈ used, u ≤ newest) (hall : AllUsed used d0) (hf : FlushedIn used d0) :
    ∃ s d', load cfg d0 order io = (some s, d') ∧ Numbered used s d' ∧ FlushedIn used d' ∧
      (∀ q, (d'.logs.get? q).isSome → (d0.logs.get? q).isSome) ∧ getLastFlushedPosition d' ≤ s.nextLogPosition := by
  have hthere : ∀ q ∈ order, (d0.logs.get? q).isSome := fun q hq =>
    Option.isSome_iff_exists.mpr (SeqMap.mem_keys_iff.mp (hperm.mem_iff.mp hq))
  have hstart : ScanTop d0 newest order {} d0 := by
    refine ⟨hkept.pos, Nat.lt_succ_self 1, fun h => (nomatch h), fun {q bytes} hb => ⟨by rw [hb]; rfl, [], ?_⟩,
      fun _ _ => rfl,
      rfl, fun hn => absurd hkept.mem hn⟩
    rw [Disk.bytes, hb, List.append_nil, Option.getD_some]
  have hscan := scan_scanTop hkept hthere (fun q hq => hle q (hall q (hthere q hq))) order ({}, d0)
    (hperm.nodup_iff.mpr (d0.logs.sorted.imp fun h => ne_of_lt h)) (fun _ h => h) hstart
  unfold load
  generalize order.foldl (loadFile cfg io) ({}, d0) = sd at hscan
  obtain ⟨s, d⟩ := sd
  simp only at hscan ⊢
  obtain ⟨hcur, f, hfile, hopen⟩ := hscan.top List.not_mem_nil
  have hens : s.ensureOpen d newest f (io.openCalls newest) = (none, s, d) := by
    rw [ensureOpen, if_pos hopen.isOpen]
  simp only [hcur, hfile, hens, Option.getD_some]
  have hpos : ∀ logs, getLastFlushedPosition { d with logs := logs } = getLastFlushedPosition d0 := by
    intro logs
    rw [getLastFlushedPosition, getLastFlushedPosition, ← hscan.txnState]
  have hnewest : (d0.logs.get? newest).isSome := hthere newest hkept.mem
  have hlen : (getLastFlushedPosition d0).logSequenceNumber = newest →
      (getLastFlushedPosition d0).positionInLogFile ≤ (d0.bytes newest).length := by
    intro he
    obtain ⟨bytes, hb⟩ := Option.isSome_iff_exists.mp hnewest
    rw [Disk.bytes, hb, Option.getD_some]
    exact hf.length (he ▸ hb)
  -- the size that recovery leaves is at or above the flushed position, and so is the length
  obtain ⟨bytes1, hbytes1⟩ := Option.isSome_iff_exists.mp (hscan.file hfile).2
  obtain ⟨-, more, hmore⟩ := hscan.logs hbytes1
  have hb1 : d.bytes newest = bytes1 := by rw [Disk.bytes, hbytes1, Option.getD_some]
  have hrec : (getLastFlushedPosition d0).logSequenceNumber = newest →
      (getLastFlushedPosition d0).positionInLogFile ≤ (f.recoverTail (d.bytes newest) io.recover).1.size ∧
        (getLastFlushedPosition d0).positionInLogFile ≤ (f.recoverTail (d.bytes newest) io.recover).2.length := by
    intro he
    have hl := hlen he
    have hl1 : (d0.bytes newest).length ≤ bytes1.length := by
      rw [hmore, List.length_append]
      omega
    rcases recoverTail_cases f (d.bytes newest) io.recover with hr | ⟨e, hlt, hs, hr⟩
    · rw [hr, hb1]
      exact ⟨hl.trans hopen.size_ge, hl.trans hl1⟩
    · rw [hr]
      rcases hopen.size with hsmall | ⟨hsize, hget⟩
      · -- no scan of a file that holds only a header
        rw [scanTransactionLogForRecovery, if_pos hsmall] at hs
        cases hs
      · have hb0 : d.bytes newest = d0.bytes newest := by rw [Disk.bytes, hget, Option.getD_some]
        rw [hb0, hsize, List.take_length] at hs
        rw [hsize] at hlt
        have hreach := hkept.frames he
        have h13 : ¬ (d0.bytes newest).length ≤ TRANSACTION_LOG_FILE_HEADER_SIZE := by
          intro h13
          rw [scanTransactionLogForRecovery, if_pos h13] at hs
          cases hs
        rw [scanTransactionLogForRecovery, if_neg h13] at hs
        have hge := scanLoop_reach hkept.below hreach (not_le.mp h13).le
          (show _ < _ + ((d0.bytes newest).length + 1) by omega)
        rw [hs] at hge
        refine ⟨hge, ?_⟩
        rw [hb0, List.length_take]
        exact le_min hge hl
  refine ⟨_, _, rfl, ⟨fun u hu => ?_, ?_, fun _ => ?_, fun {q g} hg ho => ?_⟩,
    ⟨?_, fun {bytes} hb => ?_⟩, fun q hq => ?_, ?_⟩
  · change u ≤ s.currentSequenceNumber ∧ (u = s.currentSequenceNumber → _)
    rw [hcur]
    refine ⟨hle u hu, fun he => ?_⟩
    change ((d.logs.set newest _).get? u).isSome
    rw [he, SeqMap.get?_set_self]
    rfl
  · exact hscan.current_lt
  · change ((s.sequenceFiles.set newest _).get? s.currentSequenceNumber).isSome
    rw [hcur, SeqMap.get?_set_self]
    rfl
  · change ((d.logs.set newest _).get? q).isSome
    simp only [positionInsert, setFile, SeqMap.get?_set] at hg ⊢
    split_ifs at hg ⊢
    · rfl
    · exact (hscan.file hg).2
  · rw [hpos]
    exact hf.number
  · rw [hpos] at hb ⊢
    simp only [SeqMap.get?_set] at hb
    split_ifs at hb with he
    · obtain rfl := Option.some.inj hb
      exact (hrec he).2
    · obtain ⟨hsome, more', rfl⟩ := hscan.logs hb
      obtain ⟨bytes0, hb0⟩ := Option.isSome_iff_exists.mp hsome
      have := hf.length hb0
      rw [List.length_append, Disk.bytes, hb0, Option.getD_some]
      omega
  · simp only [SeqMap.get?_set] at hq
    split_ifs at hq with he
    · rw [he]
      exact hnewest
    · obtain ⟨bytes, hb⟩ := Option.isSome_iff_exists.mp hq
      exact (hscan.logs hb).1
  · rw [hpos, LogPosition.le_iff]
    change _ < newest ∨ _ = newest ∧ _ ≤ (f.recoverTail (d.bytes newest) io.recover).1.size
    rcases hf.number with hz | ⟨u, hu, hle'⟩
    · rw [hz]
      exact Or.inl hkept.pos
    · rcases lt_or_eq_of_le (hle'.trans (hle u hu)) with hlt | he
      · exact Or.inl hlt
      · exact Or.inr ⟨he, (hrec he).1⟩

end Load

end RocksdbJs
