import RocksdbJs.Lib.ListUpdates
import RocksdbJs.Sanity.Positions
import RocksdbJs.Sanity.Writer

/-! The invariant behind `pendingTransactionCount`. The count is raised by the bind and lowered by a
`writeBatch` that returns or by the close of a transaction without a position, so at every
moment it is the number of transactions that owe one of the two. A transaction that is closed
with a position but without a batch that was written through owes for ever. -/

namespace RocksdbJs

open TransactionLogStore

namespace TransactionHandle

/-- The handle has raised the count of the store and not lowered it. -/
def owes (h : TransactionHandle) : Bool := h.bound && !h.wrote && (!h.closed || h.hasPosition)

/-- A live transaction bound to the store that has not completed a `writeBatch`. -/
def isPending (h : TransactionHandle) : Bool := !h.closed && h.bound && !h.wrote

/-- Closed with a position taken by a `writeBatch` that never returned. -/
def isStranded (h : TransactionHandle) : Bool := h.closed && h.bound && !h.wrote && h.hasPosition

theorem owes_eq (h : TransactionHandle) : h.owes = (h.isPending || h.isStranded) := by
  unfold owes isPending isStranded
  cases h.bound <;> cases h.wrote <;> cases h.closed <;> simp

end TransactionHandle

namespace Session

/-- What holds of one handle. -/
structure HandleOk (y : Session) (i : ℕ) (h : TransactionHandle) : Prop where
  writing : ∀ {sync}, h.pc = .writing sync → i = y.writerOf ∧ y.world.busy = true
  live : h.pc ≠ .idle → h.closed = false
  batch : ∀ {b}, h.logEntryBatch = some b → h.bound = true ∧ h.wrote = false ∧
    ((∀ sync, h.pc ≠ .writing sync) → b.isComplete = true → y.world.store.nextLogPosition.logSequenceNumber ≠ 0)
  position : h.hasPosition = true → h.bound = true
  wrote : h.wrote = true → h.hasPosition = true

/-- The handle whose `writeBatch` call runs, with the writer. -/
structure IsWriting (y : Session) (h : TransactionHandle) (sync : Bool) (wr : Writer) : Prop where
  handle : y.handles[y.writerOf]? = some h
  pc : h.pc = .writing sync
  writer : y.world.writer = some wr
  batch : h.logEntryBatch = some wr.batch
  position : h.committedPosition = wr.logPosition
  taken : wr.Taken y.world.store

structure Inv (y : Session) : Prop where
  next : NextOk y.world.store
  writer : y.world.busy = true → ∃ h sync wr, y.IsWriting h sync wr
  handles : ∀ {i h}, y.handles[i]? = some h → y.HandleOk i h
  count : y.world.store.pendingTransactionCount = y.handles.countP TransactionHandle.owes
  closing : y.world.store.isClosing = true → y.handles.countP TransactionHandle.owes = 0
  marked : ∀ c ∈ y.closeCalls, c.pc = .phase4 → y.world.store.isClosing = true

/-- A change of the store that leaves the files and the place of the next entry alone. -/
structure SameFiles (s s' : TransactionLogStore) : Prop where
  files : s'.sequenceFiles = s.sequenceFiles
  current : s'.currentSequenceNumber = s.currentSequenceNumber
  next : s'.nextSequenceNumber = s.nextSequenceNumber
  position : s'.nextLogPosition = s.nextLogPosition
  isClosing : s'.isClosing = s.isClosing

section
variable {cfg : StoreConfig} {y y' : Session} {i : ℕ} {h h' : TransactionHandle} {s : TransactionLogStore}

theorem SameFiles.rfl : SameFiles s s := ⟨Eq.refl _, Eq.refl _, Eq.refl _, Eq.refl _, Eq.refl _⟩

theorem live_some (hl : y.live i = some h) : y.handles[i]? = some h ∧ h.closed = false := by
  obtain ⟨hh, hc⟩ := Option.filter_eq_some_iff.mp hl
  exact ⟨hh, Bool.not_eq_true' _ ▸ hc⟩

theorem SameFiles.taken (hs : SameFiles y.world.store s) {wr : Writer} (ht : wr.Taken y.world.store) : wr.Taken s := by
  unfold Writer.Taken at ht ⊢
  rw [hs.position]
  exact ht

/-- A handle that is not in `writeBatch` changes, with the store's count in step. -/
theorem Inv.update (hi : Inv y) (hh : y.handles[i]? = some h) (hs : SameFiles y.world.store s)
    (hpc : ∀ sync, h.pc ≠ .writing sync) (hok : y.HandleOk i h')
    (hcount : s.pendingTransactionCount + (if h.owes then 1 else 0) =
      y.world.store.pendingTransactionCount + if h'.owes then 1 else 0)
    (hclosing : y.world.store.isClosing = true → h'.owes = true → h.owes = true) :
    Inv ((y.withStore s).setHandle i h') := by
  have hset := List.countP_set_add TransactionHandle.owes hh h'
  refine ⟨hi.next.congr hs.files hs.current hs.next hs.position, ?_, ?_, ?_, ?_,
    fun c hc h4 => hs.isClosing.trans (hi.marked c hc h4)⟩
  · intro hbusy
    obtain ⟨g, sync, wr, hw⟩ := hi.writer hbusy
    refine ⟨g, sync, wr, ?_, hw.pc, hw.writer, hw.batch, hw.position, hs.taken hw.taken⟩
    have hne : i ≠ y.writerOf := by
      rintro rfl
      obtain rfl := Option.some.inj (hh.symm.trans hw.handle)
      exact hpc sync hw.pc
    exact (List.getElem?_set_ne hne).trans hw.handle
  · intro j g hg
    have hcongr : y.HandleOk j g → ((y.withStore s).setHandle i h').HandleOk j g := by
      intro hold
      refine ⟨hold.writing, hold.live, fun hb => ?_, hold.position, hold.wrote⟩
      obtain ⟨h1, h2, h3⟩ := hold.batch hb
      exact ⟨h1, h2, fun hw hc => hs.position ▸ h3 hw hc⟩
    by_cases hij : i = j
    · subst hij
      have hlt : i < y.handles.length := (List.getElem?_eq_some_iff.mp hh).1
      obtain rfl : h' = g := by simpa [setHandle, withStore, hlt] using hg
      exact hcongr hok
    · exact hcongr (hi.handles ((List.getElem?_set_ne hij).symm.trans hg))
  · have hold := hi.count
    change s.pendingTransactionCount = ((y.handles.set i h').countP _ : ℕ)
    split_ifs at hcount hset <;> omega
  · intro hc
    have hzero := hi.closing (hs.isClosing ▸ hc)
    have himp := hclosing (hs.isClosing ▸ hc)
    change (y.handles.set i h').countP _ = 0
    split_ifs at hset with h1 h2 h2
    · omega
    · omega
    · exact absurd (himp h2) h1
    · omega

/-- A handle alone changes. -/
theorem Inv.updateHandle (hi : Inv y) (hh : y.handles[i]? = some h) (hpc : ∀ sync, h.pc ≠ .writing sync)
    (hok : y.HandleOk i h') (howes : h'.owes = h.owes) :
    Inv (y.setHandle i h') :=
  hi.update hh .rfl hpc hok (by rw [howes]) fun _ ho => howes ▸ ho

theorem sameFiles_commitFinished (p : LogPosition) (n : ℕ) : SameFiles s (s.commitFinished p n) :=
  ⟨rfl, rfl, rfl, rfl, rfl⟩

theorem sameFiles_commitAborted (p : LogPosition) : SameFiles s (s.commitAborted p) := ⟨rfl, rfl, rfl, rfl, rfl⟩

/-- A position is given back, which touches neither the files nor the count. -/
theorem Inv.giveBack (hi : Inv y) (hh : y.handles[i]? = some h) (hpc : ∀ sync, h.pc ≠ .writing sync)
    (hok : y.HandleOk i h') (howes : h'.owes = h.owes)
    {give : TransactionLogStore → LogPosition → TransactionLogStore}
    (hsame : ∀ p, SameFiles y.world.store (give y.world.store p))
    (hcount : ∀ p, (give y.world.store p).pendingTransactionCount = y.world.store.pendingTransactionCount) :
    Inv (y.giveBack i h' give) := by
  unfold Session.giveBack
  split_ifs
  · refine hi.update hh (hsame _) hpc ⟨hok.writing, hok.live, hok.batch, hok.position, hok.wrote⟩ ?_ ?_
    · rw [hcount, ← howes]
      rfl
    · intro _ ho
      rw [← howes]
      exact ho
  · exact hi.updateHandle hh hpc hok howes

/-- A handle outside `writeBatch` that keeps its position and keeps or drops its batch. -/
theorem HandleOk.moved (hold : y.HandleOk i h) (hnw : ∀ sync, h.pc ≠ .writing sync)
    (hnw' : ∀ sync, h'.pc ≠ .writing sync) (hlive : h'.pc ≠ .idle → h'.closed = false)
    (hb : h'.logEntryBatch = h.logEntryBatch ∨ h'.logEntryBatch = none) (hbound : h'.bound = h.bound)
    (hwrote : h'.wrote = h.wrote) (hp : h'.committedPosition = h.committedPosition) :
    y.HandleOk i h' := by
  have hpos : h'.hasPosition = h.hasPosition := by rw [TransactionHandle.hasPosition, hp]; rfl
  refine ⟨fun hw => absurd hw (hnw' _), hlive, fun hbatch => ?_, fun h1 => ?_, fun h1 => ?_⟩
  · rcases hb with hb | hb
    · obtain ⟨h1, h2, h3⟩ := hold.batch (hb.symm.trans hbatch)
      exact ⟨hbound.trans h1, hwrote.trans h2, fun _ => h3 hnw⟩
    · rw [hb] at hbatch
      cases hbatch
  · exact hbound.trans (hold.position (hpos ▸ h1))
  · exact hpos.trans (hold.wrote (hwrote ▸ h1))

theorem not_writing_of_pc {pc : CommitPc} (hpc : h.pc = pc) (hne : ∀ sync, pc ≠ .writing sync) (sync : Bool) :
    h.pc ≠ .writing sync := hpc ▸ hne sync

/-- The end of a commit that calls `commitFinished`, if there is a position. -/
theorem Inv.finished (hi : Inv y) (hh : y.handles[i]? = some h) (hnw : ∀ sync, h.pc ≠ .writing sync)
    (hlive : h.closed = false) (state : TransactionState) (latest : ℕ) :
    Inv (y.giveBack i { h with pc := .idle, state := state } (·.commitFinished · latest)) := by
  have hok : y.HandleOk i { h with pc := .idle, state := state } :=
    (hi.handles hh).moved hnw (fun _ hw => by cases hw) (fun _ => hlive) (Or.inl rfl) rfl rfl rfl
  refine hi.giveBack hh hnw hok rfl (fun p => sameFiles_commitFinished p latest) ?_
  exact fun _ => rfl

theorem Inv.closeHandle (hi : Inv y) (hh : y.handles[i]? = some h) (hlive : h.closed = false) (hpc : h.pc = .idle) :
    Inv (y.closeHandle i h) := by
  have hold := hi.handles hh
  have hnw : ∀ sync, h.pc ≠ .writing sync := fun sync hw => by rw [hpc] at hw; cases hw
  have hok : y.HandleOk i h.shut :=
    ⟨hold.writing, fun hne => absurd hpc hne, hold.batch, hold.position, hold.wrote⟩
  have hposition : h.shut.hasPosition = h.hasPosition := rfl
  have hshut : h.shut.owes = (h.bound && !h.wrote && h.hasPosition) := rfl
  have hbefore : h.owes = (h.bound && !h.wrote) := by
    simp [TransactionHandle.owes, hlive]
  unfold Session.closeHandle
  simp only [hposition]
  by_cases hpos : h.hasPosition = true
  · -- a transaction with a position owes what it owed before
    have howes : h.shut.owes = h.owes := by rw [hshut, hbefore, hpos, Bool.and_true]
    rw [if_pos hpos]
    split_ifs
    · exact hi.updateHandle hh hnw hok howes
    · exact hi.giveBack hh hnw hok howes sameFiles_commitAborted fun _ => rfl
  · rw [Bool.not_eq_true] at hpos
    have hwrote : h.wrote = false := by
      cases hw : h.wrote with
      | false => rfl
      | true => exact absurd (hold.wrote hw) (by rw [hpos]; decide)
    have howes' : h.shut.owes = false := by rw [hshut, hpos, Bool.and_false]
    have howes : h.owes = h.bound := by rw [hbefore, hwrote, Bool.not_false, Bool.and_true]
    rw [if_neg (by rw [hpos]; exact Bool.false_ne_true)]
    split_ifs with hb
    · refine hi.update hh ⟨rfl, rfl, rfl, rfl, rfl⟩ hnw hok ?_ ?_
      · rw [howes, howes', show h.bound = true from hb.1]
        simp
      · intro _ ho
        rw [howes'] at ho
        cases ho
    · -- unbound, or the store is closing and nobody owes
      refine hi.updateHandle hh hnw hok ?_
      rw [howes', howes]
      by_contra hne
      have hbound : h.bound = true := by
        cases hbd : h.bound with
        | true => rfl
        | false => exact absurd hbd.symm hne
      have hclosing : y.world.store.isClosing = true := by
        cases hc : y.world.store.isClosing with
        | true => rfl
        | false => exact absurd ⟨hbound, by rw [hc]; rfl⟩ hb
      have hzero := List.countP_eq_zero.mp (hi.closing hclosing) h (List.mem_of_getElem? hh)
      rw [howes, hbound] at hzero
      exact hzero rfl

/-- The bind raises the count by the one the handle then owes. -/
theorem Inv.bind (hi : Inv y) (hh : y.handles[i]? = some h) (hlive : h.closed = false)
    (hpc : ∀ sync, h.pc ≠ .writing sync) {z : Session × TransactionHandle} (hb : y.bind i h = some z) :
    Inv z.1 ∧ z.1.handles[i]? = some z.2 ∧ z.2.closed = false ∧ z.2.pc = h.pc ∧ z.2.bound = true ∧
      z.2.logEntryBatch = h.logEntryBatch ∧ z.2.committedPosition = h.committedPosition ∧ z.2.wrote = h.wrote := by
  unfold Session.bind at hb
  split_ifs at hb with hbound hclosing
  · obtain rfl := Option.some.inj hb
    exact ⟨hi, hh, hlive, rfl, hbound, rfl, rfl, rfl⟩
  · obtain rfl := Option.some.inj hb
    have hold := hi.handles hh
    rw [Bool.not_eq_true] at hbound
    have hwrote : h.wrote = false := by
      cases hw : h.wrote with
      | false => rfl
      | true => exact absurd (hold.position (hold.wrote hw)) (by rw [hbound]; decide)
    have hlt : i < y.handles.length := (List.getElem?_eq_some_iff.mp hh).1
    refine ⟨?_, by simp [setHandle, withStore, hlt], hlive, rfl, rfl, rfl, rfl, rfl⟩
    refine hi.update hh ⟨rfl, rfl, rfl, rfl, rfl⟩ hpc ⟨hold.writing, hold.live, ?_, fun _ => rfl, hold.wrote⟩ ?_ ?_
    · intro b hbatch
      obtain ⟨h1, h2, h3⟩ := hold.batch hbatch
      exact ⟨rfl, h2, h3⟩
    · simp [TransactionHandle.owes, hbound, hwrote, hlive]
    · intro hc
      exact absurd hc hclosing

/-- An entry is staged on a bound handle without a position. -/
theorem Inv.stage (hi : Inv y) (hh : y.handles[i]? = some h) (hlive : h.closed = false) (hbound : h.bound = true)
    (hnw : ∀ sync, h.pc ≠ .writing sync) (hpos : h.hasPosition = false) (entry : TransactionLogEntry) :
    Inv (y.setHandle i (h.stage entry)) := by
  have hold := hi.handles hh
  have hwrote : h.wrote = false := by
    cases hw : h.wrote with
    | false => rfl
    | true => exact absurd (hpos.symm.trans (hold.wrote hw)) Bool.false_ne_true
  refine hi.updateHandle hh hnw ⟨fun hw => absurd hw (hnw _), fun _ => hlive, fun hb => ?_,
    fun _ => hbound, hold.wrote⟩ rfl
  obtain rfl := Option.some.inj hb
  refine ⟨hbound, hwrote, fun _ hc => ?_⟩
  -- a batch with one entry more is complete only if it was complete without it
  cases hbatch : h.logEntryBatch with
  | none =>
    rw [hbatch] at hc
    simp [TransactionLogEntryBatch.isComplete] at hc
  | some b =>
    refine (hold.batch hbatch).2.2 hnw ?_
    rw [hbatch] at hc
    simp only [TransactionLogEntryBatch.isComplete, Option.getD_some, List.length_append, List.length_singleton,
      decide_eq_true_eq] at hc ⊢
    omega

theorem Inv.not_writing (hi : Inv y) (hidle : y.world.busy = false) (hh : y.handles[i]? = some h) (sync : Bool) :
    h.pc ≠ .writing sync := by
  intro hpc
  have hbusy := ((hi.handles hh).writing hpc).2
  rw [hidle] at hbusy
  cases hbusy

theorem Inv.not_writing_of_unbound (hi : Inv y) (hh : y.handles[i]? = some h) (hbound : ¬ h.bound = true)
    (sync : Bool) :
    h.pc ≠ .writing sync := by
  intro hw
  obtain ⟨hself, hbusy⟩ := (hi.handles hh).writing hw
  obtain ⟨g, sync', wr, hwr⟩ := hi.writer hbusy
  obtain rfl := Option.some.inj (hh.symm.trans (hself ▸ hwr.handle))
  exact hbound ((hi.handles hh).batch hwr.batch).1

/-- A `writeBatch` call takes its position and `writeMutex`. -/
theorem Inv.beginWrite (hi : Inv y) (hh : y.handles[i]? = some h) (hlive : h.closed = false)
    {batch : TransactionLogEntryBatch} (hbatch : h.logEntryBatch = some batch) (hidle : y.world.busy = false)
    (hopen : y.world.store.isClosing = false) (sync : Bool) :
    Inv { y with
      world := RocksdbJs.beginWrite y.world batch
      writerOf := i
      handles := y.handles.set i { h with
        state := .committing, pc := .writing sync, committedPosition :=
          y.world.store.nextLogPosition, decided := false } } := by
  have hold := hi.handles hh
  obtain ⟨hbound, hwrote, hnext⟩ := hold.batch hbatch
  have hnw := hi.not_writing hidle hh
  set g : TransactionHandle := { h with
    state := .committing, pc := .writing sync, committedPosition :=
      y.world.store.nextLogPosition, decided := false } with hg
  have hlt : i < y.handles.length := (List.getElem?_eq_some_iff.mp hh).1
  have hset := List.countP_set_add TransactionHandle.owes hh g
  have howes : g.owes = h.owes := by
    simp [TransactionHandle.owes, hg, hlive]
  have hself : (y.handles.set i g)[i]? = some g := by simp [hlt]
  have hbegin : RocksdbJs.beginWrite y.world batch = { y.world with
      store := { y.world.store.positionInsert y.world.store.nextLogPosition with
        latestTimestamp := if Binary64.lt y.world.store.latestTimestamp batch.timestamp then batch.timestamp
          else y.world.store.latestTimestamp }
      writer := some ⟨outerLoop batch, batch, y.world.store.nextLogPosition⟩ } := by
    rw [RocksdbJs.beginWrite, if_neg (by rw [hopen]; exact Bool.false_ne_true)]
    rfl
  rw [hbegin]
  refine ⟨hi.next.congr rfl rfl rfl rfl, fun _ => ?_, ?_, ?_, fun hc => absurd (hopen.symm.trans hc) Bool.false_ne_true,
    fun c hc h4 => hi.marked c hc h4⟩
  · exact ⟨g, sync, _, hself, rfl, rfl, hbatch, rfl, hi.next.taken (hnext hnw)⟩
  · intro j k hk
    by_cases hij : i = j
    · subst hij
      obtain rfl := Option.some.inj (hself.symm.trans hk)
      refine ⟨fun _ => ⟨rfl, ?_⟩, fun _ => hlive, fun hb => ⟨hbound, hwrote, fun hno => absurd rfl (hno sync)⟩,
        fun _ => hbound, fun hw => absurd (hwrote.symm.trans hw) Bool.false_ne_true⟩
      exact outerLoop_busy _ _
    · have hk' := (List.getElem?_set_ne hij).symm.trans hk
      have hother := hi.handles hk'
      exact ⟨fun hpc => absurd hpc (hi.not_writing hidle hk' _), hother.live, hother.batch, hother.position,
        hother.wrote⟩
  · rw [howes] at hset
    have hcount := hi.count
    change y.world.store.pendingTransactionCount = ((y.handles.set i g).countP _ : ℕ)
    omega

theorem busy_writer {w : World} {wr : Writer} (hw : w.writer = some wr) : w.busy = wr.busy := by
  rw [World.busy, hw]
  rfl

/-- What the writing handle is after the step, by what the writer has come to. -/
theorem afterWriterStep_cases (h : TransactionHandle) (sync : Bool) (wr : Writer) :
    (wr.pc = .returned ∧ h.afterWriterStep sync wr =
        { h with committedPosition := wr.logPosition, logEntryBatch := none, pc := .written, wrote := true }) ∨
      (∃ e, wr.pc = .threw e ∧ h.afterWriterStep sync wr = { h with
        committedPosition := wr.logPosition, logEntryBatch := some wr.batch, pc := if sync then .idle else .failed }) ∨
      (wr.busy = true ∧ h.afterWriterStep sync wr =
        { h with committedPosition := wr.logPosition, logEntryBatch := some wr.batch }) := by
  obtain ⟨pc, batch, pos⟩ := wr
  cases pc with
  | returned => exact Or.inl ⟨rfl, rfl⟩
  | threw e => exact Or.inr (Or.inl ⟨e, rfl, rfl⟩)
  | _ => exact Or.inr (Or.inr ⟨rfl, rfl⟩)

/-- A step of `writeBatch`, taken apart. -/
theorem stepWrite_cases {io : WriterCalls} (hi : Inv y) (hstep : y.stepWrite cfg io = some y') :
    ∃ h sync wr w' wr', y.IsWriting h sync wr ∧ WriterMoves y.world w' wr wr' ∧ writerStep cfg y.world wr io = some w' ∧
      y' = (let z := ({ y with world := w' } : Session).setHandle y.writerOf (h.afterWriterStep sync wr')
        if wr'.pc = .returned then z.noteWritten y.writerOf else z) := by
  obtain ⟨h, hh, hstep⟩ := Option.bind_eq_some_iff.mp hstep
  cases hpc : h.pc with
  | writing sync =>
    simp only [hpc] at hstep
    obtain ⟨w', hw', hstep⟩ := Option.bind_eq_some_iff.mp hstep
    obtain ⟨wr', hwr', hy'⟩ := Option.map_eq_some_iff.mp hstep
    obtain ⟨g, sync', wr, hw⟩ := hi.writer ((hi.handles hh).writing hpc).2
    obtain rfl := Option.some.inj (hh.symm.trans hw.handle)
    obtain rfl : sync = sync' := by
      have := hpc.symm.trans hw.pc
      simpa using this
    rw [stepWriter, hw.writer, Option.bind_some] at hw'
    obtain ⟨wr'', hmoves⟩ := writerStep_moves hi.next hw.taken hw'
    obtain rfl := Option.some.inj (hwr'.symm.trans hmoves.writer)
    exact ⟨h, sync, wr, w', wr', hw, hmoves, hw', hy'.symm⟩
  | idle => simp [hpc] at hstep
  | failed => simp [hpc] at hstep
  | written => simp [hpc] at hstep

theorem Inv.stepWrite {io : WriterCalls} (hi : Inv y) (hstep : y.stepWrite cfg io = some y') : Inv y' := by
  obtain ⟨h, sync, wr, w', wr', hw, hm, -, rfl⟩ := stepWrite_cases hi hstep
  have hold := hi.handles hw.handle
  obtain ⟨hbound, hwrote, -⟩ := hold.batch hw.batch
  have hlive : h.closed = false := hold.live (by rw [hw.pc]; simp)
  have hlt : y.writerOf < y.handles.length := (List.getElem?_eq_some_iff.mp hw.handle).1
  set g := h.afterWriterStep sync wr' with hg
  have hself : (y.handles.set y.writerOf g)[y.writerOf]? = some g := by simp [hlt]
  have hset := List.countP_set_add TransactionHandle.owes hw.handle g
  have howes : h.owes = true := by simp [TransactionHandle.owes, hbound, hwrote, hlive]
  have hopen : y.world.store.isClosing = false := by
    cases hc : y.world.store.isClosing with
    | false => rfl
    | true => exact absurd howes (List.countP_eq_zero.mp (hi.closing hc) h (List.mem_of_getElem? hw.handle))
  have hbusy := busy_writer hm.writer
  -- the handle after the step
  have hnew : ∀ z : Session, z.writerOf = y.writerOf → z.world = w' → z.HandleOk y.writerOf g := by
    intro z hz hzw
    rcases afterWriterStep_cases h sync wr' with ⟨hpc, hg'⟩ | ⟨e, hpc, hg'⟩ | ⟨hb, hg'⟩
    · have htaken := hm.taken
      rw [Writer.Taken, hpc] at htaken
      rw [hg, hg']
      refine ⟨fun hc => by simp at hc, fun _ => hlive, fun hc => by simp at hc, fun _ => hbound, fun _ => ?_⟩
      exact decide_eq_true (Nat.pos_of_ne_zero htaken.1)
    · have htaken := hm.taken
      rw [Writer.Taken, hpc] at htaken
      rw [hg, hg']
      refine ⟨fun hc => ?_, fun _ => hlive, fun _ => ⟨hbound, hwrote, fun _ _ => hzw ▸ htaken.2⟩, fun _ => hbound,
        fun hc => absurd (hwrote.symm.trans hc) Bool.false_ne_true⟩
      cases sync <;> simp at hc
    · rw [hg, hg']
      refine ⟨fun _ => ⟨hz.symm, ?_⟩, fun _ => hlive, fun _ => ⟨hbound, hwrote, fun hno => absurd hw.pc (hno sync)⟩,
        fun _ => hbound, fun hc => absurd (hwrote.symm.trans hc) Bool.false_ne_true⟩
      rw [hzw, hbusy]
      exact hb
  have hcore : Inv (({ y with world := w' } : Session).setHandle y.writerOf g) := by
    refine ⟨hm.next, ?_, ?_, ?_, ?_, fun c hc h4 => hm.isClosing.trans (hi.marked c hc h4)⟩
    · intro hb
      rw [show (({ y with world := w' } : Session).setHandle y.writerOf g).world = w' from rfl, hbusy] at hb
      rcases afterWriterStep_cases h sync wr' with ⟨hpc, -⟩ | ⟨e, hpc, -⟩ | ⟨-, hg'⟩
      · rw [Writer.busy, hpc] at hb
        cases hb
      · rw [Writer.busy, hpc] at hb
        cases hb
      · refine ⟨g, sync, wr', hself, ?_, hm.writer, ?_, ?_, hm.taken⟩
        · rw [hg, hg']
          exact hw.pc
        · rw [hg, hg']
        · rw [hg, hg']
    · intro j k hk
      by_cases hij : y.writerOf = j
      · subst hij
        obtain rfl := Option.some.inj (hself.symm.trans hk)
        exact hnew _ rfl rfl
      · have hk' := (List.getElem?_set_ne hij).symm.trans hk
        have hother := hi.handles hk'
        refine ⟨fun hpc => absurd (hother.writing hpc).1.symm hij, hother.live, fun hb => ?_,
          hother.position, hother.wrote⟩
        obtain ⟨h1, h2, h3⟩ := hother.batch hb
        exact ⟨h1, h2, fun hno hc => hm.next_ne (h3 hno hc)⟩
    · have hcount := hi.count
      have hdown := hm.count
      rw [howes, if_pos rfl] at hset
      change w'.store.pendingTransactionCount = ((y.handles.set y.writerOf g).countP _ : ℕ)
      rcases afterWriterStep_cases h sync wr' with ⟨hpc, hg'⟩ | ⟨e, hpc, hg'⟩ | ⟨hb, hg'⟩
      · have hno : g.owes = false := by rw [hg, hg']; simp [TransactionHandle.owes]
        rw [hno] at hset
        rw [if_pos hpc] at hdown
        simp only [Bool.false_eq_true, if_false] at hset
        omega
      · have hyes : g.owes = true := by rw [hg, hg']; simp [TransactionHandle.owes, hbound, hwrote, hlive]
        rw [hyes, if_pos rfl] at hset
        rw [if_neg (by rw [hpc]; simp)] at hdown
        omega
      · have hyes : g.owes = true := by rw [hg, hg']; simp [TransactionHandle.owes, hbound, hwrote, hlive]
        have hpc : wr'.pc ≠ .returned := by
          intro hpc
          rw [Writer.busy, hpc] at hb
          cases hb
        rw [hyes, if_pos rfl] at hset
        rw [if_neg hpc] at hdown
        omega
    · intro hc
      exact absurd ((hm.isClosing.trans hopen).symm.trans hc) Bool.false_ne_true
  dsimp only
  split_ifs
  · refine ⟨hcore.next, fun hb => ?_, fun hk => ?_, hcore.count, hcore.closing, ?_⟩
    · obtain ⟨k, sync', wr'', h1, h2, h3, h4, h5, h6⟩ := hcore.writer hb
      exact ⟨k, sync', wr'', h1, h2, h3, h4, h5, h6⟩
    · obtain ⟨h1, h2, h3, h4, h5⟩ := hcore.handles hk
      exact ⟨h1, h2, h3, h4, h5⟩
    · intro c hc h4
      obtain ⟨c', hc', rfl⟩ := List.mem_map.mp hc
      refine hcore.marked c' hc' ?_
      split_ifs at h4 with h3
      · rw [h3] at h4
        cases h4
      · exact h4
  · exact hcore

/-- What a phase of `tryClose` can do to the store. -/
theorem closePhase_store {w w' : World} {c : CloseCall} {io : FilesCalls} {c' : Option CloseCall}
    (h : closePhase cfg w c io = some (w', c')) :
    (w' = w ∧ ∀ d ∈ c', d.pc = .phase2 ∨ c.pc = .phase2 ∧ d.pc = .phase3 ∧ hasUncommitted w.store = false) ∨
      (c.pc = .phase3 ∧ w.store.isClosing = false ∧ w.store.pendingTransactionCount ≤ 0 ∧ (∀ d ∈ c', d.pc = .phase4) ∧
        w' = { w with store := { w.store with isClosing := true } }) ∨
      (c.pc = .phase4 ∧ c' = none ∧ w.busy = false ∧ w'.writer = w.writer ∧ w'.store =
        { w.store with isClosing := true, sequenceFiles := SeqMap.empty, flushedStateFile := .closed }) := by
  unfold closePhase at h
  cases hpc : c.pc with
  | phase1 =>
    simp only [hpc] at h
    split_ifs at h
    · cases h
      exact Or.inl ⟨rfl, nofun⟩
    · cases h
      exact Or.inl ⟨rfl, fun d hd => Or.inl (Option.some.inj hd ▸ rfl)⟩
  | phase2 =>
    simp only [hpc] at h
    split_ifs at h with hbusy hstop
    · cases h
      exact Or.inl ⟨rfl, nofun⟩
    · cases h
      refine Or.inl ⟨rfl, fun d hd => Or.inr ?_⟩
      obtain rfl := Option.some.inj hd
      exact ⟨rfl, rfl, Bool.eq_false_of_not_eq_true (not_or.mp hstop).2⟩
  | phase3 =>
    simp only [hpc] at h
    split_ifs at h with hstop
    · cases h
      exact Or.inl ⟨rfl, nofun⟩
    · cases h
      obtain ⟨hopen, hcount⟩ := not_or.mp hstop
      exact Or.inr (Or.inl ⟨rfl, Bool.eq_false_of_not_eq_true hopen, not_lt.mp hcount,
        fun d hd => Option.some.inj hd ▸ rfl, rfl⟩)
  | phase4 =>
    simp only [hpc] at h
    split_ifs at h with hbusy
    cases h
    exact Or.inr (Or.inr ⟨rfl, rfl, Bool.eq_false_of_not_eq_true hbusy, rfl, rfl⟩)

/-- The calls of `tryClose` after a phase of call `k`. -/
theorem mem_closeCalls {calls : List CloseCall} {k : ℕ} {c' : Option CloseCall} {d : CloseCall}
    (hd : d ∈ setCall calls k c') : d ∈ c' ∨ d ∈ calls := by
  cases c' with
  | none => exact Or.inr (List.mem_of_mem_eraseIdx hd)
  | some c =>
    rcases List.mem_or_eq_of_mem_set hd with hd | rfl
    · exact Or.inr hd
    · exact Or.inl rfl

theorem Inv.closePhase {k : ℕ} {c : CloseCall} {io : FilesCalls} {w' : World} {c' : Option CloseCall} (hi : Inv y)
    (hc : y.closeCalls[k]? = some c) (h : closePhase cfg y.world c io = some (w', c')) :
    Inv { y with world := w', closeCalls := setCall y.closeCalls k c' } := by
  rcases closePhase_store h with ⟨rfl, hpc⟩ | ⟨hpc, hopen, hcount, -, rfl⟩ | ⟨hpc, rfl, hidle, hwriter, hs⟩
  · refine ⟨hi.next, fun hb => ?_, fun hk => ?_, hi.count, hi.closing, fun d hd h4 => ?_⟩
    · obtain ⟨g, sync, wr, h1, h2, h3, h4, h5, h6⟩ := hi.writer hb
      exact ⟨g, sync, wr, h1, h2, h3, h4, h5, h6⟩
    · obtain ⟨h1, h2, h3, h4, h5⟩ := hi.handles hk
      exact ⟨h1, h2, h3, h4, h5⟩
    · rcases mem_closeCalls hd with hd | hd
      · rcases hpc d hd with h2 | ⟨-, h3, -⟩
        · rw [h2] at h4
          cases h4
        · rw [h3] at h4
          cases h4
      · exact hi.marked d hd h4
  · have hzero : y.handles.countP TransactionHandle.owes = 0 := by
      have := hi.count
      omega
    refine ⟨hi.next.congr rfl rfl rfl rfl, fun hb => ?_, fun hk => ?_, hi.count, fun _ => hzero, fun _ _ _ => rfl⟩
    · obtain ⟨g, sync, wr, h1, h2, h3, h4, h5, h6⟩ := hi.writer hb
      exact ⟨g, sync, wr, h1, h2, h3, h4, h5, h6⟩
    · obtain ⟨h1, h2, h3, h4, h5⟩ := hi.handles hk
      exact ⟨h1, h2, h3, h4, h5⟩
  · have hclosing := hi.marked c (List.mem_of_getElem? hc) hpc
    have hidle' : w'.busy = false := by
      rw [World.busy, hwriter]
      exact hidle
    refine ⟨?_, fun hb => ?_, fun hk => ?_, ?_, fun _ => hi.closing hclosing, fun d hd h4 => ?_⟩
    · dsimp only
      rw [hs]
      exact ⟨hi.next.current, hi.next.next, hi.next.zero, fun hsome => by cases hsome⟩
    · exact absurd (hidle'.symm.trans hb) Bool.false_ne_true
    · obtain ⟨h1, h2, h3, h4, h5⟩ := hi.handles hk
      refine ⟨fun hw => ?_, h2, fun hb => ?_, h4, h5⟩
      · exact absurd (hidle.symm.trans (h1 hw).2) Bool.false_ne_true
      · obtain ⟨b1, b2, b3⟩ := h3 hb
        dsimp only
        rw [hs]
        exact ⟨b1, b2, b3⟩
    · dsimp only
      rw [hs]
      exact hi.count
    · dsimp only
      rw [hs]

theorem Inv.append (hi : Inv y) (ts : Binary64) :
    Inv { y with handles := y.handles ++ [{ startTimestamp := ts }] } := by
  have hcount : (y.handles ++ [({ startTimestamp := ts } : TransactionHandle)]).countP TransactionHandle.owes =
      y.handles.countP TransactionHandle.owes := by
    rw [List.countP_append]
    rfl
  refine ⟨hi.next, fun hb => ?_, fun {j g} hk => ?_, ?_, fun hc => hcount.trans (hi.closing hc), hi.marked⟩
  · obtain ⟨g, sync, wr, h1, h2, h3, h4, h5, h6⟩ := hi.writer hb
    have hlt := (List.getElem?_eq_some_iff.mp h1).1
    exact ⟨g, sync, wr, (List.getElem?_append_left hlt).trans h1, h2, h3, h4, h5, h6⟩
  · by_cases hlt : j < y.handles.length
    · obtain ⟨h1, h2, h3, h4, h5⟩ := hi.handles ((List.getElem?_append_left hlt).symm.trans hk)
      exact ⟨h1, h2, h3, h4, h5⟩
    · have hmem := List.mem_of_getElem? ((List.getElem?_append_right (not_lt.mp hlt)).symm.trans hk)
      obtain rfl := List.mem_singleton.mp hmem
      exact ⟨nofun, fun hc => absurd rfl hc, nofun, nofun, nofun⟩
  · rw [show _ = _ from hi.count, hcount]

/-- What `addLogEntry` comes to: nothing on a transaction with a position or a closed store, else
a bind and one more entry. -/
theorem addLogEntry_cases {entry : TransactionLogEntry} (hstep : step cfg y (.addLogEntry i entry) = some y') :
    ∃ h, y.live i = some h ∧ (y' = y ∨ (∀ sync, h.pc ≠ .writing sync) ∧ h.hasPosition = false ∧
      ∃ z g, y.bind i h = some (z, g) ∧ y' = z.setHandle i (g.stage entry)) := by
  obtain ⟨h, hl, hstep⟩ := Option.bind_eq_some_iff.mp hstep
  refine ⟨h, hl, ?_⟩
  cases hpc : h.pc with
  | writing sync => simp [hpc] at hstep
  | failed => simp [hpc] at hstep
  | idle | written =>
    simp only [hpc] at hstep
    split_ifs at hstep with hpos
    · exact Or.inl (Option.some.inj hstep).symm
    cases hb : y.bind i h with
    | none =>
      rw [hb] at hstep
      exact Or.inl (Option.some.inj hstep).symm
    | some z =>
      obtain ⟨z, g⟩ := z
      rw [hb] at hstep
      exact Or.inr ⟨fun sync hw => (by cases hw), Bool.eq_false_of_not_eq_true hpos, z, g, rfl,
        (Option.some.inj hstep).symm⟩

/-- Every step keeps the invariant, whatever the system calls and RocksDB give. -/
theorem Inv.step {a : SessionAction} (hi : Inv y) (hstep : step cfg y a = some y') : Inv y' := by
  cases a with
  | newTransaction ts =>
    obtain rfl := Option.some.inj hstep
    exact hi.append ts
  | useLog i =>
    obtain ⟨h, hl, rfl⟩ := Option.map_eq_some_iff.mp hstep
    obtain ⟨hh, hlive⟩ := live_some hl
    cases hb : y.bind i h with
    | none => exact hi
    | some z =>
      by_cases hbound : h.bound = true
      · rw [Session.bind, if_pos hbound] at hb
        obtain rfl := Option.some.inj hb
        exact hi
      · exact (hi.bind hh hlive (hi.not_writing_of_unbound hh hbound) hb).1
  | addLogEntry i entry =>
    obtain ⟨h, hl, rfl | ⟨hnw, hpos, z, g, hb, rfl⟩⟩ := addLogEntry_cases hstep
    · exact hi
    · obtain ⟨hh, hlive⟩ := live_some hl
      obtain ⟨hz, hg, hglive, hgpc, hgbound, -, hgpos, -⟩ := hi.bind hh hlive hnw hb
      exact hz.stage hg hglive hgbound (fun sync => hgpc ▸ hnw sync)
        (by rw [TransactionHandle.hasPosition, hgpos]; exact hpos) entry
  | commit i sync =>
    obtain ⟨h, hl, hstep⟩ := Option.bind_eq_some_iff.mp hstep
    obtain ⟨hh, hlive⟩ := live_some hl
    have hold := hi.handles hh
    split_ifs at hstep with hpc hstate
    · have hnw := not_writing_of_pc hpc nofun
      unfold beginCommit at hstep
      cases hb : h.logEntryBatch with
      | none =>
        simp only [hb] at hstep
        obtain rfl := Option.some.inj hstep
        exact hi.updateHandle hh hnw (hold.moved hnw nofun (fun _ => hlive) (Or.inr rfl) rfl rfl rfl) rfl
      | some batch =>
        simp only [hb] at hstep
        split_ifs at hstep with hbusy hclosing hsync
        · obtain rfl := Option.some.inj hstep
          exact hi.updateHandle hh hnw (hold.moved hnw nofun (fun _ => hlive) (Or.inl hb.symm) rfl rfl rfl) rfl
        · obtain rfl := Option.some.inj hstep
          exact hi.updateHandle hh hnw (hold.moved hnw nofun (fun _ => hlive) (Or.inl hb.symm) rfl rfl rfl) rfl
        · obtain rfl := Option.some.inj hstep
          have hbegin := hi.beginWrite hh hlive hb (Bool.eq_false_of_not_eq_true hbusy)
            (Bool.eq_false_of_not_eq_true hclosing) sync
          rw [hb] at hbegin
          exact hbegin
    · obtain rfl := Option.some.inj hstep
      exact hi
  | writer io => exact hi.stepWrite hstep
  | commitFailed i latest =>
    obtain ⟨h, hl, hstep⟩ := Option.bind_eq_some_iff.mp hstep
    obtain ⟨hh, hlive⟩ := live_some hl
    split_ifs at hstep with hpc
    obtain rfl := Option.some.inj hstep
    exact hi.finished hh (not_writing_of_pc hpc nofun) hlive .pending latest
  | commitResult i status latest =>
    obtain ⟨h, hl, hstep⟩ := Option.bind_eq_some_iff.mp hstep
    obtain ⟨hh, hlive⟩ := live_some hl
    split_ifs at hstep with hpc
    obtain rfl := Option.some.inj hstep
    have hnw := not_writing_of_pc hpc nofun
    cases status with
    | ok => exact hi.finished hh hnw hlive .committed latest
    | isBusy =>
      exact hi.updateHandle hh hnw ((hi.handles hh).moved hnw nofun (fun _ => hlive) (Or.inr rfl) rfl rfl rfl) rfl
    | error => exact hi.finished hh hnw hlive .pending latest
  | abort i =>
    obtain ⟨h, hl, hstep⟩ := Option.bind_eq_some_iff.mp hstep
    obtain ⟨hh, hlive⟩ := live_some hl
    split_ifs at hstep with hpc hstate
    · obtain rfl := Option.some.inj hstep
      exact hi.closeHandle hh hlive hpc
    · obtain rfl := Option.some.inj hstep
      exact hi
  | close i =>
    obtain ⟨h, hl, hstep⟩ := Option.bind_eq_some_iff.mp hstep
    obtain ⟨hh, hlive⟩ := live_some hl
    split_ifs at hstep with hpc
    obtain rfl := Option.some.inj hstep
    exact hi.closeHandle hh hlive hpc
  | tryClose =>
    simp only [Session.step] at hstep
    split_ifs at hstep
    · obtain rfl := Option.some.inj hstep
      exact hi
    · obtain rfl := Option.some.inj hstep
      refine ⟨hi.next, fun hb => ?_, fun hk => ?_, hi.count, hi.closing, fun c hc h4 => ?_⟩
      · obtain ⟨g, sync, wr, h1, h2, h3, h4, h5, h6⟩ := hi.writer hb
        exact ⟨g, sync, wr, h1, h2, h3, h4, h5, h6⟩
      · obtain ⟨h1, h2, h3, h4, h5⟩ := hi.handles hk
        exact ⟨h1, h2, h3, h4, h5⟩
      · rcases List.mem_append.mp hc with hc | hc
        · exact hi.marked c hc h4
        · obtain rfl := List.mem_singleton.mp hc
          cases h4
  | closePhase k io =>
    obtain ⟨c, hc, hstep⟩ := Option.bind_eq_some_iff.mp hstep
    obtain ⟨⟨w', c'⟩, hphase, rfl⟩ := Option.map_eq_some_iff.mp hstep
    exact hi.closePhase hc hphase

/-- A step of a transaction other than one of `writeBatch` leaves the directory alone. -/
theorem step_quiet {a : SessionAction} (hstep : Session.step cfg y a = some y')
    (ha : a.ofTransaction = true) (hw : ∀ io, a ≠ .writer io) :
    y'.world.store.isClosing = y.world.store.isClosing ∧ y'.world.disk = y.world.disk := by
  have hbind : ∀ {i h} {z : Session × TransactionHandle}, y.bind i h = some z →
      z.1.world.store.isClosing = y.world.store.isClosing ∧ z.1.world.disk = y.world.disk := by
    intro i h z hb
    unfold Session.bind at hb
    split_ifs at hb
    all_goals
      obtain rfl := Option.some.inj hb
      exact ⟨rfl, rfl⟩
  have hgive : ∀ {i h} (give : TransactionLogStore → LogPosition → TransactionLogStore),
    (∀ s p, (give s p).isClosing = s.isClosing) →
      (y.giveBack i h give).world.store.isClosing = y.world.store.isClosing ∧
        (y.giveBack i h give).world.disk = y.world.disk := by
    intro i h give hg
    unfold Session.giveBack
    split_ifs
    · exact ⟨hg _ _, rfl⟩
    · exact ⟨rfl, rfl⟩
  have hclose : ∀ {i h}, (y.closeHandle i h).world.store.isClosing = y.world.store.isClosing ∧
      (y.closeHandle i h).world.disk = y.world.disk := by
    intro i h
    unfold Session.closeHandle
    dsimp only
    split_ifs
    · exact ⟨rfl, rfl⟩
    · exact hgive _ fun _ _ => rfl
    · exact ⟨rfl, rfl⟩
    · exact ⟨rfl, rfl⟩
  cases a with
  | newTransaction ts =>
    obtain rfl := Option.some.inj hstep
    exact ⟨rfl, rfl⟩
  | useLog i =>
    obtain ⟨h, -, rfl⟩ := Option.map_eq_some_iff.mp hstep
    cases hb : y.bind i h with
    | none => exact ⟨rfl, rfl⟩
    | some z => exact hbind hb
  | addLogEntry i entry =>
    obtain ⟨h, -, rfl | ⟨-, -, z, g, hb, rfl⟩⟩ := addLogEntry_cases hstep
    · exact ⟨rfl, rfl⟩
    · exact hbind hb
  | commit i sync =>
    obtain ⟨h, -, hstep⟩ := Option.bind_eq_some_iff.mp hstep
    split_ifs at hstep
    · unfold beginCommit at hstep
      dsimp only at hstep
      split at hstep
      · obtain rfl := Option.some.inj hstep
        exact ⟨rfl, rfl⟩
      · split_ifs at hstep
        · obtain rfl := Option.some.inj hstep
          exact ⟨rfl, rfl⟩
        · obtain rfl := Option.some.inj hstep
          exact ⟨rfl, rfl⟩
        · obtain rfl := Option.some.inj hstep
          unfold RocksdbJs.beginWrite
          split_ifs
          exact ⟨rfl, rfl⟩
    · obtain rfl := Option.some.inj hstep
      exact ⟨rfl, rfl⟩
  | writer io => exact absurd rfl (hw io)
  | commitFailed i latest =>
    obtain ⟨h, -, hstep⟩ := Option.bind_eq_some_iff.mp hstep
    split_ifs at hstep
    obtain rfl := Option.some.inj hstep
    exact hgive _ fun _ _ => rfl
  | commitResult i status latest =>
    obtain ⟨h, -, hstep⟩ := Option.bind_eq_some_iff.mp hstep
    split_ifs at hstep
    obtain rfl := Option.some.inj hstep
    cases status with
    | ok => exact hgive _ fun _ _ => rfl
    | isBusy => exact ⟨rfl, rfl⟩
    | error => exact hgive _ fun _ _ => rfl
  | abort i =>
    obtain ⟨h, -, hstep⟩ := Option.bind_eq_some_iff.mp hstep
    split_ifs at hstep
    · obtain rfl := Option.some.inj hstep
      exact hclose
    · obtain rfl := Option.some.inj hstep
      exact ⟨rfl, rfl⟩
  | close i =>
    obtain ⟨h, -, hstep⟩ := Option.bind_eq_some_iff.mp hstep
    split_ifs at hstep
    obtain rfl := Option.some.inj hstep
    exact hclose
  | tryClose => cases ha
  | closePhase k io => cases ha

end

end Session

end RocksdbJs
