import RocksdbJs.Spec.RetryLoop
import RocksdbJs.Sanity.BatchEnd
import RocksdbJs.Sanity.Sessions
import RocksdbJs.Proofs.BatchLimits
import RocksdbJs.Proofs.PendingCount

/-! Busy commits and the log. `transaction` keeps its handle over all attempts, and a handle with a
position takes no more entries, so its batch is written by the first attempt and finished by the
last. `transactionSync` makes a new handle for each attempt, which writes the entries again and
leaves the position of the old one registered. -/

namespace RocksdbJs

open TransactionLogStore

/-- The log write of the step, if it makes one, succeeds, and its file stays below 4 GiB. -/
def Session.Lands (cfg : StoreConfig) (y : Session) : SessionAction → Prop
  | .writer io => ∀ wr ∈ y.world.writer, io.Succeeds cfg y.world wr ∧ io.Ok cfg y.world.store wr
  | _ => True

/-- No transaction is in flight: at most the place of the next entry is registered. -/
def AllDecided (s : TransactionLogStore) : Prop := ∀ p ∈ s.uncommittedTransactionPositions, p = s.nextLogPosition

theorem AllDecided.fullyCommittedPosition {s : TransactionLogStore} (h : AllDecided s) :
    s.fullyCommittedPosition = s.nextLogPosition := by
  unfold TransactionLogStore.fullyCommittedPosition
  cases hf : s.uncommittedTransactionPositions.front? with
  | none => rfl
  | some p => exact h p (SortedVec.front?_mem hf)

/-- What a call leaves: one copy of the entries behind the log it found, all of it before the
watermark if the call found no transaction in flight, and no position of its handles registered. -/
structure LoggedOnce (entries : List TransactionLogEntry) (y y' : Session) : Prop where
  once : ∃ timestamp, y'.world.disk.content =
    y.world.disk.content ++ (TransactionLogEntryBatch.mk timestamp entries 0).records
  past : AllDecided y.world.store →
    ∀ p ∈ y'.world.disk.places.drop y.world.disk.content.length, p < y'.world.store.lastCommittedPosition
  left : ∀ h ∈ y'.handles.drop y.handles.length, h.hasPosition = true →
    h.committedPosition ∉ y'.world.store.uncommittedTransactionPositions

/-- The log holds `records` behind what was in `w0`, under position `p`. -/
structure Logged (w0 : World) (records : List LogRecord) (p : LogPosition) (w : World) : Prop where
  past : PastEnd w.store w.disk
  content : w.disk.content = w0.disk.content ++ records
  sole : AllDecided w0.store → ∀ q ∈ w.store.uncommittedTransactionPositions, q = p ∨ q = w.store.nextLogPosition

namespace Session

section
variable {cfg : StoreConfig} {y y' z : Session} {i : ℕ} {h : TransactionHandle}

theorem live_of (hh : y.handles[i]? = some h) (hlive : h.closed = false) : y.live i = some h := by
  rw [live, hh, Option.filter_some, hlive]
  rfl

/-- The session after entries were added through handle `i`. -/
structure Staged (y : Session) (i : ℕ) (entries : List TransactionLogEntry) (h h' : TransactionHandle)
    (z : Session) : Prop where
  world : ∃ count, z.world = { y.world with store := { y.world.store with pendingTransactionCount := count } }
  handles : z.handles = y.handles.set i h'
  closed : h'.closed = h.closed
  pc : h'.pc = h.pc
  state : h'.state = h.state
  position : h'.committedPosition = h.committedPosition
  batch : h'.logEntryBatch = some { h.logEntryBatch.getD ⟨h.startTimestamp, [], 0⟩ with
    entries := (h.logEntryBatch.getD ⟨h.startTimestamp, [], 0⟩).entries ++ entries }

theorem stage_one {entry : TransactionLogEntry} (hh : y.handles[i]? = some h) (hlive : h.closed = false)
    (hpc : h.pc = .idle) (hpos : h.hasPosition = false) (hopen : y.world.store.isClosing = false)
    (hstep : step cfg y (.addLogEntry i entry) = some z) : ∃ h', Staged y i [entry] h h' z := by
  have hlt : i < y.handles.length := (List.getElem?_eq_some_iff.mp hh).1
  simp only [step, live_of hh hlive, Option.bind_some, hpc, hpos, Bool.false_eq_true, if_false] at hstep
  unfold Session.bind at hstep
  split_ifs at hstep with hbound hclosing
  · obtain rfl := Option.some.inj hstep
    exact ⟨h.stage entry, ⟨_, rfl⟩, rfl, rfl, rfl, rfl, rfl, rfl⟩
  · rw [hopen] at hclosing
    cases hclosing
  · obtain rfl := Option.some.inj hstep
    refine ⟨{ h with bound := true }.stage entry, ⟨_, rfl⟩, ?_, rfl, rfl, rfl, rfl, rfl⟩
    exact List.set_set ..

theorem stage_run (entries : List TransactionLogEntry) (hne : entries ≠ []) (hh : y.handles[i]? = some h)
    (hlive : h.closed = false) (hpc : h.pc = .idle) (hpos : h.hasPosition = false)
    (hopen : y.world.store.isClosing = false)
    (hrun : Runs.exec (step cfg) y (entries.map (.addLogEntry i)) = some z) :
    ∃ h', Staged y i entries h h' z := by
  induction entries generalizing y h with
  | nil => exact absurd rfl hne
  | cons entry entries ih =>
    obtain ⟨u, hu, hrest⟩ := Runs.exec_cons.mp hrun
    obtain ⟨g, hg⟩ := stage_one hh hlive hpc hpos hopen hu
    cases entries with
    | nil =>
      obtain rfl : u = z := by simpa [Runs.exec] using hrest
      exact ⟨g, hg⟩
    | cons next entries =>
      have hlt : i < y.handles.length := (List.getElem?_eq_some_iff.mp hh).1
      have hself : u.handles[i]? = some g := by rw [hg.handles]; simp [hlt]
      have hpos' : g.hasPosition = false := by rw [TransactionHandle.hasPosition, hg.position]; exact hpos
      obtain ⟨c, hc⟩ := hg.world
      obtain ⟨h', hs⟩ := ih (by simp) hself (hg.closed.trans hlive) (hg.pc.trans hpc) hpos'
        (by rw [hc]; exact hopen) hrest
      obtain ⟨c', hc'⟩ := hs.world
      refine ⟨h', ⟨c', by rw [hc', hc]⟩, ?_, hs.closed.trans hg.closed, hs.pc.trans hg.pc, hs.state.trans hg.state,
        hs.position.trans hg.position, ?_⟩
      · rw [hs.handles, hg.handles, List.set_set]
      · rw [hs.batch, hg.batch]
        simp

/-- A handle with a position takes no entries. -/
theorem stage_skip (entries : List TransactionLogEntry) (hh : y.handles[i]? = some h) (hlive : h.closed = false)
    (hpc : h.pc = .idle) (hpos : h.hasPosition = true)
    (hrun : Runs.exec (step cfg) y (entries.map (.addLogEntry i)) = some z) : z = y := by
  induction entries with
  | nil => simpa [Runs.exec, eq_comm] using hrun
  | cons entry entries ih =>
    obtain ⟨u, hu, hrest⟩ := Runs.exec_cons.mp hrun
    simp only [step, live_of hh hlive, Option.bind_some, hpc, hpos, if_true] at hu
    obtain rfl := Option.some.inj hu
    exact ih hrest

/-- The last handle, behind `H`, is in its `writeBatch` call, or past it. -/
structure Writes (cfg : StoreConfig) (H : List TransactionHandle) (w0 : World)
    (b0 : TransactionLogEntryBatch) (z : Session) : Prop where
  inv : Inv z
  notClosing : z.world.store.isClosing = false
  writerOf : z.writerOf = H.length
  handle : ∃ h, z.handles = H ++ [h] ∧ h.closed = false ∧
    ((∃ sync wr, z.IsWriting h sync wr ∧ Writing cfg w0.disk b0 z.world wr ∧ wr.Ends z.world ∧
        (AllDecided w0.store → ∀ p ∈ z.world.store.uncommittedTransactionPositions, p = wr.logPosition)) ∨
      (h.pc = .written ∧ h.logEntryBatch = none ∧ h.hasPosition = true ∧ Ready z.world ∧ z.world.busy = false ∧
        Logged w0 b0.records h.committedPosition z.world))

theorem set_last (H : List TransactionHandle) (h h' : TransactionHandle) : (H ++ [h]).set H.length h' = H ++ [h'] := by
  simp

theorem get_last (H : List TransactionHandle) (h : TransactionHandle) : (H ++ [h])[H.length]? = some h := by
  simp

/-- The writer has returned: its batch is in the log. -/
theorem logged_of_returned {w0 w' : World} {b0 : TransactionLogEntryBatch} {wr' : Writer}
    (hw : Writing cfg w0.disk b0 w' wr') (hend : wr'.Ends w') (hpc : wr'.pc = .returned)
    (hclosing : w'.store.isClosing = false)
    (hsole : AllDecided w0.store → ∀ q ∈ w'.store.uncommittedTransactionPositions, q = wr'.logPosition ∨
      q = w'.store.nextLogPosition) :
    Ready w' ∧ Logged w0 b0.records wr'.logPosition w' := by
  have hplace := hw.place
  rw [Writer.Place, hpc, TransactionLogEntryBatch.isComplete, decide_eq_true_iff, hw.entries,
    ← records_length b0] at hplace
  rw [Writer.Ends, hpc] at hend
  have hcontent := hw.content
  rw [List.take_of_length_le hplace] at hcontent
  exact ⟨⟨hw.log, hend.1, hclosing⟩, hend.2, hcontent, hsole⟩

theorem Writes.step {H : List TransactionHandle} {w0 : World} {b0 : TransactionLogEntryBatch} {io : WriterCalls}
    (hw : Writes cfg H w0 b0 z) (hok : Lands cfg z (.writer io)) (hstep : step cfg z (.writer io) = some y') :
    Writes cfg H w0 b0 y' := by
  have hinv := hw.inv.step hstep
  obtain ⟨h, hH, hlive, hcase⟩ := hw.handle
  obtain ⟨g, sync, wr, w', wr', hg, hm, hw', rfl⟩ := stepWrite_cases hw.inv hstep
  obtain rfl : g = h := by
    have := hg.handle
    rw [hw.writerOf, hH, get_last] at this
    exact (Option.some.inj this).symm
  obtain ⟨sync', vr, hvr, hwriting, hends, hsole⟩ := hcase.resolve_right fun hwritten => by
    rw [hg.pc] at hwritten
    exact nomatch hwritten.1
  obtain rfl := Option.some.inj (hg.writer.symm.trans hvr.writer)
  obtain ⟨hsucc, hfit⟩ := hok wr hg.writer
  obtain ⟨hwriting', hends'⟩ := writing_step hwriting hends hsucc hfit hw' hm.writer
  have hopen : w'.store.isClosing = false := hm.isClosing.trans hw.notClosing
  -- the positions are those the call had, and at its end the place of the next entry
  have hadded : AllDecided w0.store → ∀ q ∈ w'.store.uncommittedTransactionPositions,
      q = wr'.logPosition ∨ wr'.pc = .returned ∧ q = w'.store.nextLogPosition := by
    intro hd q hq
    rcases hm.added q hq with hq | ⟨hq, hsame⟩ | hq
    · exact Or.inl hq
    · have := hsole hd q hq
      exact Or.inl (this.trans (hsame this).symm)
    · exact Or.inr hq
  have hset : z.handles.set z.writerOf (g.afterWriterStep sync wr') = H ++ [g.afterWriterStep sync wr'] := by
    rw [hw.writerOf, hH, set_last]
  rcases afterWriterStep_cases g sync wr' with ⟨hpc, hg'⟩ | ⟨e, hpc, -⟩ | ⟨hbusy, hg'⟩
  · dsimp only at hinv ⊢
    rw [if_pos hpc] at hinv ⊢
    obtain ⟨hready, hlogged⟩ := logged_of_returned hwriting' hends' hpc hopen fun hd q hq =>
      (hadded hd q hq).imp_right And.right
    refine ⟨hinv, hopen, hw.writerOf, _, hset, ?_, Or.inr ?_⟩
    · rw [hg']
      exact hlive
    · rw [hg']
      have htaken := hm.taken
      rw [Writer.Taken, hpc] at htaken
      refine ⟨rfl, rfl, decide_eq_true (Nat.pos_of_ne_zero htaken.1), hready, ?_, hlogged⟩
      change w'.busy = false
      rw [busy_writer hm.writer, Writer.busy, hpc]
  · have hplace := hwriting'.place
    rw [Writer.Place, hpc] at hplace
    exact hplace.elim
  · have hne : wr'.pc ≠ .returned := by
      intro hpc
      rw [Writer.busy, hpc] at hbusy
      cases hbusy
    dsimp only at hinv ⊢
    rw [if_neg hne] at hinv ⊢
    refine ⟨hinv, hopen, hw.writerOf, _, hset, ?_, Or.inl ⟨sync, wr', ?_, hwriting', hends', fun hd q hq => ?_⟩⟩
    · rw [hg']
      exact hlive
    · refine ⟨?_, ?_, hm.writer, ?_, ?_, hm.taken⟩
      · change (z.handles.set z.writerOf _)[z.writerOf]? = _
        rw [hset, hw.writerOf, get_last]
      all_goals rw [hg']
      exact hg.pc
    · exact (hadded hd q hq).resolve_right fun hr => hne hr.1

theorem Writes.run {H : List TransactionHandle} {w0 : World} {b0 : TransactionLogEntryBatch} {writes : List WriterCalls}
    (hw : Writes cfg H w0 b0 z) (hok : Runs.Along (Session.step cfg) (Lands cfg) z (writes.map .writer))
    (hrun : Runs.exec (Session.step cfg) z (writes.map .writer) = some y') : Writes cfg H w0 b0 y' := by
  induction writes generalizing z with
  | nil =>
    obtain rfl : z = y' := by simpa [Runs.exec] using hrun
    exact hw
  | cons io writes ih =>
    obtain ⟨u, hu, hrest⟩ := Runs.exec_cons.mp hrun
    exact ih (hw.step hok.1 hu) (hok.2 u hu) hrest

/-- The session between the calls of its last handle, behind `H`. -/
structure Rests (H : List TransactionHandle) (h : TransactionHandle) (z : Session) : Prop where
  inv : Inv z
  ready : Ready z.world
  idle : z.world.busy = false
  handles : z.handles = H ++ [h]
  live : h.closed = false
  batch : h.logEntryBatch = none

/-- The handle has written nothing since `w0`, or it has written the entries. -/
def Held (w0 : World) (entries : List TransactionLogEntry) (h : TransactionHandle) (w : World) : Prop :=
  (h.hasPosition = false ∧ w = w0) ∨
    (h.hasPosition = true ∧ ∃ timestamp, Logged w0 (TransactionLogEntryBatch.mk timestamp entries 0).records
      h.committedPosition w)

variable {H : List TransactionHandle} {h1 : TransactionHandle} {z1 : Session}
    {entries : List TransactionLogEntry} {w0 : World}

theorem Rests.get (hr : Rests H h z) : z.handles[H.length]? = some h := by
  rw [hr.handles, get_last]

theorem Rests.live_last (hr : Rests H h z) : z.live H.length = some h := live_of hr.get hr.live

/-- Nothing is written where `writeMutex` is free. -/
theorem no_write (hi : Inv z) (hidle : z.world.busy = false) {writes : List WriterCalls}
    (hrun : Runs.exec (step cfg) z (writes.map .writer) = some z1) : z1 = z := by
  cases writes with
  | nil => simpa [Runs.exec, eq_comm] using hrun
  | cons io writes =>
    obtain ⟨u, hu, -⟩ := Runs.exec_cons.mp hrun
    obtain ⟨g, sync, wr, w', wr', hg, -⟩ := stepWrite_cases hi hu
    exact absurd hg.pc (hi.not_writing hidle hg.handle sync)

/-- The commit of a handle without a batch leaves the store alone. -/
theorem commit_without {sync : Bool} {writes : List WriterCalls} (hr : Rests H h z) (hpc : h.pc = .idle)
    (hstate : h.state = .pending)
    (hrun : Runs.exec (step cfg) z (.commit H.length sync :: writes.map .writer) = some z1) :
    z1.world = z.world ∧ ∃ g, Rests H g z1 ∧ g.pc = .written ∧ g.committedPosition = h.committedPosition := by
  obtain ⟨u, hu, hrest⟩ := Runs.exec_cons.mp hrun
  have hinv := hr.inv.step hu
  simp only [step, hr.live_last, Option.bind_some, hpc, hstate, if_true, beginCommit, hr.batch] at hu
  obtain rfl := Option.some.inj hu
  obtain rfl := no_write hinv hr.idle hrest
  refine ⟨rfl, { h with state := .committing, pc := .written }, ⟨hinv, hr.ready, hr.idle, ?_, hr.live, ?_⟩, rfl, rfl⟩
  · change z.handles.set _ _ = _
    rw [hr.handles, set_last, hr.batch]
  · exact hr.batch

/-- The commit of a handle with a batch puts it in the log. -/
theorem commit_with {sync : Bool} {writes : List WriterCalls} {st : CommitStatus} {n : ℕ}
    (hr : Rests H h z) (hpc : h.pc = .idle) (hstate : h.state = .pending) (hpos : h.hasPosition = false)
    (hne : entries ≠ [])
    (hok : Runs.Along (step cfg) (Lands cfg) z (entries.map (.addLogEntry H.length) ++
      (.commit H.length sync :: writes.map .writer)))
    (hrun : Runs.exec (step cfg) z (entries.map (.addLogEntry H.length) ++
      (.commit H.length sync :: writes.map .writer)) = some z1)
    (hend : step cfg z1 (.commitResult H.length st n) = some z') :
    ∃ g, Rests H g z1 ∧ g.pc = .written ∧ g.hasPosition = true ∧
      ∃ timestamp, Logged z.world (TransactionLogEntryBatch.mk timestamp entries 0).records
        g.committedPosition z1.world := by
  rw [Runs.exec_append] at hrun
  obtain ⟨u, hu, hrun⟩ := Option.bind_eq_some_iff.mp hrun
  obtain ⟨hstaged, hok⟩ := hok.append hu
  have hinvu : Inv u := Runs.exec_invariant (fun _ _ _ hi _ hs => hi.step hs) hr.inv hstaged hu
  obtain ⟨g, hg⟩ := stage_run entries hne hr.get hr.live hpc hpos hr.ready.notClosing hu
  obtain ⟨c, hc⟩ := hg.world
  have hH : u.handles = H ++ [g] := by rw [hg.handles, hr.handles, set_last]
  have hbatch : g.logEntryBatch = some ⟨h.startTimestamp, entries, 0⟩ := by
    rw [hg.batch, hr.batch]
    rfl
  have hreadyu : Ready u.world := by
    rw [hc]
    exact ⟨hr.ready.log.congr rfl rfl rfl, hr.ready.bounded, hr.ready.notClosing⟩
  obtain ⟨v, hv, hrest⟩ := Runs.exec_cons.mp hrun
  obtain ⟨-, hok⟩ := hok
  have hinvv := hinvu.step hv
  have hlands := hok v hv
  have hlive : u.live H.length = some g := live_of (by rw [hH, get_last]) (hg.closed.trans hr.live)
  have hidle : u.world.busy = false := by
    rw [hc]
    exact hr.idle
  simp only [step, hlive, Option.bind_some, hg.pc.trans hpc, hg.state.trans hstate, if_true, beginCommit, hbatch, hidle,
    hreadyu.notClosing, Bool.false_eq_true, if_false] at hv
  obtain ⟨wr, hwr, hpcw, hbw, hdisk, -, -, hwriting⟩ := beginWrite_writing cfg hreadyu
    (show Unwritten ⟨h.startTimestamp, entries, 0⟩ from ⟨hne, rfl⟩)
  have hstart : Writes cfg H z.world ⟨h.startTimestamp, entries, 0⟩ v := by
    rw [hH, set_last] at hv
    obtain rfl := Option.some.inj hv
    obtain ⟨k, sync', wr', hk⟩ := hinvv.writer (by
      change (RocksdbJs.beginWrite u.world _).busy = true
      rw [busy_writer hwr, Writer.busy, hpcw])
    obtain rfl := Option.some.inj (hwr.symm.trans hk.writer)
    have hk' := Option.some.inj ((get_last H _).symm.trans hk.handle)
    have hpos0 : wr.logPosition = z.world.store.nextLogPosition := by
      rw [← hk.position, ← hk', hc]
    refine ⟨hinvv, ?_, rfl, k, by rw [← hk'], by rw [← hk']; exact hg.closed.trans hr.live,
      Or.inl ⟨sync', wr, hk, ?_, by rw [Writer.Ends, hpcw]; trivial, ?_⟩⟩
    · change (RocksdbJs.beginWrite u.world _).store.isClosing = false
      unfold RocksdbJs.beginWrite
      rw [hreadyu.notClosing]
      exact hreadyu.notClosing
    · rw [hc] at hwriting
      rw [hc]
      exact hwriting
    · intro hd q hq
      change q ∈ (RocksdbJs.beginWrite u.world _).store.uncommittedTransactionPositions at hq
      unfold RocksdbJs.beginWrite at hq
      rw [hreadyu.notClosing, hc] at hq
      rw [hpos0]
      rcases SortedVec.mem_insert.mp hq with rfl | hq
      · rfl
      · exact hd q hq
  have hwrites := hstart.run hlands hrest
  obtain ⟨k, hk, hklive, ⟨sync', wr', hwr', -⟩ | ⟨hkpc, hkbatch, hkpos, hkready, hkidle, hlogged⟩⟩ := hwrites.handle
  · -- a handle still writing has no result
    have hget : z1.live H.length = some k := live_of (by rw [hk, get_last]) hklive
    simp [step, hget, hwr'.pc] at hend
  · exact ⟨k, ⟨hwrites.inv, hkready, hkidle, hk, hklive, hkbatch⟩, hkpc, hkpos, _, hlogged⟩

/-- The callback and the commit of an attempt, up to what RocksDB gives. -/
theorem attempt_held {sync : Bool} {writes : List WriterCalls} {st : CommitStatus} {n : ℕ}
    (hr : Rests H h z) (hpc : h.pc = .idle) (hstate : h.state = .pending)
    (hheld : Held w0 entries h z.world)
    (hok : Runs.Along (step cfg) (Lands cfg) z (entries.map (.addLogEntry H.length) ++
      (.commit H.length sync :: writes.map .writer)))
    (hrun : Runs.exec (step cfg) z (entries.map (.addLogEntry H.length) ++
      (.commit H.length sync :: writes.map .writer)) = some z1)
    (hend : step cfg z1 (.commitResult H.length st n) = some z') :
    ∃ g, Rests H g z1 ∧ g.pc = .written ∧ Held w0 entries g z1.world ∧ (entries ≠ [] → g.hasPosition = true) ∧
      (entries = [] → g.hasPosition = h.hasPosition) := by
  by_cases hskip : h.hasPosition = true ∨ entries = []
  · have hcommit : Runs.exec (step cfg) z (.commit H.length sync :: writes.map .writer) = some z1 := by
      rw [Runs.exec_append] at hrun
      obtain ⟨u, hu, hcommit⟩ := Option.bind_eq_some_iff.mp hrun
      rcases hskip with hpos | rfl
      · obtain rfl := stage_skip entries hr.get hr.live hpc hpos hu
        exact hcommit
      · obtain rfl : z = u := by simpa [Runs.exec] using hu
        exact hcommit
    obtain ⟨hworld, g, hg, hgpc, hgpos⟩ := commit_without hr hpc hstate hcommit
    have hsame : g.hasPosition = h.hasPosition := by rw [TransactionHandle.hasPosition, hgpos]; rfl
    refine ⟨g, hg, hgpc, ?_, fun hne => hsame.trans (hskip.resolve_right hne), fun _ => hsame⟩
    rw [Held, hsame, hworld, hgpos]
    exact hheld
  · obtain ⟨hpos, hne⟩ := not_or.mp hskip
    have hpos := Bool.eq_false_of_not_eq_true hpos
    obtain ⟨g, hg, hgpc, hgpos, ts, hlogged⟩ := commit_with hr hpc hstate hpos hne hok hrun hend
    rcases hheld with ⟨-, hsame⟩ | ⟨hyes, -⟩
    · exact ⟨g, hg, hgpc, Or.inr ⟨hgpos, ts, hsame ▸ hlogged⟩, fun _ => hgpos, fun hnil => absurd hnil hne⟩
    · exact absurd (hpos.symm.trans hyes) Bool.false_ne_true

/-- A busy commit keeps the position and the store. -/
theorem result_busy {n : ℕ} (hr : Rests H h z) (hpc : h.pc = .written)
    (hend : step cfg z (.commitResult H.length .isBusy n) = some z1) :
    z1.world = z.world ∧ ∃ g, Rests H g z1 ∧ g.pc = .idle ∧ g.state = .pending ∧ g.committedPosition =
      h.committedPosition := by
  have hinv := hr.inv.step hend
  simp only [step, hr.live_last, Option.bind_some, hpc, if_true, endCommit] at hend
  obtain rfl := Option.some.inj hend
  refine ⟨rfl, { h with pc := .idle, state := .pending, logEntryBatch := none },
    ⟨hinv, hr.ready, hr.idle, ?_, hr.live, rfl⟩,
    rfl, rfl, rfl⟩
  change z.handles.set _ _ = _
  rw [hr.handles, set_last]

/-- A committed handle leaves the log as it is when it is closed. -/
theorem close_committed (hH : z.handles = H ++ [h]) (hlive : h.closed = false) (hpc : h.pc = .idle)
    (hstate : h.state = .committed) (hclose : step cfg z (.close H.length) = some z') :
    ∃ g, z'.handles = H ++ [g] ∧ g.committedPosition = h.committedPosition ∧ z'.world.disk = z.world.disk ∧
      (h.hasPosition = true → z'.world = z.world) := by
  have hlast : z.live H.length = some h := live_of (by rw [hH, get_last]) hlive
  simp only [step, hlast, Option.bind_some, hpc, if_true, closeHandle] at hclose
  have hshut : h.shut.state = .committed := by rw [TransactionHandle.shut, hstate]
  have hset : z.handles.set H.length h.shut = H ++ [h.shut] := by rw [hH, set_last]
  split_ifs at hclose with hpos hbound
  · obtain rfl := Option.some.inj hclose
    exact ⟨h.shut, hset, rfl, rfl, fun _ => rfl⟩
  · obtain rfl := Option.some.inj hclose
    exact ⟨h.shut, hset, rfl, rfl, fun hyes => absurd hyes hpos⟩
  · obtain rfl := Option.some.inj hclose
    exact ⟨h.shut, hset, rfl, rfl, fun hyes => absurd hyes hpos⟩

/-- A commit that succeeds and the close after it. -/
theorem result_close {n : ℕ} (hr : Rests H h z) (hpc : h.pc = .written)
    (hend : step cfg z (.commitResult H.length .ok n) = some z1)
    (hclose : step cfg z1 (.close H.length) = some z') :
    ∃ g, z'.handles = H ++ [g] ∧ g.committedPosition = h.committedPosition ∧ z'.world.disk = z.world.disk ∧
      (h.hasPosition = true → z'.world.store = z.world.store.commitFinished h.committedPosition n) := by
  simp only [step, hr.live_last, Option.bind_some, hpc, if_true, endCommit, giveBack] at hend
  have hset : ∀ g, z.handles.set H.length g = H ++ [g] := fun g => by rw [hr.handles, set_last]
  split_ifs at hend with hpos
  · obtain rfl := Option.some.inj hend
    obtain ⟨g, hg, hgpos, hdisk, hworld⟩ := close_committed
      (h := { h with pc := .idle, state := .committed, decided := true }) (hset _) hr.live rfl rfl hclose
    exact ⟨g, hg, hgpos, hdisk, fun hyes => by rw [hworld hyes]; rfl⟩
  · obtain rfl := Option.some.inj hend
    obtain ⟨g, hg, hgpos, hdisk, -⟩ := close_committed
      (h := { h with pc := .idle, state := .committed }) (hset _) hr.live rfl rfl hclose
    exact ⟨g, hg, hgpos, hdisk, fun hyes => absurd hyes hpos⟩

/-- A call whose last attempt succeeds with the entries behind the log it found has logged them
once, if no handle of an earlier attempt has a position. -/
theorem loggedOnce_of_held {hs : List TransactionHandle} {n : ℕ} (hH : H = y.handles ++ hs)
    (hr : Rests H h z) (hpc : h.pc = .written) (hheld : Held y.world entries h z.world)
    (hpos : entries ≠ [] → h.hasPosition = true) (hhs : ∀ g ∈ hs, g.hasPosition = false)
    (hend : step cfg z (.commitResult H.length .ok n) = some z1)
    (hclose : step cfg z1 (.close H.length) = some y') : LoggedOnce entries y y' := by
  obtain ⟨g, hg, hgpos, hdisk, hstore⟩ := result_close hr hpc hend hclose
  have hmem : ∀ k ∈ y'.handles.drop y.handles.length, k.hasPosition = true → k = g := by
    intro k hk hyes
    rw [hg, hH, List.append_assoc, List.drop_left, List.mem_append, List.mem_singleton] at hk
    exact hk.resolve_left fun hold => absurd ((hhs k hold).symm.trans hyes) Bool.false_ne_true
  have hsame : g.hasPosition = h.hasPosition := by rw [TransactionHandle.hasPosition, hgpos]; rfl
  rcases hheld with ⟨hno, hworld⟩ | ⟨hyes, ts, hlogged⟩
  · have hnil : entries = [] := by
      by_contra hne
      exact absurd (hno.symm.trans (hpos hne)) Bool.false_ne_true
    have hdisk' : y'.world.disk = y.world.disk := by rw [hdisk, hworld]
    refine ⟨⟨h.startTimestamp, ?_⟩, ?_, fun k hk hyes => ?_⟩
    · rw [hdisk', hnil]
      exact (List.append_nil _).symm
    · intro _ p hp
      rw [hdisk', ← places_length, List.drop_length] at hp
      cases hp
    · obtain rfl := hmem k hk hyes
      exact absurd (hno.symm.trans (hsame.symm.trans hyes)) Bool.false_ne_true
  · have hstore := hstore hyes
    have hleft : h.committedPosition ∉ y'.world.store.uncommittedTransactionPositions := by
      rw [hstore]
      exact fun hin => (SortedVec.mem_erase.mp hin).1 rfl
    refine ⟨⟨ts, by rw [hdisk]; exact hlogged.content⟩, ?_, fun k hk hyes => ?_⟩
    · intro hd p hp
      have hnext : y'.world.store.lastCommittedPosition = z.world.store.nextLogPosition := by
        rw [hstore]
        refine AllDecided.fullyCommittedPosition (s := z.world.store.positionErase h.committedPosition) fun q hq => ?_
        obtain ⟨hne, hq⟩ := SortedVec.mem_erase.mp hq
        exact (hlogged.sole hd q hq).resolve_left hne
      rw [hnext]
      rw [hdisk] at hp
      exact places_lt_next hr.ready.log hlogged.past p (List.mem_of_mem_drop hp)
    · obtain rfl := hmem k hk hyes
      rw [hgpos]
      exact hleft

/-- An attempt, taken apart. -/
theorem attempt_split {sync : Bool} {t : Attempted}
    (hok : Runs.Along (step cfg) (Lands cfg) y (attemptActions entries sync i t))
    (hrun : Runs.exec (step cfg) y (attemptActions entries sync i t) = some z) :
    ∃ u, Runs.Along (step cfg) (Lands cfg) y (entries.map (.addLogEntry i) ++
      (.commit i sync :: t.writes.map .writer)) ∧
      Runs.exec (step cfg) y (entries.map (.addLogEntry i) ++ (.commit i sync :: t.writes.map .writer)) = some u ∧
      step cfg u (.commitResult i t.status t.latestSequenceNumber) = some z := by
  have hsplit : attemptActions entries sync i t =
    (entries.map (.addLogEntry i) ++ (.commit i sync :: t.writes.map .writer)) ++
      [.commitResult i t.status t.latestSequenceNumber] := by
    simp [attemptActions]
  rw [hsplit] at hok hrun
  rw [Runs.exec_append] at hrun
  obtain ⟨u, hu, hend⟩ := Option.bind_eq_some_iff.mp hrun
  obtain ⟨v, hv, hnil⟩ := Runs.exec_cons.mp hend
  obtain rfl : v = z := by simpa [Runs.exec] using hnil
  exact ⟨u, (hok.append hu).1, hu, hv⟩

/-- The loop of `transaction`: its handle holds the entries of the call from the first attempt on. -/
theorem transactionLoop_once {opts : TransactionOptions} {n : ℕ} {tries : List Attempted}
    {acts : List SessionAction} (hr : Rests y.handles h z) (hpc : h.pc = .idle)
    (hstate : h.state = .pending) (hheld : Held y.world entries h z.world)
    (hloop : transactionLoop cfg opts entries y.handles.length n tries z = some (acts, true))
    (hok : Runs.Along (step cfg) (Lands cfg) z acts) (hrun : Runs.exec (step cfg) z acts = some y') :
    LoggedOnce entries y y' := by
  induction tries generalizing n z h acts with
  | nil => cases hloop
  | cons t ts ih =>
    obtain ⟨u, hu, hloop⟩ := Option.bind_eq_some_iff.mp hloop
    split_ifs at hloop with hst hts hretry hts
    · obtain ⟨rfl, -⟩ := Prod.mk.inj (Option.some.inj hloop)
      obtain ⟨hok, -⟩ := hok.append hu
      rw [Runs.exec_append, hu, Option.bind_some] at hrun
      obtain ⟨v, hv, hnil⟩ := Runs.exec_cons.mp hrun
      obtain rfl : v = y' := by simpa [Runs.exec] using hnil
      obtain ⟨z1, hok, hz1, hend⟩ := attempt_split hok hu
      obtain ⟨g, hg, hgpc, hgheld, hgpos, -⟩ := attempt_held hr hpc hstate hheld hok hz1 hend
      rw [hst] at hend
      exact loggedOnce_of_held (List.append_nil _).symm hg hgpc hgheld hgpos (fun k hk => by cases hk) hend hv
    · obtain ⟨⟨rest, flag⟩, hrest, heq⟩ := Option.map_eq_some_iff.mp hloop
      obtain ⟨rfl, rfl⟩ := Prod.mk.inj heq
      obtain ⟨hok, hokrest⟩ := hok.append hu
      rw [Runs.exec_append, hu, Option.bind_some] at hrun
      obtain ⟨z1, hok, hz1, hend⟩ := attempt_split hok hu
      obtain ⟨g, hg, hgpc, hgheld, -⟩ := attempt_held hr hpc hstate hheld hok hz1 hend
      rw [hretry.1] at hend
      obtain ⟨hworld, k, hk, hkpc, hkstate, hkpos⟩ := result_busy hg hgpc hend
      refine ih hk hkpc hkstate ?_ hrest hokrest hrun
      rw [hworld, Held, TransactionHandle.hasPosition, hkpos]
      exact hgheld
    · cases hloop

/-- A session on which no `writeBatch` call runs. -/
structure Free (y : Session) : Prop where
  inv : Inv y
  ready : Ready y.world
  idle : y.world.busy = false

theorem Rests.free (hr : Rests H h z) : Free z := ⟨hr.inv, hr.ready, hr.idle⟩

theorem Free.newTransaction (hf : Free y) (ts : Binary64) :
    Rests y.handles { startTimestamp := ts } { y with handles := y.handles ++ [{ startTimestamp := ts }] } :=
  ⟨hf.inv.append ts, hf.ready, hf.idle, rfl, rfl, rfl⟩

/-- One attempt of `transactionSync`, with a handle of its own. -/
theorem sync_attempt {t : Attempted} (hf : Free y)
    (hok : Runs.Along (step cfg) (Lands cfg) y (.newTransaction t.startTimestamp ::
      attemptActions entries true y.handles.length t))
    (hrun : Runs.exec (step cfg) y (.newTransaction t.startTimestamp ::
      attemptActions entries true y.handles.length t) = some z) :
    ∃ g z1, Rests y.handles g z1 ∧ g.pc = .written ∧ Held y.world entries g z1.world ∧
      (entries ≠ [] → g.hasPosition = true) ∧
      (entries = [] → g.hasPosition = false) ∧
      step cfg z1 (.commitResult y.handles.length t.status t.latestSequenceNumber) = some z := by
  obtain ⟨u, hu, hrun⟩ := Runs.exec_cons.mp hrun
  have hok := hok.2 u hu
  obtain rfl := Option.some.inj hu
  obtain ⟨z1, hok, hz1, hend⟩ := attempt_split hok hrun
  obtain ⟨g, hg, hgpc, hheld, hpos, hnone⟩ :=
    attempt_held (hf.newTransaction _) rfl rfl (Or.inl ⟨rfl, rfl⟩) hok hz1 hend
  exact ⟨g, z1, hg, hgpc, hheld, hpos, hnone, hend⟩

theorem Held.length {w : World} (hheld : Held w0 entries h w) (hpos : entries ≠ [] → h.hasPosition = true) :
    w.disk.content.length = w0.disk.content.length + entries.length := by
  rcases hheld with ⟨hno, rfl⟩ | ⟨-, ts, hlogged⟩
  · have hnil : entries = [] := by
      by_contra hne
      exact absurd (hno.symm.trans (hpos hne)) Bool.false_ne_true
    rw [hnil]
    rfl
  · rw [hlogged.content, List.length_append, records_length]

/-- Every attempt of `transactionSync` logs the entries. -/
theorem transactionSync_length {opts : TransactionOptions} {n : ℕ} {tries : List Attempted} {acts : List SessionAction}
    (hf : Free y) (hloop : transactionSync cfg opts entries n tries y = some (acts, true))
    (hok : Runs.Along (step cfg) (Lands cfg) y acts) (hrun : Runs.exec (step cfg) y acts = some y') :
    y'.world.disk.content.length = y.world.disk.content.length + tries.length * entries.length := by
  induction tries generalizing n y acts with
  | nil => cases hloop
  | cons t ts ih =>
    obtain ⟨u, hu, hloop⟩ := Option.bind_eq_some_iff.mp hloop
    split_ifs at hloop with hst hts hretry hts
    · obtain ⟨rfl, -⟩ := Prod.mk.inj (Option.some.inj hloop)
      obtain ⟨hok, -⟩ := hok.append hu
      rw [Runs.exec_append, hu, Option.bind_some] at hrun
      obtain ⟨v, hv, hnil⟩ := Runs.exec_cons.mp hrun
      obtain rfl : v = y' := by simpa [Runs.exec] using hnil
      obtain ⟨g, z1, hg, hgpc, hheld, hpos, -, hend⟩ := sync_attempt hf hok hu
      rw [hst] at hend
      obtain ⟨-, -, -, hdisk, -⟩ := result_close hg hgpc hend hv
      rw [hdisk, hheld.length hpos, List.isEmpty_iff.mp hts, List.length_singleton, one_mul]
    · obtain ⟨⟨rest, flag⟩, hrest, heq⟩ := Option.map_eq_some_iff.mp hloop
      obtain ⟨rfl, rfl⟩ := Prod.mk.inj heq
      obtain ⟨hok, hokrest⟩ := hok.append hu
      rw [Runs.exec_append, hu, Option.bind_some] at hrun
      obtain ⟨g, z1, hg, hgpc, hheld, hpos, -, hend⟩ := sync_attempt hf hok hu
      rw [hretry.1] at hend
      obtain ⟨hworld, k, hk, -⟩ := result_busy hg hgpc hend
      rw [ih hk.free hrest hokrest hrun, hworld, hheld.length hpos, List.length_cons, Nat.succ_mul]
      omega
    · cases hloop

/-- `transactionSync` logs entries once if there are none, or if its first commit is not busy. -/
theorem transactionSync_once {opts : TransactionOptions} {n : ℕ} {tries : List Attempted}
    {acts : List SessionAction} {hs : List TransactionHandle} (hf : Free z) (hworld : z.world = y.world)
    (hhandles : z.handles = y.handles ++ hs) (hhs : ∀ g ∈ hs, g.hasPosition = false)
    (hcond : entries = [] ∨ tries.length = 1)
    (hloop : transactionSync cfg opts entries n tries z = some (acts, true))
    (hok : Runs.Along (step cfg) (Lands cfg) z acts) (hrun : Runs.exec (step cfg) z acts = some y') :
    LoggedOnce entries y y' := by
  induction tries generalizing n z acts hs with
  | nil => cases hloop
  | cons t ts ih =>
    obtain ⟨u, hu, hloop⟩ := Option.bind_eq_some_iff.mp hloop
    split_ifs at hloop with hst hts hretry hts
    · obtain ⟨rfl, -⟩ := Prod.mk.inj (Option.some.inj hloop)
      obtain ⟨hok, -⟩ := hok.append hu
      rw [Runs.exec_append, hu, Option.bind_some] at hrun
      obtain ⟨v, hv, hnil⟩ := Runs.exec_cons.mp hrun
      obtain rfl : v = y' := by simpa [Runs.exec] using hnil
      obtain ⟨g, z1, hg, hgpc, hheld, hpos, -, hend⟩ := sync_attempt hf hok hu
      rw [hst] at hend
      exact loggedOnce_of_held hhandles hg hgpc (hworld ▸ hheld) hpos hhs hend hv
    · obtain ⟨⟨rest, flag⟩, hrest, heq⟩ := Option.map_eq_some_iff.mp hloop
      obtain ⟨rfl, rfl⟩ := Prod.mk.inj heq
      obtain ⟨hok, hokrest⟩ := hok.append hu
      rw [Runs.exec_append, hu, Option.bind_some] at hrun
      obtain ⟨g, z1, hg, hgpc, hheld, -, hnone, hend⟩ := sync_attempt hf hok hu
      have hnil : entries = [] := by
        refine hcond.resolve_right fun hone => ?_
        obtain rfl := List.length_eq_zero_iff.mp (Nat.succ.inj hone)
        cases hrest
      rw [hretry.1] at hend
      obtain ⟨hw1, k, hk, -, -, hkpos⟩ := result_busy hg hgpc hend
      have hkno : k.hasPosition = false := by
        rw [TransactionHandle.hasPosition, hkpos]
        exact hnone hnil
      have hsame : z1.world = z.world := by
        rcases hheld with ⟨-, hw⟩ | ⟨hyes, -⟩
        · exact hw
        · exact absurd ((hnone hnil).symm.trans hyes) Bool.false_ne_true
      refine ih hk.free (hw1.trans (hsame.trans hworld)) (show _ = _ ++ (hs ++ [k]) from ?_) ?_
        (Or.inl hnil) hrest hokrest hrun
      · rw [hk.handles, hhandles, List.append_assoc]
      · intro k' hk'
        rcases List.mem_append.mp hk' with hk' | hk'
        · exact hhs k' hk'
        · obtain rfl := List.mem_singleton.mp hk'
          exact hkno
    · cases hloop

/-- For every call that returns and every list of commit results, the entries are logged once
exactly if the call is `transaction`, or there are no entries, or the first commit is not busy. -/
theorem logged_once_iff {opts : TransactionOptions} {sync : Bool} {tries : List Attempted} {acts : List SessionAction}
    (hf : Free y) (hcall : databaseCall cfg opts sync entries tries y = some (acts, true))
    (hok : Runs.Along (step cfg) (Lands cfg) y acts) (hrun : Runs.exec (step cfg) y acts = some y') :
    LoggedOnce entries y y' ↔ sync = false ∨ entries = [] ∨ tries.length = 1 := by
  cases sync with
  | false =>
    refine ⟨fun _ => Or.inl rfl, fun _ => ?_⟩
    obtain ⟨t, -, hcall⟩ := Option.bind_eq_some_iff.mp (show transaction cfg opts entries tries y = _ from hcall)
    split_ifs at hcall with hmax
    obtain ⟨z, hz, hcall⟩ := Option.bind_eq_some_iff.mp hcall
    obtain ⟨⟨rest, flag⟩, hloop, heq⟩ := Option.map_eq_some_iff.mp hcall
    obtain ⟨rfl, rfl⟩ := Prod.mk.inj heq
    obtain ⟨u, hu, hrun⟩ := Runs.exec_cons.mp hrun
    have hokrest := hok.2 u hu
    obtain rfl := Option.some.inj (hu.symm.trans hz)
    obtain rfl := Option.some.inj hz
    exact transactionLoop_once (hf.newTransaction t.startTimestamp) rfl rfl (Or.inl ⟨rfl, rfl⟩) hloop hokrest hrun
  | true =>
    have hcall : transactionSync cfg opts entries 1 tries y = some (acts, true) := hcall
    refine ⟨fun honce => Or.inr ?_, fun hcond => ?_⟩
    · obtain ⟨ts, hcontent⟩ := honce.once
      have hlen := transactionSync_length hf hcall hok hrun
      rw [hcontent, List.length_append, records_length] at hlen
      have hone : tries.length * entries.length = 1 * entries.length := by
        rw [one_mul]
        exact (Nat.add_left_cancel hlen).symm
      rcases Nat.eq_zero_or_pos entries.length with hzero | hpos
      · exact Or.inl (List.length_eq_zero_iff.mp hzero)
      · exact Or.inr (Nat.eq_of_mul_eq_mul_right hpos hone)
    · exact transactionSync_once hf rfl (List.append_nil _).symm nofun (hcond.resolve_left nofun) hcall hok hrun

end

instance (cfg : StoreConfig) (y : Session) : ∀ a, Decidable (Lands cfg y a)
  | .writer io =>
    inferInstanceAs (Decidable (∀ wr ∈ y.world.writer, io.Succeeds cfg y.world wr ∧ io.Ok cfg y.world.store wr))
  | .newTransaction _ => isTrue trivial
  | .useLog _ => isTrue trivial
  | .addLogEntry _ _ => isTrue trivial
  | .commit _ _ => isTrue trivial
  | .commitFailed _ _ => isTrue trivial
  | .commitResult _ _ _ => isTrue trivial
  | .abort _ => isTrue trivial
  | .close _ => isTrue trivial
  | .tryClose => isTrue trivial
  | .closePhase _ _ => isTrue trivial

/-- A commit that is busy and one that succeeds, each with the system calls of a log write. -/
def busyThenOk (again : Bool) : List Attempted :=
  let writes : List WriterCalls := [{}, {}, {}, {}, { results := [.count 14] }, {}, {}, {}]
  [⟨⟨5⟩, writes, .isBusy, 0⟩, ⟨⟨6⟩, if again then writes else [], .ok, 9⟩]

/-- The actions of a call that returns. -/
def callActions (cfg : StoreConfig) (sync : Bool) : List SessionAction :=
  ((databaseCall cfg {} sync [oneByteEntry 7] (busyThenOk sync) {}).map Prod.fst).getD []

theorem databaseCall_actions {cfg : StoreConfig} {sync : Bool}
    (h : (databaseCall cfg {} sync [oneByteEntry 7] (busyThenOk sync) {}).map Prod.snd = some true) :
    databaseCall cfg {} sync [oneByteEntry 7] (busyThenOk sync) {} = some (callActions cfg sync, true) := by
  obtain ⟨⟨acts, flag⟩, hr, hflag⟩ := Option.map_eq_some_iff.mp h
  obtain rfl : flag = true := hflag
  rw [callActions, hr]
  rfl

theorem free_new : Free {} := ⟨(initial_inv (initial_new ⟨0, 0, none⟩)).1, ready_empty, rfl⟩

/-- `transaction` with one busy commit. -/
theorem logged_once_retried : LoggedOnce [⟨[7], by decide⟩] {}
    (Runs.final (step { maxFileSize := 200 }) {} (callActions { maxFileSize := 200 } false)) :=
  (logged_once_iff free_new (databaseCall_actions (by decide +kernel)) (by decide +kernel)
    (Runs.exec_final _ _ _ (by decide +kernel))).mpr (Or.inl rfl)

/-- `transactionSync` with one busy commit logs the entry twice. -/
theorem logged_twice_sync :
    ¬ ∀ (cfg : StoreConfig) (opts : TransactionOptions) (sync : Bool) (entries : List TransactionLogEntry)
    (tries : List Attempted)
      (y y' : Session) (acts : List SessionAction), Free y →
      databaseCall cfg opts sync entries tries y = some (acts, true) →
      Runs.Along (step cfg) (Lands cfg) y acts → Runs.exec (step cfg) y acts = some y' → LoggedOnce entries y y' := by
  intro h
  obtain ⟨ts, hcontent⟩ := (h { maxFileSize := 200 } _ true _ _ _ _ _ free_new
    (databaseCall_actions (by decide +kernel))
    (by decide +kernel) (Runs.exec_final _ _ _ (by decide +kernel))).once
  have htwo := congrArg List.length hcontent
  rw [List.length_append, records_length] at htwo
  clear hcontent
  change _ = _ + 1 at htwo
  revert htwo
  decide +kernel

end Session

end RocksdbJs
