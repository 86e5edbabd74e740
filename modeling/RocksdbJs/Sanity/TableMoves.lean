import RocksdbJs.Sanity.TableSlots

/-! What a step of a writer and a step of a reader can do, said once: every invariant of the table
is derived from these. -/

namespace RocksdbJs

section Units
variable {cfg : TableConfig} {w w' : Shared} {u u' : WriteUnit}

/-- The unit's snapshot is as it was, or released, or one of the present state. -/
def Repins (w : Shared) (u u' : WriteUnit) : Prop :=
  u'.snapshot = u.snapshot ∨ u'.snapshot = none ∨ ∃ now, u'.snapshot = some ⟨w.sequence u.db, now, w.committed⟩

theorem ensureSnapshot_cases (u : WriteUnit) (w : Shared) (now : ℕ+) :
    u.ensureSnapshot w now = u ∨ u.ensureSnapshot w now =
      { u with snapshot := some ⟨w.sequence u.db, now, w.committed⟩ } := by
  rw [WriteUnit.ensureSnapshot]
  split
  · exact Or.inr rfl
  · exact Or.inl rfl

theorem ensureSnapshot_repins (u : WriteUnit) (w : Shared) (now : ℕ+) : Repins w u (u.ensureSnapshot w now) := by
  rcases ensureSnapshot_cases u w now with h | h
  · exact Or.inl (by rw [h])
  · exact Or.inr (Or.inr ⟨now, by rw [h]⟩)

/-- What a unit keeps in all its steps, and what of it only some of them change. -/
inductive UnitMove (cfg : TableConfig) (w : Shared) (u : WriteUnit) (a : UnitAction) : Shared → WriteUnit → Prop
  /-- A step of the unit alone. -/
  | stay (u' : WriteUnit) (hdb : u'.db = u.db) (hint : u'.intents = u.intents) (hsnap : Repins w u u')
      (hphase : u'.phase ≠ .releasing .ok) : UnitMove cfg w u a w u'
  /-- A write takes an intent. -/
  | lock (u' : WriteUnit) (slot : ℕ) (hfree : w.cancelling = none) (hdb : u'.db = u.db)
      (hint : u'.intents = u.intents ++ [(slot, (w.vt.lockSlotForWrite slot u.db).1)]) (hsnap : Repins w u u')
      (hphase : u'.phase ≠ .releasing .ok) : UnitMove cfg w u a { w with vt := (w.vt.lockSlotForWrite slot u.db).2 } u'
  /-- A commit that RocksDB has made. -/
  | commit (ha : a = .commit .ok) (hphase : u.phase ≠ .releasing .ok) :
      UnitMove cfg w u a
        { w with committed := u.apply w.committed
                 sequence := Function.update w.sequence u.db (w.sequence u.db + u.writes.length) }
        { u with phase := .releasing .ok }
  /-- The release of an intent. -/
  | release (slot t : ℕ) (rest : List (ℕ × ℕ)) (hint : u.intents = (slot, t) :: rest) (hfree : w.cancelling = none) :
      UnitMove cfg w u a
        { w with vt := w.vt.releaseWriteIntent slot t w.settleGen
                 settleGen := if w.vt.lastHolder t then w.settleGen + 1 else w.settleGen }
        { u with intents := rest }

theorem lockVTSlot_move {a : UnitAction} {x : Write} {v : WriteUnit}
    (h : v.lockVTSlot cfg w x = some (w', u')) (hdb : v.db = u.db) (hint : v.intents = u.intents)
    (hsnap : Repins w u v) (hphase : v.phase ≠ .releasing .ok) : UnitMove cfg w u a w' u' := by
  rw [WriteUnit.lockVTSlot] at h
  split_ifs at h with hfree
  obtain ⟨rfl, rfl⟩ := Prod.mk.inj (Option.some.inj h)
  rw [hdb]
  exact .lock _ _ (by simpa using hfree) rfl (by rw [hint]) hsnap hphase

theorem put_move {a : UnitAction} {x : Write} {enabled accepted : Bool} {now : ℕ+} (hpending : u.phase = .pending)
    (h : u.put cfg w x enabled accepted now = some (w', u')) : UnitMove cfg w u a w' u' := by
  have hphase : u.phase ≠ .releasing .ok := by
    rw [hpending]
    exact fun hp => UnitPhase.noConfusion hp
  rw [WriteUnit.put] at h
  split at h
  next _ pessimistic hkind =>
    have hpin : ∀ v, (if pessimistic then u.ensureSnapshot w now else u) = v →
        v.db = u.db ∧ v.intents = u.intents ∧ Repins w u v ∧ v.phase ≠ .releasing .ok := by
      rintro v rfl
      split_ifs
      · refine ⟨?_, ?_, ensureSnapshot_repins u w now, ?_⟩
        all_goals rcases ensureSnapshot_cases u w now with hpin | hpin
        all_goals rw [hpin]
        all_goals exact hphase
      · exact ⟨rfl, rfl, Or.inl rfl, hphase⟩
    obtain ⟨hdb, hint, hsnap, hph⟩ := hpin _ rfl
    generalize (if pessimistic then u.ensureSnapshot w now else u) = v at h hdb hint hsnap hph
    split_ifs at h with hacc hen
    · obtain ⟨rfl, rfl⟩ := Prod.mk.inj (Option.some.inj h)
      exact .stay _ hdb hint hsnap hph
    · exact lockVTSlot_move h hdb hint hsnap hph
    · obtain ⟨rfl, rfl⟩ := Prod.mk.inj (Option.some.inj h)
      exact .stay _ hdb hint hsnap hph
  next _ =>
    split_ifs at h
    · exact lockVTSlot_move h rfl rfl (Or.inl rfl) hphase
    · obtain ⟨rfl, rfl⟩ := Prod.mk.inj (Option.some.inj h)
      exact .stay _ rfl rfl (Or.inl rfl) hphase

theorem finish_move (cfg : TableConfig) (w : Shared) (u : WriteUnit) (a : UnitAction) (outcome : UnitOutcome) :
    UnitMove cfg w u a w (u.finish outcome) := by
  cases hk : u.kind with
  | direct table =>
    simp only [WriteUnit.finish, hk]
    exact .stay _ rfl rfl (Or.inl rfl) (fun hp => UnitPhase.noConfusion hp)
  | transaction disableSnapshot pessimistic =>
    cases outcome with
    | ok =>
      simp only [WriteUnit.finish, hk]
      exact .stay _ rfl rfl (Or.inl rfl) (fun hp => UnitPhase.noConfusion hp)
    | busy =>
      simp only [WriteUnit.finish, hk]
      exact .stay _ rfl rfl (Or.inr (Or.inl rfl)) (fun hp => UnitPhase.noConfusion hp)
    | error =>
      simp only [WriteUnit.finish, hk]
      exact .stay _ rfl rfl (Or.inl rfl) (fun hp => UnitPhase.noConfusion hp)
    | aborted =>
      simp only [WriteUnit.finish, hk]
      exact .stay _ rfl rfl (Or.inr (Or.inl rfl)) (fun hp => UnitPhase.noConfusion hp)

theorem stepUnit_move {a : UnitAction} (h : stepUnit cfg w u a = some (w', u')) : UnitMove cfg w u a w' u' := by
  cases a with
  | put x enabled accepted now =>
    rw [stepUnit] at h
    split_ifs at h with hp
    exact put_move hp h
  | beginCommit =>
    rw [stepUnit] at h
    split_ifs at h
    obtain ⟨rfl, rfl⟩ := Prod.mk.inj (Option.some.inj h)
    exact .stay _ rfl rfl (Or.inl rfl) (fun hp => UnitPhase.noConfusion hp)
  | skipCommit =>
    rw [stepUnit] at h
    split_ifs at h
    obtain ⟨rfl, rfl⟩ := Prod.mk.inj (Option.some.inj h)
    exact .stay _ rfl rfl (Or.inl rfl) (fun hp => UnitPhase.noConfusion hp)
  | commit status =>
    rw [stepUnit] at h
    split_ifs at h with hc
    have hphase : u.phase ≠ .releasing .ok := by
      intro hp
      rw [WriteUnit.commits] at hc
      split at hc
      all_goals simp [hp] at hc
    obtain ⟨rfl, rfl⟩ := Prod.mk.inj (Option.some.inj h)
    cases status with
    | ok => exact .commit rfl hphase
    | isBusy => exact .stay _ rfl rfl (Or.inl rfl) (fun hp => UnitOutcome.noConfusion (UnitPhase.releasing.inj hp))
    | error => exact .stay _ rfl rfl (Or.inl rfl) (fun hp => UnitOutcome.noConfusion (UnitPhase.releasing.inj hp))
  | abort =>
    rw [stepUnit] at h
    split_ifs at h
    obtain ⟨rfl, rfl⟩ := Prod.mk.inj (Option.some.inj h)
    exact .stay _ rfl rfl (Or.inl rfl) (fun hp => UnitOutcome.noConfusion (UnitPhase.releasing.inj hp))
  | release =>
    rw [stepUnit] at h
    split at h
    next _ outcome slot t rest hphase hint =>
      by_cases hfree : w.cancelling.isSome = true
      · rw [if_pos hfree] at h
        cases h
      rw [if_neg hfree] at h
      obtain ⟨rfl, rfl⟩ := Prod.mk.inj (Option.some.inj h)
      exact .release slot t rest hint (by simpa using hfree)
    · cases h
  | finish =>
    rw [stepUnit] at h
    split at h
    next _ outcome _ _ =>
      obtain ⟨rfl, rfl⟩ := Prod.mk.inj (Option.some.inj h)
      exact finish_move cfg w u _ outcome
    · cases h
  | close =>
    rw [stepUnit] at h
    split_ifs at h
    obtain ⟨rfl, rfl⟩ := Prod.mk.inj (Option.some.inj h)
    exact .stay _ rfl rfl (Or.inr (Or.inl rfl)) (fun hp => UnitPhase.noConfusion hp)

end Units

section Readers
variable {cfg : TableConfig} {w w' : Shared} {us us' : List WriteUnit} {r r' : Reader}

/-- The value is still to be read. -/
def Reader.unread (r : Reader) : Bool :=
  match r.pc with
  | .called | .pinned | .loaded => true
  | _ => false

/-- The read with the snapshot that `TransactionHandle::getSync` and `TransactionHandle::get` read at. -/
def Reader.snapped (r : Reader) (us : List WriteUnit) : Reader :=
  { r with snapshot := (unitOf us r).bind WriteUnit.snapshot }

inductive ReaderMove (cfg : TableConfig) (w : Shared) (us : List WriteUnit) (r : Reader) (a : ReaderAction) :
    Shared → List WriteUnit → Reader → Prop
  /-- The call ends without a publication. -/
  | drop : ReaderMove cfg w us r a w us { r with pc := .done }
  | pin (now : ℕ+) (hunread : r.unread = true) :
      ReaderMove cfg w us r a w (pinUnits w us r now) { r with pc := .pinned }
  | load (hpc : r.pc = .called ∨ r.pc = .pinned) : ReaderMove cfg w us r a (r.load cfg w).1 us (r.load cfg w).2
  /-- The fast path. -/
  | hit (hsync : r.async = false) (hpc : r.pc = .pinned) (hhits : (r.load cfg w).2.hits = true) (ha : a = .load) :
      ReaderMove cfg w us r a (r.load cfg w).1 us { (r.load cfg w).2 with fresh := true, pc := .done }
  /-- The read finds nothing, or not in the block cache. -/
  | miss (now : ℕ+) (hunread : r.unread = true) :
      ReaderMove cfg w us r a w (pinUnits w us r now) { r.snapped (pinUnits w us r now) with pc := .done }
  | defer (now : ℕ+) (ha : a = .read .incomplete now) (hasync : r.async = true) (hpc : r.pc = .pinned) :
      ReaderMove cfg w us r a w (pinUnits w us r now) { r.snapped (pinUnits w us r now) with pc := .queued }
  | read (now : ℕ+) (value : Bytes) (ha : a = .read .ok now)
      (hunread : r.unread = true) (haccepts : refuses us r = false)
      (hvalue : Reader.visible w (unitOf (pinUnits w us r now) r) (r.snapped (pinUnits w us r now)).snapshot r.loc =
        some value) :
      ReaderMove cfg w us r a w (pinUnits w us r now)
        ((r.snapped (pinUnits w us r now)).found (extractVersionFromValue value))
  | choose (v : ℕ) (hpc : r.pc = .read v) : ReaderMove cfg w us r a w us (r.choose w v)
  | reread (hpc : r.pc = .reread) : ReaderMove cfg w us r a w us { r with pc := .chosen (w.latest r.loc) }
  /-- There is no open snapshot. -/
  | alone (v : ℕ) (hpc : r.pc = .chosen v) (hnone : Reader.oldestSnapshot us r.loc.db = none) :
      ReaderMove cfg w us r a w us { r with pc := .gated v }
  | date (v : ℕ) (hpc : r.pc = .chosen v) : ReaderMove cfg w us r a w us { r with pc := .dated v }
  | sequence (v : ℕ) (hpc : r.pc = .dated v) :
      ReaderMove cfg w us r a w us { r with pc := .sequenced v (w.sequence r.loc.db) }
  | gate (v latestSeq : ℕ) (hpc : r.pc = .sequenced v latestSeq)
      (hle : latestSeq ≤ (Reader.oldestSnapshot us r.loc.db).elim 0 Snapshot.sequence) :
      ReaderMove cfg w us r a w us { r with pc := .gated v }
  | publish (v : ℕ) (ha : a = .populate) (hpc : r.pc = .gated v) :
      ReaderMove cfg w us r a (r.populate cfg w v) us { r with pc := .done }
  | queue (hasync : r.async = true) (hpc : r.pc = .loaded) (htxn : r.txn = none) :
      ReaderMove cfg w us r a w us { r with pc := .queued }
  | execute (value : Bytes) (ha : a = .execute false) (hpc : r.pc = .queued)
      (hvalue : Reader.visible w (unitOf us r) r.snapshot (workerLocation us r) = some value) :
      ReaderMove cfg w us r a w us { r with pc := .executed (extractVersionFromValue value) }
  | resolve (v : ℕ) (ha : a = .resolve) (hpc : r.pc = .executed v) (hseen : r.seen.isSome = true) :
      ReaderMove cfg w us r a (r.populate cfg w v) us { r with fresh := decide (r.expected = some v), pc := .done }

theorem read_move {status : ReadStatus} {now : ℕ+} (hpc : r.pc = if r.async then .pinned else .loaded)
    (haccepts : refuses us r = false) :
    ReaderMove cfg w us r (.read status now) w (pinUnits w us r now)
      (readValue w (pinUnits w us r now) (r.snapped (pinUnits w us r now)) status) := by
  have hunread : r.unread = true := by
    rw [Reader.unread, hpc]
    split_ifs
    all_goals rfl
  cases status with
  | failed => exact .miss now hunread
  | incomplete =>
    rw [readValue]
    cases hasync : r.async with
    | false =>
      have hsync : ¬ (r.snapped (pinUnits w us r now)).async = true := by
        rw [show (r.snapped (pinUnits w us r now)).async = r.async from rfl, hasync]
        exact Bool.false_ne_true
      rw [if_neg hsync]
      exact .miss now hunread
    | true =>
      rw [if_pos (show (r.snapped (pinUnits w us r now)).async = true from hasync)]
      exact .defer now rfl hasync (by rw [hpc, hasync, if_pos rfl])
  | ok =>
    rw [readValue]
    split
    · exact .miss now hunread
    next _ value hvalue => exact .read now value rfl hunread haccepts hvalue

theorem stepReader_move {a : ReaderAction} (h : stepReader cfg w us r a = some (w', us', r')) :
    ReaderMove cfg w us r a w' us' r' := by
  cases a with
  | pin now =>
    rw [stepReader] at h
    split_ifs at h with hasync hpc hrefuses hpc
    all_goals obtain ⟨rfl, rfl, rfl⟩ : _ = w' ∧ _ = us' ∧ _ = r' := by simpa using h
    · exact .drop
    · exact .pin now (by rw [Reader.unread, hpc.1])
    · exact .pin now (by rw [Reader.unread, hpc])
  | load =>
    rw [stepReader] at h
    split_ifs at h with hasync hpc hpc
    · obtain ⟨rfl, rfl, rfl⟩ : _ = w' ∧ _ = us' ∧ _ = r' := by simpa using h
      exact .load (Or.inl hpc)
    · by_cases hhits : (r.load cfg w).2.hits = true
      · obtain ⟨rfl, rfl, rfl⟩ : _ = w' ∧ _ = us' ∧ _ = r' := by simpa [hhits] using h
        exact .hit (by simpa using hasync) hpc hhits rfl
      · obtain ⟨rfl, rfl, rfl⟩ : _ = w' ∧ _ = us' ∧ _ = r' := by simpa [hhits] using h
        exact .load (Or.inr hpc)
  | read status now =>
    rw [stepReader] at h
    by_cases hpc : r.pc = if r.async then .pinned else .loaded
    · rw [if_pos hpc] at h
      by_cases hrefuses : refuses us r = true
      · rw [if_pos hrefuses] at h
        obtain ⟨rfl, rfl, rfl⟩ : _ = w' ∧ _ = us' ∧ _ = r' := by simpa using h
        exact .drop
      · rw [if_neg hrefuses] at h
        obtain ⟨rfl, rfl, rfl⟩ : _ = w' ∧ _ = us' ∧ _ = r' := by simpa using h
        exact read_move hpc (by simpa using hrefuses)
    · rw [if_neg hpc] at h
      cases h
  | choose =>
    rw [stepReader] at h
    split at h
    next _ v hpc =>
      obtain ⟨rfl, rfl, rfl⟩ : _ = w' ∧ _ = us' ∧ _ = r' := by simpa using h
      exact .choose v hpc
    · cases h
  | reread =>
    rw [stepReader] at h
    by_cases hpc : r.pc = .reread
    · rw [if_pos hpc] at h
      obtain ⟨rfl, rfl, rfl⟩ : _ = w' ∧ _ = us' ∧ _ = r' := by simpa only [Option.some.injEq, Prod.mk.injEq] using h
      split_ifs
      · exact .drop
      · exact .reread hpc
    · rw [if_neg hpc] at h
      cases h
  | gateTime =>
    rw [stepReader] at h
    split at h
    next _ v hpc =>
      split at h
      next _ hnone =>
        obtain ⟨rfl, rfl, rfl⟩ : _ = w' ∧ _ = us' ∧ _ = r' := by simpa using h
        exact .alone v hpc hnone
      next _ oldest _ =>
        obtain ⟨rfl, rfl, rfl⟩ : _ = w' ∧ _ = us' ∧ _ = r' := by simpa only [Option.some.injEq, Prod.mk.injEq] using h
        split_ifs
        · exact .drop
        · exact .date v hpc
    · cases h
  | latestSequence =>
    rw [stepReader] at h
    split at h
    next _ v hpc =>
      obtain ⟨rfl, rfl, rfl⟩ : _ = w' ∧ _ = us' ∧ _ = r' := by simpa using h
      exact .sequence v hpc
    · cases h
  | gateSequence =>
    rw [stepReader] at h
    split at h
    next _ v latestSeq hpc =>
      obtain ⟨rfl, rfl, rfl⟩ : _ = w' ∧ _ = us' ∧ _ = r' := by simpa only [Option.some.injEq, Prod.mk.injEq] using h
      split_ifs with hlt
      · exact .drop
      · exact .gate v latestSeq hpc (not_lt.mp hlt)
    · cases h
  | populate =>
    rw [stepReader] at h
    split at h
    next _ v hpc =>
      obtain ⟨rfl, rfl, rfl⟩ : _ = w' ∧ _ = us' ∧ _ = r' := by simpa using h
      exact .publish v rfl hpc
    · cases h
  | queue =>
    rw [stepReader] at h
    split_ifs at h with hpc
    obtain ⟨rfl, rfl, rfl⟩ : _ = w' ∧ _ = us' ∧ _ = r' := by simpa using h
    exact .queue hpc.1 hpc.2.1 hpc.2.2
  | execute failed =>
    rw [stepReader] at h
    by_cases hpc : r.pc = .queued
    · rw [if_pos hpc] at h
      split at h
      · obtain ⟨rfl, rfl, rfl⟩ : _ = w' ∧ _ = us' ∧ _ = r' := by simpa using h
        exact .drop
      next _ value hvalue =>
        obtain ⟨rfl, rfl, rfl⟩ : _ = w' ∧ _ = us' ∧ _ = r' := by simpa using h
        cases failed with
        | true => cases hvalue
        | false => exact .execute value rfl hpc hvalue
    · rw [if_neg hpc] at h
      cases h
  | resolve =>
    rw [stepReader] at h
    split at h
    next _ v hpc =>
      split_ifs at h with hnone
      all_goals obtain ⟨rfl, rfl, rfl⟩ : _ = w' ∧ _ = us' ∧ _ = r' := by simpa using h
      · exact .drop
      · have hseen := (not_or.mp hnone).2
        exact .resolve v rfl hpc (by simpa [Option.isSome_iff_ne_none] using hseen)
    · cases h

end Readers

end RocksdbJs
