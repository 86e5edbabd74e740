import RocksdbJs.Sanity.TableViews

/-! The answers that the reads of a transaction give, and what the transaction sees: from the read
of the value up to the answer its snapshot and its own writes stay what they were. -/

namespace RocksdbJs

/-- The value visible to a transaction: its own uncommitted write, or the value at its snapshot. -/
def WriteUnit.sees (u : WriteUnit) (snapshot : Snapshot) (loc : Location) : Option Bytes :=
  match u.ownWrite loc with
  | some x => x.value
  | none => snapshot.view loc

section Stages

/-- The answer of the read is found, and it is on its way through `vtPopulateIfSettled`. -/
def Reader.answered (r : Reader) : Bool :=
  match r.pc with
  | .read _ | .reread | .chosen _ | .dated _ | .sequenced _ _ | .gated _ => true
  | _ => false

/-- The read has left the thread of its transaction. -/
def Reader.inFlight (r : Reader) : Bool :=
  match r.pc with
  | .queued | .executed _ => true
  | _ => false

def Reader.executed (r : Reader) : Bool :=
  match r.pc with
  | .executed _ => true
  | _ => false

theorem Reader.stages {r : Reader} (h : r.pc ≠ .done) : r.unread = true ∨ r.answered = true ∨ r.inFlight = true := by
  rw [Reader.unread, Reader.answered, Reader.inFlight]
  cases hpc : r.pc with
  | done => exact absurd hpc h
  | _ => simp

theorem Reader.onThread_of_unread {r : Reader} (h : r.unread = true) : r.onThread = true := by
  rw [Reader.unread] at h
  rw [Reader.onThread]
  split at h
  all_goals simp_all

theorem Reader.onThread_of_answered {r : Reader} (h : r.answered = true) : r.onThread = true := by
  rw [Reader.answered] at h
  rw [Reader.onThread]
  split at h
  all_goals simp_all

end Stages

section Pins
variable {cfg : TableConfig} {w w' : Shared} {u u' : WriteUnit} {a : UnitAction}

def WriteUnit.wantsSnapshot (u : WriteUnit) : Bool :=
  match u.kind with
  | .transaction false _ => true
  | _ => false

/-- The transaction takes no other snapshot. -/
def WriteUnit.Pinned (u : WriteUnit) : Prop := u.wantsSnapshot = true → u.snapshot = none → u.phase = .closed

theorem ensureSnapshot_kept (h : u.Pinned) (hopen : u.phase ≠ .closed) (w : Shared) (now : ℕ+) :
    u.ensureSnapshot w now = u := by
  rw [WriteUnit.ensureSnapshot]
  split
  next _ hkind hnone => exact absurd (h (by rw [WriteUnit.wantsSnapshot, hkind]) hnone) hopen
  · rfl

theorem ensureSnapshot_pinned (u : WriteUnit) (w : Shared) (now : ℕ+) : (u.ensureSnapshot w now).Pinned := by
  intro hwants hnone
  rw [WriteUnit.ensureSnapshot] at hwants hnone
  split at hnone
  · cases hnone
  next _ hnot =>
    split at hwants
    next _ hkind hsnap => exact absurd hsnap (hnot _ hkind)
    · rw [WriteUnit.wantsSnapshot] at hwants
      split at hwants
      next _ hkind => exact absurd hnone (hnot _ hkind)
      · cases hwants

theorem ensureSnapshot_frame (u : WriteUnit) (w : Shared) (now : ℕ+) :
    (u.ensureSnapshot w now).kind = u.kind ∧ (u.ensureSnapshot w now).phase = u.phase := by
  rcases ensureSnapshot_cases u w now with h | h
  all_goals rw [h]
  all_goals exact ⟨rfl, rfl⟩

/-- What an accepted or refused write leaves of a transaction that has its snapshot. -/
theorem put_pinned {x : Write} {enabled accepted : Bool} {now : ℕ+} (htxn : u.isTransaction = true) (hpin : u.Pinned)
    (hopen : u.phase ≠ .closed) (h : u.put cfg w x enabled accepted now = some (w', u')) :
    u' = u ∨ accepted = true ∧ ∃ intents, u' = { u with writes := u.writes ++ [x], intents := intents } := by
  rw [WriteUnit.put] at h
  split at h
  next _ pessimistic hkind =>
    rw [ensureSnapshot_kept hpin hopen, ite_self] at h
    split_ifs at h with hacc hen
    · exact Or.inl (Prod.mk.inj (Option.some.inj h)).2.symm
    · rw [WriteUnit.lockVTSlot] at h
      split_ifs at h
      exact Or.inr ⟨by simpa using hacc, _, (Prod.mk.inj (Option.some.inj h)).2.symm⟩
    · exact Or.inr ⟨by simpa using hacc, u.intents, (Prod.mk.inj (Option.some.inj h)).2.symm⟩
  next _ table hkind =>
    rw [WriteUnit.isTransaction, hkind] at htxn
    cases htxn

theorem release_unit (h : stepUnit cfg w u .release = some (w', u')) :
    ∃ outcome rest, u.phase = .releasing outcome ∧ u' = { u with intents := rest } := by
  rw [stepUnit] at h
  split at h
  next _ outcome slot t rest hphase hint =>
    by_cases hfree : w.cancelling.isSome = true
    · rw [if_pos hfree] at h
      cases h
    · rw [if_neg hfree] at h
      exact ⟨outcome, rest, hphase, (Prod.mk.inj (Option.some.inj h)).2.symm⟩
  · cases h

theorem finish_unit (h : stepUnit cfg w u .finish = some (w', u')) :
    ∃ outcome, u.phase = .releasing outcome ∧ u' = u.finish outcome := by
  rw [stepUnit] at h
  split at h
  next outcome hphase _ => exact ⟨outcome, hphase, (Prod.mk.inj (Option.some.inj h)).2.symm⟩
  · cases h

/-- What comes after the releases of a transaction. -/
theorem finish_transaction (htxn : u.isTransaction = true) (outcome : UnitOutcome) :
    u.finish outcome = match outcome with
      | .ok => { u with phase := .committed }
      | .busy => { u with phase := .pending, writes := [], snapshot := none }
      | .error => { u with phase := .pending }
      | .aborted => { u with phase := .closed, snapshot := none } := by
  cases hkind : u.kind with
  | direct table =>
    rw [WriteUnit.isTransaction, hkind] at htxn
    cases htxn
  | transaction disableSnapshot pessimistic =>
    cases outcome
    all_goals simp only [WriteUnit.finish, hkind]

theorem stepUnit_kind (h : stepUnit cfg w u a = some (w', u')) : u'.kind = u.kind := by
  cases a with
  | put x enabled accepted now =>
    rw [stepUnit] at h
    split_ifs at h
    rw [WriteUnit.put] at h
    split at h
    next _ pessimistic _ =>
      have hpin : (if pessimistic then u.ensureSnapshot w now else u).kind = u.kind := by
        split_ifs
        · exact (ensureSnapshot_frame u w now).1
        · rfl
      generalize (if pessimistic then u.ensureSnapshot w now else u) = v at h hpin
      simp only [WriteUnit.lockVTSlot] at h
      split_ifs at h
      all_goals rw [← (Prod.mk.inj (Option.some.inj h)).2]
      all_goals exact hpin
    · simp only [WriteUnit.lockVTSlot] at h
      split_ifs at h
      all_goals rw [← (Prod.mk.inj (Option.some.inj h)).2]
  | commit status =>
    rw [stepUnit] at h
    split_ifs at h
    obtain ⟨rfl, rfl⟩ := Prod.mk.inj (Option.some.inj h)
    cases status
    all_goals rfl
  | release =>
    obtain ⟨outcome, rest, -, rfl⟩ := release_unit h
    rfl
  | finish =>
    obtain ⟨outcome, -, rfl⟩ := finish_unit h
    cases hkind : u.kind with
    | direct table => simp only [WriteUnit.finish, hkind]
    | transaction disableSnapshot pessimistic =>
      cases outcome
      all_goals simp only [WriteUnit.finish, hkind]
  | _ =>
    rw [stepUnit] at h
    split_ifs at h
    obtain ⟨rfl, rfl⟩ := Prod.mk.inj (Option.some.inj h)
    rfl

/-- A transaction keeps the snapshot it has until it is closed or reset for a retry. -/
theorem stepUnit_pinned (htxn : u.isTransaction = true) (hpin : u.Pinned)
    (hbusy : a = .finish → u.phase ≠ .releasing .busy) (h : stepUnit cfg w u a = some (w', u')) :
    u.phase ≠ .closed ∧ (u'.snapshot = u.snapshot ∨ u'.phase = .closed ∧ u'.snapshot = none) := by
  cases a with
  | put x enabled accepted now =>
    rw [stepUnit] at h
    split_ifs at h with hp
    have hopen : u.phase ≠ .closed := by
      rw [hp]
      exact fun hc => UnitPhase.noConfusion hc
    rcases put_pinned htxn hpin hopen h with rfl | ⟨-, intents, rfl⟩
    all_goals exact ⟨hopen, Or.inl rfl⟩
  | beginCommit =>
    rw [stepUnit] at h
    split_ifs at h with hp
    obtain ⟨rfl, rfl⟩ := Prod.mk.inj (Option.some.inj h)
    exact ⟨by rw [hp.2]; exact fun hc => UnitPhase.noConfusion hc, Or.inl rfl⟩
  | skipCommit =>
    rw [stepUnit] at h
    split_ifs at h with hp
    obtain ⟨rfl, rfl⟩ := Prod.mk.inj (Option.some.inj h)
    exact ⟨by rw [hp]; exact fun hc => UnitPhase.noConfusion hc, Or.inl rfl⟩
  | commit status =>
    rw [stepUnit] at h
    split_ifs at h with hc
    have hopen : u.phase ≠ .closed := by
      intro hp
      rw [WriteUnit.commits] at hc
      split at hc
      all_goals simp [hp] at hc
    obtain ⟨rfl, rfl⟩ := Prod.mk.inj (Option.some.inj h)
    cases status
    all_goals exact ⟨hopen, Or.inl rfl⟩
  | abort =>
    rw [stepUnit] at h
    split_ifs at h with hp
    obtain ⟨rfl, rfl⟩ := Prod.mk.inj (Option.some.inj h)
    exact ⟨by rw [hp.2]; exact fun hc => UnitPhase.noConfusion hc, Or.inl rfl⟩
  | release =>
    obtain ⟨outcome, rest, hphase, rfl⟩ := release_unit h
    exact ⟨by rw [hphase]; exact fun hc => UnitPhase.noConfusion hc, Or.inl rfl⟩
  | finish =>
    obtain ⟨outcome, hphase, rfl⟩ := finish_unit h
    have hopen : u.phase ≠ .closed := by
      rw [hphase]
      exact fun hc => UnitPhase.noConfusion hc
    rw [finish_transaction htxn]
    cases outcome with
    | ok => exact ⟨hopen, Or.inl rfl⟩
    | busy => exact absurd hphase (hbusy rfl)
    | error => exact ⟨hopen, Or.inl rfl⟩
    | aborted => exact ⟨hopen, Or.inr ⟨rfl, rfl⟩⟩
  | close =>
    rw [stepUnit] at h
    split_ifs at h with hp
    obtain ⟨rfl, rfl⟩ := Prod.mk.inj (Option.some.inj h)
    exact ⟨by rw [hp]; exact fun hc => UnitPhase.noConfusion hc, Or.inr ⟨rfl, rfl⟩⟩

/-- A transaction with a read on its thread is neither closed nor aborted. -/
theorem stepUnit_live (htxn : u.isTransaction = true) (hthread : a.onThread = false)
    (hlive : u.phase ≠ .closed ∧ u.phase ≠ .releasing .aborted) (h : stepUnit cfg w u a = some (w', u')) :
    u'.phase ≠ .closed ∧ u'.phase ≠ .releasing .aborted := by
  cases a with
  | put x enabled accepted now => cases hthread
  | beginCommit => cases hthread
  | abort => cases hthread
  | close => cases hthread
  | skipCommit =>
    rw [stepUnit] at h
    split_ifs at h
    obtain ⟨rfl, rfl⟩ := Prod.mk.inj (Option.some.inj h)
    exact ⟨fun hc => UnitPhase.noConfusion hc, fun hc => UnitPhase.noConfusion hc⟩
  | commit status =>
    rw [stepUnit] at h
    split_ifs at h
    obtain ⟨rfl, rfl⟩ := Prod.mk.inj (Option.some.inj h)
    cases status
    all_goals exact ⟨fun hc => UnitPhase.noConfusion hc, fun hc => UnitOutcome.noConfusion (UnitPhase.releasing.inj hc)⟩
  | release =>
    obtain ⟨outcome, rest, -, rfl⟩ := release_unit h
    exact hlive
  | finish =>
    obtain ⟨outcome, hphase, rfl⟩ := finish_unit h
    rw [finish_transaction htxn]
    cases outcome with
    | aborted => exact absurd hphase hlive.2
    | _ => exact ⟨fun hc => UnitPhase.noConfusion hc, fun hc => UnitPhase.noConfusion hc⟩

/-- A pending transaction moves only by a call on its thread. -/
theorem stepUnit_pending (htxn : u.isTransaction = true) (hphase : u.phase = .pending) (hthread : a.onThread = false) :
    stepUnit cfg w u a = none := by
  cases a with
  | put x enabled accepted now => cases hthread
  | beginCommit => cases hthread
  | abort => cases hthread
  | close => cases hthread
  | skipCommit => simp [stepUnit, hphase]
  | commit status =>
    have hnot : u.commits = false := by
      rw [WriteUnit.commits]
      split
      · simp [hphase]
      next _ table hkind =>
        rw [WriteUnit.isTransaction, hkind] at htxn
        cases htxn
    simp [stepUnit, hnot]
  | release => simp [stepUnit, hphase]
  | finish => simp [stepUnit, hphase]

end Pins

section Own
variable {cfg : TableConfig} {w w' : Shared} {u u' : WriteUnit} {r : Reader}

/-- What a transaction does not do while a read of it is under way away from its thread: write a key
of which the value is read, end with such a write of its own, or be reset. -/
def Calm (u : WriteUnit) (r : Reader) : UnitAction → Prop
  | .put x _ accepted _ => accepted = true → r.executed = true → r.loc ≠ u.location x
  | .commit .ok => r.executed = true → u.ownWrite r.loc = none
  | .abort => r.executed = true → u.ownWrite r.loc = none
  | .finish => u.phase = .releasing .busy → r.inFlight = false
  | _ => True

instance (u : WriteUnit) (r : Reader) : ∀ a : UnitAction, Decidable (Calm u r a)
  | .put x _ accepted _ => inferInstanceAs (Decidable (accepted = true → r.executed = true → r.loc ≠ u.location x))
  | .commit .ok | .abort => inferInstanceAs (Decidable (r.executed = true → u.ownWrite r.loc = none))
  | .finish => inferInstanceAs (Decidable (u.phase = .releasing .busy → r.inFlight = false))
  | .commit .isBusy | .commit .error | .beginCommit | .skipCommit | .release | .close =>
    inferInstanceAs (Decidable True)

theorem ownWrite_of_own (hdb : u'.db = u.db) (hown : u'.own = u.own) (loc : Location) :
    u'.ownWrite loc = u.ownWrite loc := by
  have hloc : u'.location = u.location := by
    funext x
    rw [WriteUnit.location, WriteUnit.location, hdb]
  rw [WriteUnit.ownWrite, WriteUnit.ownWrite, hown, hloc]

theorem ownWrite_nil (hown : u.own = []) (loc : Location) : u.ownWrite loc = none := by
  rw [WriteUnit.ownWrite, hown]
  rfl

/-- The own write of a key that a calm step leaves. -/
theorem Calm.ownWrite {a : UnitAction} (hcalm : Calm u r a) (hexec : r.executed = true)
    (htxn : u.isTransaction = true) (hpin : u.Pinned) (hflight : r.inFlight = true)
    (h : stepUnit cfg w u a = some (w', u')) : u'.ownWrite r.loc = u.ownWrite r.loc := by
  cases a with
  | put x enabled accepted now =>
    rw [stepUnit] at h
    split_ifs at h with hp
    have hopen : u.phase ≠ .closed := by
      rw [hp]
      exact fun hc => UnitPhase.noConfusion hc
    rcases put_pinned htxn hpin hopen h with rfl | ⟨hacc, intents, rfl⟩
    · rfl
    · have hne : u.location x ≠ r.loc := (hcalm hacc hexec).symm
      simp only [WriteUnit.ownWrite, WriteUnit.own, hp, List.reverse_append, List.reverse_singleton,
        List.singleton_append]
      exact List.find?_cons_of_neg (by rw [decide_eq_true_eq]; exact hne)
  | beginCommit =>
    rw [stepUnit] at h
    split_ifs at h with hp
    obtain ⟨rfl, rfl⟩ := Prod.mk.inj (Option.some.inj h)
    refine ownWrite_of_own (by rfl) ?_ r.loc
    simp only [WriteUnit.own, hp.2]
  | skipCommit =>
    rw [stepUnit] at h
    split_ifs at h with hp
    obtain ⟨rfl, rfl⟩ := Prod.mk.inj (Option.some.inj h)
    refine ownWrite_of_own (by rfl) ?_ r.loc
    simp only [WriteUnit.own, hp]
  | commit status =>
    rw [stepUnit] at h
    split_ifs at h with hc
    have hcommitting : u.phase = .committing := by
      rw [WriteUnit.commits] at hc
      split at hc
      · exact of_decide_eq_true hc
      next _ table hkind =>
        rw [WriteUnit.isTransaction, hkind] at htxn
        cases htxn
    obtain ⟨rfl, rfl⟩ := Prod.mk.inj (Option.some.inj h)
    cases status with
    | ok => exact (ownWrite_nil rfl r.loc).trans (hcalm hexec).symm
    | isBusy =>
      refine ownWrite_of_own (by rfl) ?_ r.loc
      simp only [WriteUnit.own, hcommitting]
    | error =>
      refine ownWrite_of_own (by rfl) ?_ r.loc
      simp only [WriteUnit.own, hcommitting]
  | abort =>
    rw [stepUnit] at h
    split_ifs at h with hp
    obtain ⟨rfl, rfl⟩ := Prod.mk.inj (Option.some.inj h)
    exact (ownWrite_nil rfl r.loc).trans (hcalm hexec).symm
  | release =>
    obtain ⟨outcome, rest, -, rfl⟩ := release_unit h
    rfl
  | finish =>
    obtain ⟨outcome, hphase, rfl⟩ := finish_unit h
    rw [finish_transaction htxn]
    cases outcome with
    | busy => exact absurd ((hcalm hphase).symm.trans hflight) Bool.false_ne_true
    | _ =>
      refine ownWrite_of_own (by rfl) ?_ r.loc
      simp only [WriteUnit.own, hphase]
  | close =>
    rw [stepUnit] at h
    split_ifs at h with hp
    obtain ⟨rfl, rfl⟩ := Prod.mk.inj (Option.some.inj h)
    refine ownWrite_of_own (by rfl) ?_ r.loc
    simp only [WriteUnit.own, hp]

end Own

section Answers
variable {cfg : TableConfig} {w w' : Shared} {us us' : List WriteUnit} {u u' : WriteUnit} {r r' : Reader} {i : ℕ}

/-- The answer, if it is `FRESH`, is right for what the transaction sees. -/
def Reader.Agrees (r : Reader) (u : WriteUnit) : Prop :=
  r.fresh = true → ∀ snapshot, u.snapshot = some snapshot → ∀ e, r.expected = some e →
    versionOf (u.sees snapshot r.loc) = e

/-- A read and its transaction. -/
structure Answers (u : WriteUnit) (r : Reader) : Prop where
  transaction : u.isTransaction = true
  live : r.onThread = true → u.phase ≠ .closed ∧ u.phase ≠ .releasing .aborted
  answered : r.answered = true → u.phase = .pending ∧ u.Pinned ∧ r.Agrees u
  flight : r.inFlight = true → u.Pinned ∧ ∀ snapshot, u.snapshot = some snapshot → r.snapshot = some snapshot
  executed : r.seen.isSome = true → ∀ v, r.pc = .executed v →
    ∀ snapshot, u.snapshot = some snapshot → versionOf (u.sees snapshot r.loc) = v
  fresh : r.unread = true ∨ r.inFlight = true → r.fresh = false

theorem Answers.agrees (h : Answers u r) (hpc : r.pc ≠ .done) : r.Agrees u := by
  rcases Reader.stages hpc with hunread | hanswered | hflight
  · exact fun hfresh => absurd ((h.fresh (Or.inl hunread)).symm.trans hfresh) Bool.false_ne_true
  · exact (h.answered hanswered).2.2
  · exact fun hfresh => absurd ((h.fresh (Or.inr hflight)).symm.trans hfresh) Bool.false_ne_true

/-- A read that is done. -/
theorem Answers.done (htxn : u.isTransaction = true) (hpc : r.pc = .done) : Answers u r := by
  refine ⟨htxn, fun h => ?_, fun h => ?_, fun h => ?_, fun _ v h => ?_, fun h => ?_⟩
  · rw [Reader.onThread, hpc] at h
    cases h
  · rw [Reader.answered, hpc] at h
    cases h
  · rw [Reader.inFlight, hpc] at h
    cases h
  · rw [hpc] at h
    cases h
  · rw [Reader.unread, Reader.inFlight, hpc] at h
    simp at h

/-- A read whose value is still to be read. -/
theorem Answers.unread (htxn : u.isTransaction = true) (hlive : u.phase ≠ .closed ∧ u.phase ≠ .releasing .aborted)
    (hunread : r.unread = true) (hfresh : r.fresh = false) : Answers u r := by
  have hpc : r.pc = .called ∨ r.pc = .pinned ∨ r.pc = .loaded := by
    rw [Reader.unread] at hunread
    split at hunread
    all_goals simp_all
  refine ⟨htxn, fun _ => hlive, fun h => ?_, fun h => ?_, fun _ v h => ?_, fun _ => hfresh⟩
  · rw [Reader.answered] at h
    rcases hpc with hpc | hpc | hpc
    all_goals rw [hpc] at h
    all_goals cases h
  · rw [Reader.inFlight] at h
    rcases hpc with hpc | hpc | hpc
    all_goals rw [hpc] at h
    all_goals cases h
  · rw [h] at hpc
    simp at hpc

/-- A read with its answer. -/
theorem Answers.of_answered (htxn : u.isTransaction = true) (hanswered : r.answered = true)
    (hpending : u.phase = .pending) (hpin : u.Pinned) (hagrees : r.Agrees u) : Answers u r := by
  refine ⟨htxn, fun _ => ?_, fun _ => ⟨hpending, hpin, hagrees⟩, fun h => ?_, fun _ v h => ?_, fun h => ?_⟩
  · rw [hpending]
    exact ⟨fun hc => UnitPhase.noConfusion hc, fun hc => UnitPhase.noConfusion hc⟩
  · rw [Reader.answered] at hanswered
    rw [Reader.inFlight] at h
    split at hanswered
    all_goals simp_all
  · rw [Reader.answered, h] at hanswered
    cases hanswered
  · rw [Reader.answered] at hanswered
    rw [Reader.unread, Reader.inFlight] at h
    split at hanswered
    all_goals simp_all

/-- A read that has left the thread. -/
theorem Answers.of_flight (htxn : u.isTransaction = true) (hflight : r.inFlight = true) (hpin : u.Pinned)
    (hsnap : ∀ snapshot, u.snapshot = some snapshot → r.snapshot = some snapshot)
    (hexec : r.seen.isSome = true → ∀ v, r.pc = .executed v →
      ∀ snapshot, u.snapshot = some snapshot → versionOf (u.sees snapshot r.loc) = v)
    (hfresh : r.fresh = false) : Answers u r := by
  refine ⟨htxn, fun h => ?_, fun h => ?_, fun _ => ⟨hpin, hsnap⟩, hexec, fun _ => hfresh⟩
  · rw [Reader.inFlight] at hflight
    rw [Reader.onThread] at h
    split at hflight
    all_goals simp_all
  · rw [Reader.inFlight] at hflight
    rw [Reader.answered] at h
    split at hflight
    all_goals simp_all

/-- A step of the transaction. -/
theorem Answers.unit {a : UnitAction} (h : Answers u r) (hthread : r.onThread = true → a.onThread = false)
    (hcalm : Calm u r a) (hstep : stepUnit cfg w u a = some (w', u')) : Answers u' r := by
  have htxn : u'.isTransaction = true := by
    rw [WriteUnit.isTransaction, stepUnit_kind hstep]
    exact h.transaction
  by_cases hdone : r.pc = .done
  · exact .done htxn hdone
  rcases Reader.stages hdone with hunread | hanswered | hflight
  · have hth := Reader.onThread_of_unread hunread
    exact .unread htxn (stepUnit_live h.transaction (hthread hth) (h.live hth) hstep) hunread (h.fresh (Or.inl hunread))
  · have hth := Reader.onThread_of_answered hanswered
    rw [stepUnit_pending h.transaction (h.answered hanswered).1 (hthread hth)] at hstep
    cases hstep
  · obtain ⟨hpin, hsame⟩ := h.flight hflight
    have hbusy : a = .finish → u.phase ≠ .releasing .busy := by
      rintro rfl hphase
      exact absurd ((hcalm hphase).symm.trans hflight) Bool.false_ne_true
    obtain ⟨hopen, hsnap⟩ := stepUnit_pinned h.transaction hpin hbusy hstep
    have hback : ∀ snapshot, u'.snapshot = some snapshot → u.snapshot = some snapshot := by
      intro snapshot hs
      rcases hsnap with hkept | ⟨-, hnone⟩
      · exact hkept.symm.trans hs
      · rw [hnone] at hs
        cases hs
    refine .of_flight htxn hflight ?_ (fun snapshot hs => hsame snapshot (hback snapshot hs))
      (fun hseen v hv snapshot hs => ?_)
      (h.fresh (Or.inr hflight))
    · intro hwants hnone
      rcases hsnap with hkept | ⟨hclosed, -⟩
      · rw [WriteUnit.wantsSnapshot, stepUnit_kind hstep] at hwants
        exact absurd (hpin hwants (hkept.symm.trans hnone)) hopen
      · exact hclosed
    · have hexec : r.executed = true := by rw [Reader.executed, hv]
      rw [WriteUnit.sees, hcalm.ownWrite hexec h.transaction hpin hflight hstep]
      exact h.executed hseen v hv snapshot (hback snapshot hs)

/-- A transaction that a read on its thread gives a snapshot to. -/
theorem Answers.pin (h : Answers u r) (hopen : u.phase ≠ .closed) (w : Shared) (now : ℕ+) :
    Answers (u.ensureSnapshot w now) r := by
  obtain ⟨hkind, hphase⟩ := ensureSnapshot_frame u w now
  have htxn : (u.ensureSnapshot w now).isTransaction = true := by
    rw [WriteUnit.isTransaction, hkind]
    exact h.transaction
  by_cases hdone : r.pc = .done
  · exact .done htxn hdone
  rcases Reader.stages hdone with hunread | hanswered | hflight
  · exact .unread htxn (by rw [hphase]; exact h.live (Reader.onThread_of_unread hunread)) hunread
      (h.fresh (Or.inl hunread))
  · rw [ensureSnapshot_kept (h.answered hanswered).2.1 hopen]
    exact h
  · rw [ensureSnapshot_kept (h.flight hflight).1 hopen]
    exact h

/-- The stages after the read keep its answer. -/
theorem Answers.advance (h : Answers u r) (hanswered : r.answered = true) {pc : ReaderPc}
    (hpc : ({ r with pc := pc } : Reader).answered = true ∨ pc = .done) :
    Answers u { r with pc := pc } ∧ (r.pc ≠ .done → pc = .done → ({ r with pc := pc } : Reader).Agrees u) := by
  obtain ⟨hpending, hpin, hagrees⟩ := h.answered hanswered
  refine ⟨?_, fun _ _ => hagrees⟩
  rcases hpc with hstill | hdone
  · exact .of_answered h.transaction hstill hpending hpin hagrees
  · exact .done h.transaction hdone

theorem choose_stage (w : Shared) (r : Reader) (v : ℕ) :
    ∃ pc, r.choose w v = { r with pc := pc } ∧ (({ r with pc := pc } : Reader).answered = true ∨ pc = .done) := by
  rw [Reader.choose]
  split_ifs
  · exact ⟨_, rfl, Or.inr rfl⟩
  · split
    · exact ⟨_, rfl, Or.inl rfl⟩
    · split_ifs
      all_goals exact ⟨_, rfl, Or.inl rfl⟩

/-- What a read with a snapshot of its transaction sees. -/
theorem visible_sees {snapshot : Snapshot} (loc : Location) :
    Reader.visible w (some u) (some snapshot) loc = u.sees snapshot loc := by
  rw [Reader.visible, WriteUnit.sees]
  rfl

/-- The value that a read has found, and the answer it gives. -/
theorem Answers.found (htxn : u.isTransaction = true) (hpending : u.phase = .pending) (hpin : u.Pinned)
    (hsnap : r.snapshot = u.snapshot) (hfresh : r.fresh = false) {value : Bytes}
    (hvalue : Reader.visible w (some u) r.snapshot r.loc = some value) :
    Answers u (r.found (extractVersionFromValue value)) ∧ (r.found (extractVersionFromValue value)).Agrees u := by
  have hsees : ∀ snapshot, u.snapshot = some snapshot →
      versionOf (u.sees snapshot r.loc) = extractVersionFromValue value := by
    intro snapshot hs
    rw [hsnap, hs, visible_sees] at hvalue
    rw [hvalue]
    rfl
  have hagrees : (r.found (extractVersionFromValue value)).Agrees u := by
    rw [Reader.found]
    split_ifs with hseen
    · intro hf snapshot hs e he
      have hexp : r.expected = some (extractVersionFromValue value) := of_decide_eq_true hf
      obtain rfl := Option.some.inj (hexp.symm.trans he)
      exact hsees snapshot hs
    · exact fun hf => absurd (hfresh.symm.trans hf) Bool.false_ne_true
  refine ⟨?_, hagrees⟩
  rw [Reader.found] at hagrees ⊢
  split_ifs at hagrees ⊢ with hseen
  · exact .of_answered htxn rfl hpending hpin hagrees
  · exact .done htxn rfl

/-- Only a read on the thread of its transaction gives that a snapshot. -/
theorem ReaderMove.pins {a : ReaderAction} (h : ReaderMove cfg w us r a w' us' r') :
    us' = us ∨ ∃ now, r.onThread = true ∧ us' = pinUnits w us r now := by
  cases h with
  | pin now hunread => exact Or.inr ⟨now, Reader.onThread_of_unread hunread, rfl⟩
  | miss now hunread => exact Or.inr ⟨now, Reader.onThread_of_unread hunread, rfl⟩
  | defer now ha hasync hpc => exact Or.inr ⟨now, by rw [Reader.onThread, hpc], rfl⟩
  | read now value ha hunread haccepts hvalue => exact Or.inr ⟨now, Reader.onThread_of_unread hunread, rfl⟩
  | _ => exact Or.inl rfl

/-- A step of the read. -/
theorem ReaderMove.answers {a : ReaderAction} (hmove : ReaderMove cfg w us r a w' us' r')
    (htxn : r.txn = some i) (hu : us[i]? = some u) (hu' : us'[i]? = some u') (h : Answers u r)
    (hfam : a = .execute false → OwnFamily us r)
    (hhit : a = .load → r.async = false → (r.load cfg w).2.hits = true → ∀ snapshot, u.snapshot = some snapshot → ∀ e,
      r.expected = some e → versionOf (u.sees snapshot r.loc) = e) :
    Answers u' r' ∧ (r.pc ≠ .done → r'.pc = .done → r'.Agrees u') := by
  have hunit : unitOf us r = some u := by
    rw [unitOf, htxn]
    exact hu
  have hpinned : ∀ now, us' = pinUnits w us r now → u' = u.ensureSnapshot w now ∧
      unitOf (pinUnits w us r now) r = some u' := by
    rintro now rfl
    have hmap := unitOf_pinUnits w us r now
    rw [hunit, Option.map_some] at hmap
    have hat : unitOf (pinUnits w us r now) r = some u' := by
      rw [unitOf, htxn]
      exact hu'
    exact ⟨Option.some.inj (hat.symm.trans hmap), hat⟩
  have hensured : ∀ now, (u.ensureSnapshot w now).isTransaction = true := by
    intro now
    rw [WriteUnit.isTransaction, (ensureSnapshot_frame u w now).1]
    exact h.transaction
  cases hmove with
  | drop =>
    obtain rfl := Option.some.inj (hu.symm.trans hu')
    exact ⟨.done h.transaction rfl, fun hpc _ => h.agrees hpc⟩
  | pin now hunread =>
    obtain ⟨rfl, -⟩ := hpinned now rfl
    have hlive := h.live (Reader.onThread_of_unread hunread)
    refine ⟨.unread (hensured now) ?_ rfl (h.fresh (Or.inl hunread)), fun _ hpc => by cases hpc⟩
    rw [(ensureSnapshot_frame u w now).2]
    exact hlive
  | load hpc =>
    obtain rfl := Option.some.inj (hu.symm.trans hu')
    have hunread : r.unread = true := by
      rcases hpc with hpc | hpc
      all_goals rw [Reader.unread, hpc]
    have hlive := h.live (Reader.onThread_of_unread hunread)
    rcases load_seen cfg w r with heq | ⟨-, heq⟩
    all_goals rw [heq]
    all_goals exact ⟨.unread h.transaction hlive rfl (h.fresh (Or.inl hunread)), fun _ hpc => by cases hpc⟩
  | hit hsync hpc hhits ha =>
    obtain rfl := Option.some.inj (hu.symm.trans hu')
    refine ⟨.done h.transaction rfl, fun _ _ _ snapshot hsnap e he => ?_⟩
    obtain ⟨hloc, -, -, hexp, -⟩ := load_frame cfg w r
    change versionOf (u.sees snapshot (r.load cfg w).2.loc) = e
    rw [hloc]
    exact hhit ha hsync hhits snapshot hsnap e (hexp.symm.trans he)
  | miss now hunread =>
    obtain ⟨rfl, -⟩ := hpinned now rfl
    exact ⟨.done (hensured now) rfl, fun _ _ hf => absurd ((h.fresh (Or.inl hunread)).symm.trans hf) Bool.false_ne_true⟩
  | defer now ha hasync hpc =>
    obtain ⟨rfl, hat⟩ := hpinned now rfl
    have hunread : r.unread = true := by rw [Reader.unread, hpc]
    refine ⟨.of_flight (hensured now) rfl (ensureSnapshot_pinned u w now) (fun snapshot hs => ?_)
      (fun _ v hv => by cases hv)
      (h.fresh (Or.inl hunread)), fun _ hpc => by cases hpc⟩
    change (unitOf (pinUnits w us r now) r).bind WriteUnit.snapshot = some snapshot
    rw [hat]
    exact hs
  | read now value ha hunread haccepts hvalue =>
    obtain ⟨rfl, hat⟩ := hpinned now rfl
    have hpending : (u.ensureSnapshot w now).phase = .pending := by
      rw [(ensureSnapshot_frame u w now).2]
      rw [refuses, hunit] at haccepts
      simpa using haccepts
    have hsnap : (r.snapped (pinUnits w us r now)).snapshot = (u.ensureSnapshot w now).snapshot := by
      change (unitOf (pinUnits w us r now) r).bind WriteUnit.snapshot = _
      rw [hat]
      rfl
    rw [hat] at hvalue
    obtain ⟨hanswers, hagrees⟩ := Answers.found (r := r.snapped (pinUnits w us r now)) (hensured now) hpending
      (ensureSnapshot_pinned u w now) hsnap
      (h.fresh (Or.inl hunread)) hvalue
    exact ⟨hanswers, fun _ _ => hagrees⟩
  | choose v hpc =>
    obtain rfl := Option.some.inj (hu.symm.trans hu')
    obtain ⟨pc, heq, hstage⟩ := choose_stage w r v
    rw [heq]
    exact h.advance (by rw [Reader.answered, hpc]) hstage
  | reread hpc =>
    obtain rfl := Option.some.inj (hu.symm.trans hu')
    exact h.advance (by rw [Reader.answered, hpc]) (Or.inl rfl)
  | alone v hpc hnone =>
    obtain rfl := Option.some.inj (hu.symm.trans hu')
    exact h.advance (by rw [Reader.answered, hpc]) (Or.inl rfl)
  | date v hpc =>
    obtain rfl := Option.some.inj (hu.symm.trans hu')
    exact h.advance (by rw [Reader.answered, hpc]) (Or.inl rfl)
  | sequence v hpc =>
    obtain rfl := Option.some.inj (hu.symm.trans hu')
    exact h.advance (by rw [Reader.answered, hpc]) (Or.inl rfl)
  | gate v latestSeq hpc hle =>
    obtain rfl := Option.some.inj (hu.symm.trans hu')
    exact h.advance (by rw [Reader.answered, hpc]) (Or.inl rfl)
  | publish v ha hpc =>
    obtain rfl := Option.some.inj (hu.symm.trans hu')
    exact h.advance (by rw [Reader.answered, hpc]) (Or.inr rfl)
  | queue hasync hpc hnone =>
    rw [hnone] at htxn
    cases htxn
  | execute value ha hpc hvalue =>
    obtain rfl := Option.some.inj (hu.symm.trans hu')
    have hflight : r.inFlight = true := by rw [Reader.inFlight, hpc]
    obtain ⟨hpin, hsame⟩ := h.flight hflight
    refine ⟨.of_flight h.transaction rfl hpin hsame (fun hseen v hv snapshot hs => ?_) (h.fresh (Or.inr hflight)),
      fun _ hpc => by cases hpc⟩
    obtain rfl := ReaderPc.executed.inj hv
    rw [(hfam ha).workerLocation hseen, hunit, hsame snapshot hs, visible_sees] at hvalue
    change versionOf (u.sees snapshot r.loc) = _
    rw [hvalue]
    rfl
  | resolve v ha hpc hseen =>
    obtain rfl := Option.some.inj (hu.symm.trans hu')
    refine ⟨.done h.transaction rfl, fun _ _ hf snapshot hs e he => ?_⟩
    have hexp : r.expected = some v := of_decide_eq_true hf
    obtain rfl := Option.some.inj (hexp.symm.trans he)
    exact h.executed hseen v hpc snapshot hs

end Answers

end RocksdbJs
