import RocksdbJs.Lib.Runs
import RocksdbJs.Proofs.PendingCount

/-! What `tryClose` may rely on when it marks the store as closing. Phase 3 looks at the count
again, so no bound transaction without a written batch is ever missed. It does not look at the
positions again: a transaction that binds, writes and lowers the count between phases 2 and 3
is missed. Phase 2 misses a position that equals the place of the next entry, which it takes for
the sentinel, and one that another transaction of the same position has given back. -/

namespace RocksdbJs

open TransactionLogStore

/-- Entries are written and neither finished nor aborted. -/
def TransactionHandle.undecided (h : TransactionHandle) : Bool := h.wrote && !h.decided

/-- The position of the handle must stay registered. -/
def TransactionHandle.holdsPosition (h : TransactionHandle) : Bool :=
  h.undecided || match h.pc with
    | .writing _ => true
    | _ => false

namespace Session

/-- No transaction is bound without having written, and none has written undecided entries. -/
def Unused (y : Session) : Prop := ∀ h ∈ y.handles, h.isPending = false ∧ h.undecided = false

/-- No other transaction must keep the position that handle `i` has. -/
def soleHolder (y : Session) (i : ℕ) (h : TransactionHandle) : Bool :=
  !h.hasPosition || (y.handles.eraseIdx i).all fun g =>
    !g.holdsPosition || decide (g.committedPosition ≠ h.committedPosition)

/-- What a step has to meet: a position is given back only where no other transaction has the
same one, phase 2 meets no undecided transaction at the place of the next entry, and what was
written since phase 2 is decided at phase 3. -/
def closesSafely (y : Session) : SessionAction → Bool
  | .commitFailed i _ => (y.handles[i]?).all fun h => y.soleHolder i h
  | .commitResult i status _ => (y.handles[i]?).all fun h => decide (status = .isBusy) || y.soleHolder i h
  | .abort i => (y.handles[i]?).all fun h => decide (h.state ≠ .pending) || y.soleHolder i h
  | .close i => (y.handles[i]?).all fun h => decide (h.state = .committed) || y.soleHolder i h
  | .closePhase k _ => (y.closeCalls[k]?).all fun c =>
      match c.pc with
      | .phase2 => y.handles.all fun h => !h.undecided || decide (h.committedPosition ≠ y.world.store.nextLogPosition)
      | .phase3 => c.writtenSince.all fun j => (y.handles[j]?).all fun h => !h.undecided
      | _ => true
  | _ => true

/-- The store keeps the positions it must, and a call of `tryClose` past phase 2 knows of every
undecided transaction. -/
structure Tracked (y : Session) : Prop where
  inv : Inv y
  undecided : ∀ {i : ℕ} {h : TransactionHandle}, y.handles[i]? = some h → h.undecided = true →
    h.committedPosition ∈ y.world.store.uncommittedTransactionPositions
  writing : ∀ {i : ℕ} {h : TransactionHandle} {sync : Bool}, y.handles[i]? = some h → h.pc = .writing sync →
    h.committedPosition ∈ y.world.store.uncommittedTransactionPositions
  seen : ∀ c ∈ y.closeCalls, c.pc = .phase3 → ∀ {i : ℕ} {h : TransactionHandle}, y.handles[i]? = some h →
    h.undecided = true → i ∈ c.writtenSince

section
variable {cfg : StoreConfig} {y y' : Session} {i : ℕ} {h h' : TransactionHandle} {s : TransactionLogStore}

/-- A handle changes, and the store keeps every position that must stay registered. -/
theorem Tracked.update (ht : Tracked y) (hh : y.handles[i]? = some h)
    (hinv : Inv ((y.withStore s).setHandle i h')) (hnw : ∀ sync, h'.pc ≠ .writing sync)
    (hund : h'.undecided = true → h.undecided = true ∧ h'.committedPosition = h.committedPosition)
    (hkept : ∀ p ∈ y.world.store.uncommittedTransactionPositions,
      (∃ j g, y.handles[j]? = some g ∧ g.holdsPosition = true ∧ g.committedPosition = p ∧
        (j = i → h'.undecided = true)) → p ∈ s.uncommittedTransactionPositions) :
    Tracked ((y.withStore s).setHandle i h') := by
  have hlt : i < y.handles.length := (List.getElem?_eq_some_iff.mp hh).1
  have hself : (y.handles.set i h')[i]? = some h' := by simp [hlt]
  refine ⟨hinv, ?_, ?_, ?_⟩
  · intro j g hg hu
    by_cases hij : i = j
    · subst hij
      obtain rfl := Option.some.inj (hself.symm.trans hg)
      obtain ⟨hu', hp⟩ := hund hu
      rw [hp]
      exact hkept _ (ht.undecided hh hu') ⟨i, h, hh, by rw [TransactionHandle.holdsPosition, hu']; rfl, rfl,
        fun _ => hu⟩
    · have hg' := (List.getElem?_set_ne hij).symm.trans hg
      exact hkept _ (ht.undecided hg' hu)
        ⟨j, g, hg', by rw [TransactionHandle.holdsPosition, hu]; rfl, rfl, fun hji => absurd hji.symm hij⟩
  · intro j g sync hg hw
    by_cases hij : i = j
    · subst hij
      obtain rfl := Option.some.inj (hself.symm.trans hg)
      exact absurd hw (hnw sync)
    · have hg' := (List.getElem?_set_ne hij).symm.trans hg
      refine hkept _ (ht.writing hg' hw) ⟨j, g, hg', ?_, rfl, fun hji => absurd hji.symm hij⟩
      rw [TransactionHandle.holdsPosition, hw, Bool.or_true]
  · intro c hc h3 j g hg hu
    by_cases hij : i = j
    · subst hij
      obtain rfl := Option.some.inj (hself.symm.trans hg)
      exact ht.seen c hc h3 hh (hund hu).1
    · exact ht.seen c hc h3 ((List.getElem?_set_ne hij).symm.trans hg) hu

theorem setHandle_eq (y : Session) (i : ℕ) (h : TransactionHandle) :
    y.setHandle i h = (y.withStore y.world.store).setHandle i h := rfl

/-- A handle changes what does not concern the positions. -/
theorem Tracked.updateHandle (ht : Tracked y) (hh : y.handles[i]? = some h) (hinv : Inv (y.setHandle i h'))
    (hnw : ∀ sync, h'.pc ≠ .writing sync) (hw : h'.wrote = h.wrote) (hd : h'.decided = h.decided)
    (hp : h'.committedPosition = h.committedPosition) : Tracked (y.setHandle i h') := by
  have hu : h'.undecided = h.undecided := by rw [TransactionHandle.undecided, hw, hd]; rfl
  rw [setHandle_eq] at hinv ⊢
  exact ht.update hh hinv hnw (fun hu' => ⟨hu ▸ hu', hp⟩) fun p hmem _ => hmem

theorem soleHolder_ne (hsole : y.soleHolder i h = true) (hpos : h.hasPosition = true) {j : ℕ}
    {g : TransactionHandle} (hij : j ≠ i) (hg : y.handles[j]? = some g) (hhold : g.holdsPosition = true) :
    g.committedPosition ≠ h.committedPosition := by
  rw [soleHolder, hpos, Bool.not_true, Bool.false_or, List.all_eq_true] at hsole
  have := hsole g (List.mem_eraseIdx_iff_getElem?.mpr ⟨j, hij, hg⟩)
  rw [hhold, Bool.not_true, Bool.false_or] at this
  exact of_decide_eq_true this

/-- The handle gives its position back, which no other must keep. -/
theorem Tracked.giveBack (ht : Tracked y) (hh : y.handles[i]? = some h) (hsole : y.soleHolder i h = true)
    {give : TransactionLogStore → LogPosition → TransactionLogStore}
    (hgive : ∀ s p, (give s p).uncommittedTransactionPositions = s.uncommittedTransactionPositions.erase p)
    (hinv : Inv (y.giveBack i h' give)) (hnw : ∀ sync, h'.pc ≠ .writing sync)
    (hw : h'.wrote = h.wrote) (hp : h'.committedPosition = h.committedPosition) : Tracked (y.giveBack i h' give) := by
  have hpos : h'.hasPosition = h.hasPosition := by rw [TransactionHandle.hasPosition, hp]; rfl
  unfold Session.giveBack at hinv ⊢
  split_ifs at hinv ⊢ with hhas
  · refine ht.update hh hinv hnw (fun hu => ?_) fun p hmem hholds => ?_
    · simp [TransactionHandle.undecided] at hu
    · obtain ⟨j, g, hg, hhold, rfl, hself⟩ := hholds
      have hji : j ≠ i := by
        rintro rfl
        have := hself rfl
        simp [TransactionHandle.undecided] at this
      rw [hgive, SortedVec.mem_erase, hp]
      exact ⟨soleHolder_ne hsole (hpos ▸ hhas) hji hg hhold, hmem⟩
  · -- without a position nothing was written
    have hwrote : h.wrote = false := by
      cases hwr : h.wrote with
      | false => rfl
      | true => exact absurd (hpos.trans ((ht.inv.handles hh).wrote hwr)) hhas
    rw [setHandle_eq] at hinv ⊢
    refine ht.update hh hinv hnw (fun hu => ?_) fun p hmem _ => hmem
    rw [TransactionHandle.undecided, hw, hwrote] at hu
    cases hu

theorem Tracked.closeHandle (ht : Tracked y) (hh : y.handles[i]? = some h) (hlive : h.closed = false)
    (hpc : h.pc = .idle) (hsole : h.state ≠ .committed → y.soleHolder i h = true) :
    Tracked (y.closeHandle i h) := by
  have hinv := ht.inv.closeHandle hh hlive hpc
  have hnw : ∀ sync, h.shut.pc ≠ .writing sync := not_writing_of_pc hpc fun sync hw => by cases hw
  unfold Session.closeHandle at hinv ⊢
  dsimp only at hinv ⊢
  split_ifs at hinv ⊢ with hpos hstate hbound
  · exact ht.updateHandle hh hinv hnw rfl rfl rfl
  · refine ht.giveBack hh (hsole fun hc => hstate ?_) (fun _ _ => rfl) hinv hnw rfl rfl
    rw [TransactionHandle.shut, hc]
  · exact ht.update hh hinv hnw (fun hu => ⟨hu, rfl⟩) fun p hmem _ => hmem
  · exact ht.updateHandle hh hinv hnw rfl rfl rfl

/-- The end of a commit that calls `commitFinished`. -/
theorem Tracked.finished (ht : Tracked y) (hh : y.handles[i]? = some h) (hnw : ∀ sync, h.pc ≠ .writing sync)
    (hlive : h.closed = false) (hsole : y.soleHolder i h = true) (state : TransactionState) (latest : ℕ) :
    Tracked (y.giveBack i { h with pc := .idle, state := state } (·.commitFinished · latest)) := by
  have hinv := ht.inv.finished hh hnw hlive state latest
  refine ht.giveBack hh hsole ?_ hinv ?_ rfl rfl
  · exact fun _ _ => rfl
  · exact fun _ hw => by cases hw

theorem Tracked.bind (ht : Tracked y) (hh : y.handles[i]? = some h) (hlive : h.closed = false)
    (hnw : ∀ sync, h.pc ≠ .writing sync) {z : Session × TransactionHandle} (hb : y.bind i h = some z) :
    Tracked z.1 := by
  have hinv := (ht.inv.bind hh hlive hnw hb).1
  unfold Session.bind at hb
  split_ifs at hb with hbound hclosing
  · obtain rfl := Option.some.inj hb
    exact ht
  · obtain rfl := Option.some.inj hb
    exact ht.update hh hinv hnw (fun hu => ⟨hu, rfl⟩) fun p hmem _ => hmem

/-- A call of `writeBatch` registers the position it takes. -/
theorem Tracked.beginWrite (ht : Tracked y) (hh : y.handles[i]? = some h)
    {batch : TransactionLogEntryBatch} {g : TransactionHandle} (hwrote : g.wrote = false)
    (hpos : g.committedPosition = y.world.store.nextLogPosition) (hopen : y.world.store.isClosing = false)
    (hinv : Inv { y with world := RocksdbJs.beginWrite y.world batch, writerOf := i, handles := y.handles.set i g }) :
    Tracked { y with world := RocksdbJs.beginWrite y.world batch, writerOf := i, handles := y.handles.set i g } := by
  have hlt : i < y.handles.length := (List.getElem?_eq_some_iff.mp hh).1
  have hself : (y.handles.set i g)[i]? = some g := by simp [hlt]
  have hmem : ∀ p, p ∈ (RocksdbJs.beginWrite y.world batch).store.uncommittedTransactionPositions ↔
      p = y.world.store.nextLogPosition ∨ p ∈ y.world.store.uncommittedTransactionPositions := by
    intro p
    rw [RocksdbJs.beginWrite, if_neg (by rw [hopen]; exact Bool.false_ne_true)]
    exact SortedVec.mem_insert
  have hnot : g.undecided = true → False := by
    rw [TransactionHandle.undecided, hwrote]
    exact Bool.false_ne_true
  refine ⟨hinv, fun {j k} hk hu => (hmem _).mpr ?_, fun {j k sync} hk hw => (hmem _).mpr ?_,
    fun c hc h3 {j k} hk hu => ?_⟩
  all_goals
    by_cases hij : i = j
    · subst hij
      obtain rfl := Option.some.inj (hself.symm.trans hk)
      first | exact (hnot hu).elim | exact Or.inl hpos
    have hk' := (List.getElem?_set_ne hij).symm.trans hk
  · exact Or.inr (ht.undecided hk' hu)
  · exact Or.inr (ht.writing hk' hw)
  · exact ht.seen c hc h3 hk' hu

theorem Tracked.stepWrite {io : WriterCalls} (ht : Tracked y) (hstep : y.stepWrite cfg io = some y') : Tracked y' := by
  have hinv := ht.inv.stepWrite hstep
  obtain ⟨h, sync, wr, w', wr', hw, hm, -, rfl⟩ := stepWrite_cases ht.inv hstep
  have hlt : y.writerOf < y.handles.length := (List.getElem?_eq_some_iff.mp hw.handle).1
  set g := h.afterWriterStep sync wr' with hg
  have hself : (y.handles.set y.writerOf g)[y.writerOf]? = some g := by simp [hlt]
  have hposition : g.committedPosition = wr'.logPosition := by
    rcases afterWriterStep_cases h sync wr' with ⟨-, hg'⟩ | ⟨-, -, hg'⟩ | ⟨-, hg'⟩
    all_goals rw [hg, hg']
  have hmem : g.committedPosition ∈ w'.store.uncommittedTransactionPositions := by
    rw [hposition]
    refine hm.mem ?_
    rw [← hw.position]
    exact ht.writing hw.handle hw.pc
  have hwrote : h.wrote = false := ((ht.inv.handles hw.handle).batch hw.batch).2.1
  -- the handle is undecided only once the call has returned
  have hreturned : g.undecided = true → wr'.pc = .returned := by
    intro hu
    rcases afterWriterStep_cases h sync wr' with ⟨hpc, -⟩ | ⟨-, -, hg'⟩ | ⟨-, hg'⟩
    · exact hpc
    all_goals
      rw [hg, hg', TransactionHandle.undecided] at hu
      rw [show _ = false from hwrote] at hu
      cases hu
  have hkept : ∀ {j : ℕ} {k : TransactionHandle}, y.handles[j]? = some k → k.undecided = true →
      k.committedPosition ∈ w'.store.uncommittedTransactionPositions := by
    intro j k hk hu
    refine hm.kept _ (ht.undecided hk hu) ?_
    have hpos := (ht.inv.handles hk).wrote (Bool.and_eq_true_iff.mp hu).1
    exact (of_decide_eq_true hpos).ne'
  have hundecided : ∀ {j : ℕ} {k : TransactionHandle}, (y.handles.set y.writerOf g)[j]? = some k → k.undecided = true →
      k.committedPosition ∈ w'.store.uncommittedTransactionPositions := by
    intro j k hk hu
    by_cases hij : y.writerOf = j
    · subst hij
      obtain rfl := Option.some.inj (hself.symm.trans hk)
      exact hmem
    · exact hkept ((List.getElem?_set_ne hij).symm.trans hk) hu
  have hwriting : ∀ {j : ℕ} {k : TransactionHandle} {sync : Bool}, (y.handles.set y.writerOf g)[j]? = some k →
      k.pc = .writing sync → k.committedPosition ∈ w'.store.uncommittedTransactionPositions := by
    intro j k sync' hk hpc
    by_cases hij : y.writerOf = j
    · subst hij
      obtain rfl := Option.some.inj (hself.symm.trans hk)
      exact hmem
    · have hother := (ht.inv.handles ((List.getElem?_set_ne hij).symm.trans hk)).writing hpc
      exact absurd hother.1.symm hij
  dsimp only at hinv ⊢
  split_ifs at hinv ⊢ with hpc
  · refine ⟨hinv, hundecided, hwriting, fun c hc h3 {j k} hk hu => ?_⟩
    obtain ⟨c', hc', rfl⟩ := List.mem_map.mp hc
    by_cases h3' : c'.pc = .phase3
    · rw [if_pos h3']
      by_cases hij : y.writerOf = j
      · exact hij ▸ List.mem_cons_self
      · exact List.mem_cons_of_mem _ (ht.seen c' hc' h3' ((List.getElem?_set_ne hij).symm.trans hk) hu)
    · rw [if_neg h3'] at h3
      exact absurd h3 h3'
  · refine ⟨hinv, hundecided, hwriting, fun c hc h3 {j k} hk hu => ?_⟩
    by_cases hij : y.writerOf = j
    · subst hij
      obtain rfl := Option.some.inj (hself.symm.trans hk)
      exact absurd (hreturned hu) hpc
    · exact ht.seen c hc h3 ((List.getElem?_set_ne hij).symm.trans hk) hu

theorem Tracked.closePhase {k : ℕ} {c : CloseCall} {io : FilesCalls} {w' : World} {c' : Option CloseCall}
    (ht : Tracked y) (hok : y.closesSafely (.closePhase k io) = true) (hc : y.closeCalls[k]? = some c)
    (h : closePhase cfg y.world c io = some (w', c')) :
    Tracked { y with world := w', closeCalls := setCall y.closeCalls k c' } := by
  have hinv := ht.inv.closePhase hc h
  have hpositions : w'.store.uncommittedTransactionPositions = y.world.store.uncommittedTransactionPositions := by
    rcases closePhase_store h with ⟨rfl, -⟩ | ⟨-, -, -, -, rfl⟩ | ⟨-, -, -, -, hs⟩
    · rfl
    · rfl
    · rw [hs]
  refine ⟨hinv, fun hk hu => hpositions ▸ ht.undecided hk hu, fun hk hw => hpositions ▸ ht.writing hk hw,
    fun d hd h3 {j g} hg hu => ?_⟩
  rcases mem_closeCalls hd with hd | hd
  · -- the call has passed phase 2: no position but the place of the next entry is registered
    obtain ⟨hphase, hclean⟩ : c.pc = .phase2 ∧ hasUncommitted y.world.store = false := by
      rcases closePhase_store h with ⟨-, hpc⟩ | ⟨-, -, -, hpc, -⟩ | ⟨-, hnone, -⟩
      · rcases hpc d hd with h2 | ⟨h2, -, hclean⟩
        · rw [h2] at h3
          cases h3
        · exact ⟨h2, hclean⟩
      · rw [hpc d hd] at h3
        cases h3
      · rw [hnone] at hd
        cases hd
    have hnext : g.committedPosition = y.world.store.nextLogPosition := by
      by_contra hne
      have hany : hasUncommitted y.world.store = true :=
        List.any_eq_true.mpr ⟨_, ht.undecided hg hu, by rw [decide_eq_false hne]; rfl⟩
      rw [hclean] at hany
      cases hany
    rw [closesSafely, hc, Option.all_some] at hok
    simp only [hphase, List.all_eq_true] at hok
    have := hok g (List.mem_of_getElem? hg)
    rw [hu, Bool.not_true, Bool.false_or] at this
    exact absurd hnext (of_decide_eq_true this)
  · exact ht.seen d hd h3 hg hu

theorem all_getElem? {p : TransactionHandle → Bool} (hall : (y.handles[i]?).all p = true)
    (hh : y.handles[i]? = some h) :
    p h = true := by
  rwa [hh, Option.all_some] at hall

theorem Tracked.step {a : SessionAction} (ht : Tracked y) (hok : y.closesSafely a = true)
    (hstep : step cfg y a = some y') :
    Tracked y' := by
  have hinv := ht.inv.step hstep
  cases a with
  | newTransaction ts =>
    obtain rfl := Option.some.inj hstep
    have hold : ∀ {j : ℕ} {g : TransactionHandle},
        (y.handles ++ [({ startTimestamp := ts } : TransactionHandle)])[j]? = some g →
        (g.undecided = true ∨ ∃ sync, g.pc = .writing sync) → y.handles[j]? = some g := by
      intro j g hg hholds
      by_cases hlt : j < y.handles.length
      · exact (List.getElem?_append_left hlt).symm.trans hg
      · have hmem := List.mem_of_getElem? ((List.getElem?_append_right (not_lt.mp hlt)).symm.trans hg)
        obtain rfl := List.mem_singleton.mp hmem
        rcases hholds with hu | ⟨sync, hw⟩
        · cases hu
        · cases hw
    exact ⟨hinv, fun hg hu => ht.undecided (hold hg (Or.inl hu)) hu,
      fun hg hw => ht.writing (hold hg (Or.inr ⟨_, hw⟩)) hw,
      fun c hc h3 _ _ hg hu => ht.seen c hc h3 (hold hg (Or.inl hu)) hu⟩
  | useLog i =>
    obtain ⟨h, hl, rfl⟩ := Option.map_eq_some_iff.mp hstep
    obtain ⟨hh, hlive⟩ := live_some hl
    cases hb : y.bind i h with
    | none => exact ht
    | some z =>
      by_cases hbound : h.bound = true
      · rw [Session.bind, if_pos hbound] at hb
        obtain rfl := Option.some.inj hb
        exact ht
      · exact ht.bind hh hlive (ht.inv.not_writing_of_unbound hh hbound) hb
  | addLogEntry i entry =>
    obtain ⟨h, hl, rfl | ⟨hnw, -, z, g, hb, rfl⟩⟩ := addLogEntry_cases hstep
    · exact ht
    · obtain ⟨hh, hlive⟩ := live_some hl
      obtain ⟨-, hg, -, hgpc, -⟩ := ht.inv.bind hh hlive hnw hb
      exact (ht.bind hh hlive hnw hb).updateHandle hg hinv (fun sync => hgpc ▸ hnw sync) rfl rfl rfl
  | commit i sync =>
    obtain ⟨h, hl, hstep⟩ := Option.bind_eq_some_iff.mp hstep
    obtain ⟨hh, hlive⟩ := live_some hl
    split_ifs at hstep with hpc hstate
    · unfold beginCommit at hstep
      cases hb : h.logEntryBatch with
      | none =>
        simp only [hb] at hstep
        obtain rfl := Option.some.inj hstep
        exact ht.updateHandle hh hinv (fun sync hw => by cases hw) rfl rfl rfl
      | some batch =>
        have hwrote := ((ht.inv.handles hh).batch hb).2.1
        simp only [hb] at hstep
        split_ifs at hstep with hbusy hclosing hsync
        · obtain rfl := Option.some.inj hstep
          exact ht.updateHandle hh hinv (fun sync hw => by cases hw) rfl rfl rfl
        · obtain rfl := Option.some.inj hstep
          exact ht.updateHandle hh hinv (fun sync hw => by cases hw) rfl rfl rfl
        · obtain rfl := Option.some.inj hstep
          exact ht.beginWrite hh hwrote rfl (Bool.eq_false_of_not_eq_true hclosing) hinv
    · obtain rfl := Option.some.inj hstep
      exact ht
  | writer io => exact ht.stepWrite hstep
  | commitFailed i latest =>
    obtain ⟨h, hl, hstep⟩ := Option.bind_eq_some_iff.mp hstep
    obtain ⟨hh, hlive⟩ := live_some hl
    split_ifs at hstep with hpc
    obtain rfl := Option.some.inj hstep
    exact ht.finished hh (not_writing_of_pc hpc fun sync hw => by cases hw) hlive (all_getElem? hok hh) .pending latest
  | commitResult i status latest =>
    obtain ⟨h, hl, hstep⟩ := Option.bind_eq_some_iff.mp hstep
    obtain ⟨hh, hlive⟩ := live_some hl
    split_ifs at hstep with hpc
    obtain rfl := Option.some.inj hstep
    have hnw := not_writing_of_pc hpc fun sync hw => by cases hw
    have hsole := all_getElem? hok hh
    cases status with
    | ok => exact ht.finished hh hnw hlive hsole .committed latest
    | isBusy => exact ht.updateHandle hh hinv (fun sync hw => by cases hw) rfl rfl rfl
    | error => exact ht.finished hh hnw hlive hsole .pending latest
  | abort i =>
    obtain ⟨h, hl, hstep⟩ := Option.bind_eq_some_iff.mp hstep
    obtain ⟨hh, hlive⟩ := live_some hl
    have hsole := all_getElem? hok hh
    split_ifs at hstep with hpc hstate
    · obtain rfl := Option.some.inj hstep
      refine ht.closeHandle hh hlive hpc fun _ => ?_
      simpa [hstate] using hsole
    · obtain rfl := Option.some.inj hstep
      exact ht
  | close i =>
    obtain ⟨h, hl, hstep⟩ := Option.bind_eq_some_iff.mp hstep
    obtain ⟨hh, hlive⟩ := live_some hl
    have hsole := all_getElem? hok hh
    split_ifs at hstep with hpc
    obtain rfl := Option.some.inj hstep
    refine ht.closeHandle hh hlive hpc fun hstate => ?_
    simpa [hstate] using hsole
  | tryClose =>
    simp only [Session.step] at hstep
    split_ifs at hstep
    · obtain rfl := Option.some.inj hstep
      exact ht
    · obtain rfl := Option.some.inj hstep
      refine ⟨hinv, ht.undecided, ht.writing, fun c hc h3 _ _ hk hu => ?_⟩
      rcases List.mem_append.mp hc with hc | hc
      · exact ht.seen c hc h3 hk hu
      · obtain rfl := List.mem_singleton.mp hc
        cases h3
  | closePhase k io =>
    obtain ⟨c, hc, hstep⟩ := Option.bind_eq_some_iff.mp hstep
    obtain ⟨⟨w', c'⟩, hphase, rfl⟩ := Option.map_eq_some_iff.mp hstep
    exact ht.closePhase hok hc hphase

/-- The step that marks the store as closing is a phase 3. -/
theorem marks_phase3 {a : SessionAction} (hi : Inv y) (hstep : Session.step cfg y a = some y')
    (hopen : y.world.store.isClosing = false) (hmarked : y'.world.store.isClosing = true) :
    ∃ k io c, a = .closePhase k io ∧ y.closeCalls[k]? = some c ∧ c.pc = .phase3 ∧
      y.world.store.pendingTransactionCount ≤ 0 := by
  have hsame : y'.world.store.isClosing = y.world.store.isClosing → False :=
    fun hz => Bool.false_ne_true ((hz.trans hopen).symm.trans hmarked)
  by_cases ha : a.ofTransaction = true
  · refine (hsame ?_).elim
    by_cases hw : ∃ io, a = .writer io
    · obtain ⟨io, rfl⟩ := hw
      obtain ⟨h, sync, wr, w', wr', hw, hm, -, rfl⟩ := stepWrite_cases hi hstep
      dsimp only
      split_ifs
      · exact hm.isClosing
      · exact hm.isClosing
    · exact (step_quiet hstep ha fun io hio => hw ⟨io, hio⟩).1
  · cases a with
    | tryClose =>
      simp only [Session.step] at hstep
      split_ifs at hstep
      · exact (hsame (by rw [← Option.some.inj hstep])).elim
      · exact (hsame (by rw [← Option.some.inj hstep])).elim
    | closePhase k io =>
      obtain ⟨c, hc, hstep⟩ := Option.bind_eq_some_iff.mp hstep
      obtain ⟨⟨w', c'⟩, hphase, rfl⟩ := Option.map_eq_some_iff.mp hstep
      rcases closePhase_store hphase with ⟨rfl, -⟩ | ⟨hpc, -, hcount, -⟩ | ⟨hpc, -⟩
      · exact (hsame rfl).elim
      · exact ⟨k, io, c, rfl, hc, hpc, hcount⟩
      · exact absurd (hopen.symm.trans (hi.marked c (List.mem_of_getElem? hc) hpc)) Bool.false_ne_true
    | _ => exact absurd rfl ha

/-- In every run whose steps meet the condition, the store is unused at the step where `tryClose`
marks it as closing. -/
theorem closed_store_unused {y0 : Session} {as : List SessionAction} {a : SessionAction} (h0 : Initial cfg y0)
    (hok : Runs.Along (Session.step cfg) (fun z b => z.closesSafely b = true) y0 (as ++ [a]))
    (hrun : Runs.exec (Session.step cfg) y0 as = some y) (hstep : Session.step cfg y a = some y')
    (hopen : y.world.store.isClosing = false) (hmarked : y'.world.store.isClosing = true) : y.Unused := by
  obtain ⟨hok, hlast⟩ := Runs.Along.append hok hrun
  have hinv0 := (initial_inv h0).1
  have ht0 : Tracked y0 := by
    obtain ⟨hhandles, hcalls, -⟩ := h0
    refine ⟨hinv0, fun hk => ?_, fun hk => ?_, fun c hc => ?_⟩
    · rw [hhandles] at hk
      cases hk
    · rw [hhandles] at hk
      cases hk
    · rw [hcalls] at hc
      cases hc
  have ht : Tracked y := Runs.exec_invariant (fun _ _ _ hi ho hs => hi.step ho hs) ht0 hok hrun
  obtain ⟨k, io, c, rfl, hc, h3, hcount⟩ := marks_phase3 ht.inv hstep hopen hmarked
  have howes : y.handles.countP TransactionHandle.owes = 0 := by
    have := ht.inv.count
    omega
  intro h hmem
  constructor
  · have hno := List.countP_eq_zero.mp howes h hmem
    rw [TransactionHandle.owes_eq] at hno
    cases hp : h.isPending with
    | false => rfl
    | true =>
      rw [hp] at hno
      exact absurd rfl hno
  · by_contra hu
    rw [Bool.not_eq_false] at hu
    obtain ⟨i, hi⟩ := List.mem_iff_getElem?.mp hmem
    have hsince := ht.seen c (List.mem_of_getElem? hc) h3 hi hu
    have hsafe : y.closesSafely (.closePhase k io) = true := hlast.1
    rw [closesSafely, hc, Option.all_some] at hsafe
    simp only [h3, List.all_eq_true] at hsafe
    have := all_getElem? (hsafe i hsince) hi
    rw [hu] at this
    cases this

end

instance (y : Session) : Decidable y.Unused := inferInstanceAs (Decidable (∀ h ∈ y.handles, _))

/-- A transaction that binds and writes its one entry. -/
def writesOne (i : ℕ) : List SessionAction :=
  [.newTransaction ⟨5⟩, .addLogEntry i (oneByteEntry 7), .commit i true, .writer {}, .writer {}, .writer {}, .writer {},
    .writer { results := [.count 14] }, .writer {}, .writer {}, .writer {}]

/-- The commit of a transaction that has written ends between phases 1 and 2. -/
theorem closed_store_unused_committed : (Runs.final (step { maxFileSize := 200 }) {} (writesOne 0 ++
    [.tryClose, .closePhase 0 {}, .commitResult 0 .ok 9, .close 0, .closePhase 0 {}])).Unused :=
  closed_store_unused (a := .closePhase 0 {}) (initial_new _) (by decide +kernel)
    (Runs.exec_final _ _ _ (by decide +kernel))
    (Runs.step_final _ _ _ (by decide +kernel)) (by decide +kernel) (by decide +kernel)

/-- A transaction binds and writes between phases 2 and 3, and the store is marked as closing
before its commit ends. -/
theorem written_store_closed :
    ¬ ∀ (cfg : StoreConfig) (y0 y y' : Session) (as : List SessionAction) (a : SessionAction), Initial cfg y0 →
      Runs.exec (step cfg) y0 as = some y → step cfg y a = some y' → y.world.store.isClosing = false →
      y'.world.store.isClosing = true → y.Unused := by
  intro h
  have hunused := h _ _ _ _ _ _ (initial_new { maxFileSize := 200 })
    (Runs.exec_final _ _ ([.tryClose, .closePhase 0 {}, .closePhase 0 {}] ++ writesOne 0) (by decide +kernel))
    (Runs.step_final _ _ (.closePhase 0 {}) (by decide +kernel)) (by decide +kernel) (by decide +kernel)
  revert hunused
  decide +kernel

end Session

end RocksdbJs
