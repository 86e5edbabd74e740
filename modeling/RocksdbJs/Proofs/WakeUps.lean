import RocksdbJs.Proofs.TrackerLifecycle
import RocksdbJs.Spec.WakeCallbacks

/-! The wake-ups of parked commits. A tracker is woken exactly when its last holder has gone or its
database was cancelled, and nothing is queued with a woken tracker, so a callback that was
registered is called once, at the latest by the step that makes the tracker useless. All of it rests
on the counts: a tracker that has had `2 ^ 32` references may be deleted with a callback in its queue. -/

namespace RocksdbJs

/-- What a tracker keeps for life. -/
def Tracker.ident (t : Tracker) : ℕ × ℕ × ℕ × ℕ := (t.serial, t.dbPtr, t.slotIndex, t.generation)

theorem Tracker.ident_inj {t t' : Tracker} (h : t'.ident = t.ident) :
    t'.serial = t.serial ∧ t'.dbPtr = t.dbPtr ∧ t'.slotIndex = t.slotIndex ∧ t'.generation = t.generation := by
  simpa only [Tracker.ident, Prod.mk.injEq] using h

theorem Tracker.ident_counts (t : Tracker) (refcount holders : ℕ) (woken : Bool) :
    ({ t with refcount := refcount, holders := holders, woken := woken } : Tracker).ident = t.ident := rfl

namespace TrackerTable
variable {y y' u : TrackerTable} {p slot : ℕ} {t t' : Tracker} {a : TrackerAction} {w : Option ℕ}

/-- The trackers that are woken. -/
def Wakeful (y : TrackerTable) : Prop :=
  ∀ p t, y.heap p = some t → (t.woken = true ↔ t.holders = 0 ∨ t.serial ∈ y.cancelled)

/-- A tracker that sleeps locks its slot. -/
def Placed (y : TrackerTable) : Prop :=
  ∀ p t, y.heap p = some t → t.woken = false → t.slotIndex < y.size ∧ y.slots t.slotIndex = vtEncodeLock p t.generation

/-- What an operation that wakes the tracker `w` does to the trackers: one that is deleted is woken,
and only the lock of `w` is stored over. -/
structure TrackerMove (y y' : TrackerTable) (w : Option ℕ) : Prop where
  alive : ∀ p t, y.heap p = some t →
    (∃ t', y'.heap p = some t' ∧ t'.ident = t.ident ∧ t'.woken = (t.woken || decide (w = some p))) ∨
      (y'.heap p = none ∧ (t.woken = true ∨ w = some p))
  born : ∀ p t', y'.heap p = some t' → (∃ t, y.heap p = some t) ∨
    (t'.slotIndex < y'.size ∧ y'.slots t'.slotIndex = vtEncodeLock p t'.generation)
  locks : ∀ s, vtIsLock (y.slots s) = true → y'.slots s = y.slots s ∨ w = some (vtDecodeLock (y.slots s))
  size : y'.size = y.size
  wakeful : Wakeful y'

section Moves

/-- A tracker of the state after a move was there before, or it is new. -/
theorem TrackerMove.back (h : TrackerMove y y' w) {t' : Tracker} (ht' : y'.heap p = some t') :
    (∃ t, y.heap p = some t ∧ t'.ident = t.ident ∧ t'.woken = (t.woken || decide (w = some p))) ∨
      (y.heap p = none ∧ t'.slotIndex < y'.size ∧ y'.slots t'.slotIndex = vtEncodeLock p t'.generation) := by
  rcases hp : y.heap p with _ | t
  · rcases h.born p t' ht' with ⟨t, ht⟩ | hplaced
    · rw [hp] at ht
      cases ht
    · exact Or.inr ⟨rfl, hplaced⟩
  · rcases h.alive p t hp with ⟨t'', ht'', hsame⟩ | ⟨hnone, -⟩
    · obtain rfl := Option.some.inj (ht'.symm.trans ht'')
      exact Or.inl ⟨t, rfl, hsame⟩
    · rw [ht'] at hnone
      cases hnone

theorem Placed.move (h : Placed y) (hy : Tracked none y) (hmove : TrackerMove y y' w) : Placed y' := by
  intro p t' ht' hwoken
  rcases hmove.back ht' with ⟨t, ht, hident, heq⟩ | ⟨-, hplaced⟩
  · rw [hwoken, eq_comm, Bool.or_eq_false_iff, decide_eq_false_iff_not] at heq
    obtain ⟨hslot, hword⟩ := h p t ht heq.1
    obtain ⟨-, -, hindex, hgen⟩ := Tracker.ident_inj hident
    rw [hindex, hgen, hmove.size]
    refine ⟨hslot, ?_⟩
    rcases hmove.locks t.slotIndex (by rw [hword]; exact vtIsLock_encode _ _) with hkept | hw
    · exact hkept.trans hword
    · rw [hword, vtDecodeLock_encode (hy.live p t ht).address] at hw
      exact absurd hw heq.2
  · exact hplaced

theorem move_kept (h : Wakeful y) (hheap : y'.heap = y.heap) (hcancelled : y'.cancelled = y.cancelled)
    (hsize : y'.size = y.size) (hslots : ∀ s, vtIsLock (y.slots s) = true → y'.slots s = y.slots s) :
    TrackerMove y y' none := by
  refine ⟨fun p t ht => Or.inl ⟨t, by rw [hheap]; exact ht, rfl, by simp⟩,
    fun p t ht => Or.inl ⟨t, by rw [← hheap]; exact ht⟩,
    fun s hs => Or.inl (hslots s hs), hsize, fun p t ht => ?_⟩
  rw [hheap] at ht
  rw [hcancelled]
  exact h p t ht

/-- A tracker changes its counters, and may be the one that is woken. -/
theorem move_put (t' : Tracker) (h : Wakeful y) (ht : y.heap p = some t)
    (hheap : y'.heap = Function.update y.heap p (some t')) (hsize : y'.size = y.size)
    (hident : t'.ident = t.ident) (hwoken : t'.woken = (t.woken || decide (w = some p)))
    (hw : ∀ q, w = some q → q = p) (hnow : t'.woken = true ↔ t'.holders = 0 ∨ t'.serial ∈ y'.cancelled)
    (hothers : ∀ q v, q ≠ p → y.heap q = some v → (v.serial ∈ y'.cancelled ↔ v.serial ∈ y.cancelled))
    (hover : ∀ s, vtIsLock (y.slots s) = true → y'.slots s = y.slots s ∨ w = some (vtDecodeLock (y.slots s))) :
    TrackerMove y y' w := by
  refine ⟨fun q v hv => Or.inl ?_, fun q v hv => Or.inl ?_, hover, hsize, fun q v hv => ?_⟩
  · by_cases hqp : q = p
    · subst hqp
      obtain rfl := Option.some.inj (ht.symm.trans hv)
      exact ⟨t', by rw [hheap, Function.update_self], hident, hwoken⟩
    · have hne : w ≠ some q := fun hq => hqp (hw q hq)
      exact ⟨v, by rw [hheap, Function.update_of_ne hqp]; exact hv, rfl, by simp [hne]⟩
  · by_cases hqp : q = p
    · exact ⟨t, by rw [hqp]; exact ht⟩
    · rw [hheap, Function.update_of_ne hqp] at hv
      exact ⟨v, hv⟩
  · by_cases hqp : q = p
    · subst hqp
      rw [hheap, Function.update_self] at hv
      obtain rfl := Option.some.inj hv
      exact hnow
    · rw [hheap, Function.update_of_ne hqp] at hv
      rw [hothers q v hqp hv]
      exact h q v hv

/-- The end of a reference deletes the tracker only if that is woken. -/
theorem TrackerMove.drop (h : TrackerMove y u w) (ht : u.heap p = some t) (hlast : t.refcount = 1 → t.woken = true) :
    TrackerMove y (u.drop p t) w := by
  rw [TrackerTable.drop]
  split_ifs with hone
  · have hne : ∀ {q v}, Function.update u.heap p none q = some v → u.heap q = some v := by
      intro q v hv
      by_cases hqp : q = p
      · subst hqp
        rw [Function.update_self] at hv
        cases hv
      · rw [Function.update_of_ne hqp] at hv
        exact hv
    refine ⟨fun q v hv => ?_, fun q v hv => h.born q v (hne hv), h.locks, h.size, fun q v hv => h.wakeful q v (hne hv)⟩
    by_cases hqp : q = p
    · subst hqp
      refine Or.inr ⟨Function.update_self .., ?_⟩
      rcases h.alive q v hv with ⟨t', ht', -, hwoken⟩ | ⟨-, hdone⟩
      · obtain rfl := Option.some.inj (ht.symm.trans ht')
        rw [hlast hone] at hwoken
        simpa using hwoken.symm
      · exact hdone
    · change (∃ t', Function.update u.heap p none q = some t' ∧ _) ∨ (Function.update u.heap p none q = none ∧ _)
      rw [Function.update_of_ne hqp]
      exact h.alive q v hv
  · have hback : ∀ {q v}, (u.put p { t with refcount := fetchSub32 t.refcount }).heap q = some v →
        ∃ v', u.heap q = some v' ∧ v.ident = v'.ident ∧ v.woken = v'.woken ∧ v.holders = v'.holders := by
      intro q v hv
      by_cases hqp : q = p
      · subst hqp
        rw [put_heap] at hv
        obtain rfl := Option.some.inj hv
        exact ⟨t, ht, Tracker.ident_counts .., rfl, rfl⟩
      · rw [put_heap_ne hqp] at hv
        exact ⟨v, hv, rfl, rfl, rfl⟩
    refine ⟨fun q v hv => ?_, fun q v hv => ?_, h.locks, h.size, fun q v hv => ?_⟩
    · by_cases hqp : q = p
      · subst hqp
        rcases h.alive q v hv with ⟨t', ht', hsame⟩ | ⟨hnone, -⟩
        · obtain rfl := Option.some.inj (ht.symm.trans ht')
          refine Or.inl ⟨_, put_heap .., ?_, ?_⟩
          · rw [Tracker.ident_counts]
            exact hsame.1
          · dsimp only
            exact hsame.2
        · rw [ht] at hnone
          cases hnone
      · rw [put_heap_ne hqp]
        exact h.alive q v hv
    · obtain ⟨v', hv', hident, -, -⟩ := hback hv
      obtain ⟨-, -, hindex, hgen⟩ := Tracker.ident_inj hident
      rw [hindex, hgen]
      exact h.born q v' hv'
    · obtain ⟨v', hv', hident, hwoken, hholders⟩ := hback hv
      rw [hwoken, hholders, (Tracker.ident_inj hident).1]
      exact h.wakeful q v' hv'

theorem move_lock {dbPtr address : ℕ} (h : Wakeful y) (hy : Tracked none y) (hslot : slot < y.size)
    (hroom : ∀ t ∈ y.heap (vtDecodeLock (y.slots slot)), t.refcount + 1 < 2 ^ 32)
    (hs : y.lockSlotForWrite slot dbPtr address = some y') : TrackerMove y y' none := by
  rw [lockSlotForWrite] at hs
  split_ifs at hs with hlock hfree
  · obtain ⟨t, ht, rfl⟩ := Option.map_eq_some_iff.mp hs
    have hlive := hy.live _ t ht
    have hheld := (hy.locking hlock ht).held
    have hholders : fetchAdd32 t.holders = t.holders + 1 := by
      have hrefcount := hlive.refcount
      have hlt := hroom t ht
      exact fetchAdd32_of_lt (by omega)
    refine move_put { t with holders := fetchAdd32 t.holders, refcount := fetchAdd32 t.refcount } h ht rfl rfl
      (Tracker.ident_counts ..) (by simp) (fun q hq => by cases hq) ?_ (fun q v _ _ => Iff.rfl)
      (fun s _ => Or.inl rfl)
    simp only [hholders, Nat.add_eq_zero_iff, one_ne_zero, and_false, false_or]
    rw [h _ t ht]
    exact or_iff_right (Nat.pos_iff_ne_zero.mp hheld)
  · obtain rfl := Option.some.inj hs
    have hkeep : ∀ {q v}, y.heap q = some v → q ≠ address := by
      rintro q v hv rfl
      rw [hfree.2] at hv
      cases hv
    refine ⟨fun q v hv => Or.inl ⟨v, (put_heap_ne (hkeep hv)).trans hv, rfl, by simp⟩, fun q v hv => ?_,
      fun s hs => Or.inl ?_, rfl,
      fun q v hv => ?_⟩
    · by_cases hq : q = address
      · subst hq
        obtain rfl := Option.some.inj ((put_heap ..).symm.trans hv)
        exact Or.inr ⟨hslot, Function.update_self ..⟩
      · exact Or.inl ⟨v, (put_heap_ne hq).symm.trans hv⟩
    · have hword : vtIsLock (y.slots slot) = false := by simpa using hlock
      exact store_of_lock (y := y.put ..) hword _ hs
    · by_cases hq : q = address
      · subst hq
        obtain rfl := Option.some.inj ((put_heap ..).symm.trans hv)
        have hnew : y.made ∉ y.cancelled := fun hmem => absurd (hy.cancelled _ hmem) (lt_irrefl _)
        refine iff_of_false Bool.false_ne_true ?_
        rintro (hzero | hmem)
        · exact one_ne_zero hzero
        · exact hnew hmem
      · exact h q v ((put_heap_ne hq).symm.trans hv)

theorem move_ref (h : Wakeful y) (hs : y.refTrackerIfLocked slot = some y') : TrackerMove y y' none := by
  rw [refTrackerIfLocked] at hs
  split_ifs at hs with hlock
  · obtain ⟨t, ht, rfl⟩ := Option.map_eq_some_iff.mp hs
    refine move_put { t with refcount := fetchAdd32 t.refcount } h ht rfl rfl (Tracker.ident_counts ..) (by simp)
      (fun q hq => by cases hq) ?_ (fun q v _ _ => Iff.rfl)
      (fun s _ => Or.inl rfl)
    dsimp only
    exact h _ t ht
  · obtain rfl := Option.some.inj hs
    exact move_kept h rfl rfl rfl (fun _ _ => rfl)

theorem move_unref (h : Wakeful y) (hy : Tracked none y) (hp : p ∈ y.refs)
    (hs : y.unrefTracker p = some y') : TrackerMove y y' none := by
  obtain ⟨t, ht, rfl⟩ := Option.map_eq_some_iff.mp hs
  have hgiven : TrackerMove y { y with refs := y.refs.erase p } none := move_kept h rfl rfl rfl (fun _ _ => rfl)
  refine TrackerMove.drop hgiven ht fun hone => (h p t ht).mpr (Or.inl ?_)
  have hrefcount := (hy.live p t ht).refcount
  have hmem : 0 < y.refs.count p := List.count_pos_iff.mpr hp
  omega

theorem move_release (h : Wakeful y) (hy : Tracked none y) (hi : (slot, p) ∈ y.intents)
    (hs : y.releaseWriteIntent slot p = some y') :
    TrackerMove y y' (Parking.releaseWakes y p) := by
  obtain ⟨t, ht, rfl⟩ := Option.map_eq_some_iff.mp hs
  have hlive := hy.live p t ht
  have hholders := hlive.holders
  have hrefcount := hlive.refcount
  have hsmall := hlive.small
  have hpos : 0 < holdersOf y.intents p := List.countP_pos_iff.mpr ⟨_, hi, by simp⟩
  have hsub : fetchSub32 t.holders = t.holders - 1 := fetchSub32_of_pos (by omega) (by omega)
  rw [Parking.releaseWakes, ht]
  simp only [Option.any_some, decide_eq_true_eq]
  split_ifs with hlast
  · -- the lock that is stored over is the tracker's own
    refine TrackerMove.drop ?_ (put_heap ..) (fun _ => rfl)
    refine move_put { t with holders := fetchSub32 t.holders, woken := true } h ht ?_ ?_ (Tracker.ident_counts ..)
      (by simp) (fun q hq => (Option.some.inj hq).symm) ?_ (fun q v _ _ => ?_)
      (fun s hs => ?_)
    · rw [put, casSettled_heap]
    · rw [casSettled_eq]
      rfl
    · refine iff_of_true rfl (Or.inl ?_)
      simp only [hsub]
      omega
    · rw [casSettled_eq]
      rfl
    · rw [put, casSettled_slots]
      split_ifs with hslot
      · obtain ⟨rfl, hword⟩ := hslot
        right
        rw [show y.slots s = _ from hword, vtDecodeLock_encode hlive.address]
      · exact Or.inl rfl
  · refine TrackerMove.drop ?_ (put_heap ..) (fun hone => ?_)
    · refine move_put { t with holders := fetchSub32 t.holders } h ht rfl rfl (Tracker.ident_counts ..) (by simp)
        (fun q hq => by cases hq) ?_ (fun q v _ _ => Iff.rfl)
        (fun s _ => Or.inl rfl)
      simp only [hsub]
      rw [h p t ht, or_iff_right (by omega), or_iff_right (by omega)]
      exact Iff.rfl
    · have hcount : t.refcount = 1 := hone
      omega

theorem move_cancelSlot {dbPtr i : ℕ} (h : Wakeful y) (hy : Tracked none y) (hs : cancelSlot dbPtr y i = some y') :
    TrackerMove y y' (Parking.cancelWakes y dbPtr i) := by
  rw [cancelSlot] at hs
  simp only [Parking.cancelWakes]
  split_ifs at hs with hlock
  · obtain ⟨t, ht, rfl⟩ := Option.map_eq_some_iff.mp hs
    simp only [hlock, ht, Option.any_some, decide_eq_true_eq, true_and]
    split_ifs with hdb
    · refine move_put { t with woken := true } h ht ?_ ?_ (Tracker.ident_counts ..) (by simp) (fun q hq =>
        (Option.some.inj hq).symm) ?_ (fun q v hne hv => ?_)
        (fun s hs => ?_)
      · rw [put, casSettled_heap]
      · rw [casSettled_eq]
        rfl
      · simp
      · change v.serial ∈ t.serial :: y.cancelled ↔ _
        rw [List.mem_cons]
        exact or_iff_right fun heq => hne (hy.apart q _ v t hv ht heq)
      · rw [put, casSettled_slots]
        split_ifs with hslot
        · exact Or.inr (by rw [hslot.1])
        · exact Or.inl rfl
    · exact move_kept h rfl rfl rfl (fun _ _ => rfl)
  · obtain rfl := Option.some.inj hs
    simp only [hlock, Bool.false_eq_true, false_and, if_false]
    exact move_kept h rfl rfl rfl (fun _ _ => rfl)

/-- The other operations leave the trackers alone. -/
theorem move_step (h : Wakeful y) (hy : Tracked none y) (hroom : y.HasRoom a) (hs : y.step a = some y')
    (hrelease : ∀ slot p, a ≠ .release slot p) (hcancel : ∀ dbPtr, a ≠ .cancel dbPtr) : TrackerMove y y' none := by
  have hslots : ∀ s, vtIsLock (y.slots s) = true → y'.slots s = y.slots s := by
    intro s hlock
    by_contra hne
    obtain ⟨t, -, ⟨rfl, -⟩ | ⟨rfl, -⟩⟩ := (careful_step hy hs).overwritten s hlock hne
    · exact hrelease _ _ rfl
    · exact hcancel _ rfl
  cases a with
  | lock slot dbPtr address =>
    rw [TrackerTable.step] at hs
    split_ifs at hs with hslot
    exact move_lock h hy hslot hroom hs
  | release slot p => exact absurd rfl (hrelease slot p)
  | cancel dbPtr => exact absurd rfl (hcancel dbPtr)
  | ref slot =>
    rw [TrackerTable.step] at hs
    split_ifs at hs
    exact move_ref h hs
  | unref p =>
    rw [TrackerTable.step] at hs
    split_ifs at hs with hp
    exact move_unref h hy hp hs
  | populate slot newVersion =>
    rw [TrackerTable.step] at hs
    split_ifs at hs
    obtain rfl := Option.some.inj hs
    refine move_kept h ?_ ?_ ?_ hslots
    all_goals
      rw [populateVersion]
      split_ifs
      all_goals rfl
  | populateTurn c spurious =>
    rw [TrackerTable.step] at hs
    split_ifs at hs
    obtain rfl := Option.some.inj hs
    refine move_kept h ?_ ?_ ?_ hslots
    all_goals
      rw [TrackerTable.populateTurn]
      split_ifs
      all_goals rfl
  | populateIfUnchanged slot observed newVersion =>
    rw [TrackerTable.step] at hs
    split_ifs at hs
    obtain rfl := Option.some.inj hs
    refine move_kept h ?_ ?_ ?_ hslots
    all_goals
      rw [populateVersionIfUnchanged]
      split_ifs
      all_goals rfl
  | settleAll =>
    obtain rfl := Option.some.inj hs
    exact move_kept h rfl rfl rfl hslots
  | settleTurn c =>
    rw [TrackerTable.step] at hs
    split_ifs at hs
    obtain rfl := Option.some.inj hs
    refine move_kept h ?_ ?_ ?_ hslots
    all_goals
      rw [TrackerTable.settleTurn]
      split_ifs
      · split
        · rfl
        · split_ifs
          all_goals rfl
      · rfl

end Moves

section Cancelled
variable {dbPtr i : ℕ} {z z' : TrackerTable}

/-- The slot is not locked by a tracker of the database. -/
def FreeOf (dbPtr : ℕ) (z : TrackerTable) (s : ℕ) : Prop :=
  vtIsLock (z.slots s) = true → ∀ t, z.heap (vtDecodeLock (z.slots s)) = some t → t.dbPtr ≠ dbPtr

theorem freeOf_cancelSlot (hs : cancelSlot dbPtr z i = some z') :
    FreeOf dbPtr z' i ∧ ∀ s, FreeOf dbPtr z s → FreeOf dbPtr z' s := by
  rw [cancelSlot] at hs
  split_ifs at hs with hlock
  · obtain ⟨t, ht, rfl⟩ := Option.map_eq_some_iff.mp hs
    split_ifs with hdb
    · rw [vtEncodeLock_decode hlock]
      have hsettled : vtIsLock ((z.casSettled i (z.slots i)).slots i) = false := by
        rw [casSettled_slots, if_pos ⟨rfl, rfl⟩]
        exact vtIsLock_settled _
      refine ⟨fun hlocked => absurd (hsettled.symm.trans hlocked) Bool.false_ne_true, fun s hfree hlocked u hu => ?_⟩
      by_cases hsi : s = i
      · subst hsi
        exact absurd (hsettled.symm.trans hlocked) Bool.false_ne_true
      · have hslot : (z.casSettled i (z.slots i)).slots s = z.slots s := by
          rw [casSettled_slots, if_neg fun hc => hsi hc.1]
        change Function.update (z.casSettled i (z.slots i)).heap _ _
          (vtDecodeLock ((z.casSettled i (z.slots i)).slots s)) = some u at hu
        change vtIsLock ((z.casSettled i (z.slots i)).slots s) = true at hlocked
        rw [hslot] at hlocked hu
        by_cases hp : vtDecodeLock (z.slots s) = vtDecodeLock (z.slots i)
        · exact absurd hdb (hfree hlocked t (by rw [hp]; exact ht))
        · rw [Function.update_of_ne hp, casSettled_heap] at hu
          exact hfree hlocked u hu
    · refine ⟨fun _ u hu => ?_, fun s hfree => hfree⟩
      obtain rfl := Option.some.inj (ht.symm.trans hu)
      exact hdb
  · obtain rfl := Option.some.inj hs
    exact ⟨fun hlocked => absurd hlocked hlock, fun s hfree => hfree⟩

theorem cancelSlot_size (hs : cancelSlot dbPtr z i = some z') : z'.size = z.size := by
  rw [cancelSlot] at hs
  split_ifs at hs
  · obtain ⟨t, -, rfl⟩ := Option.map_eq_some_iff.mp hs
    split_ifs
    · rw [casSettled_eq]
      rfl
    · rfl
  · obtain rfl := Option.some.inj hs
    rfl

theorem cancelForDB_size (hs : y.cancelForDB dbPtr = some y') : y'.size = y.size := by
  have hstep : ∀ (z : TrackerTable) (i : ℕ) (z' : TrackerTable), z.size = y.size →
      cancelSlot dbPtr z i = some z' → z'.size = y.size :=
    fun z i z' hz hs => (cancelSlot_size hs).trans hz
  exact Runs.foldlM_preserves hstep rfl hs

theorem freeOf_cancelForDB (hs : y.cancelForDB dbPtr = some y') {s : ℕ} (hsize : s < y.size) : FreeOf dbPtr y' s := by
  have hloop : ∀ (is : List ℕ) (z : TrackerTable), is.foldlM (cancelSlot dbPtr) z = some y' →
      s ∈ is ∨ FreeOf dbPtr z s → FreeOf dbPtr y' s := by
    intro is
    induction is with
    | nil =>
      intro z hrun hleft
      obtain rfl := Option.some.inj hrun
      exact hleft.resolve_left List.not_mem_nil
    | cons i is ih =>
      intro z hrun hleft
      rw [List.foldlM_cons] at hrun
      obtain ⟨z', hz', hrest⟩ := Option.bind_eq_some_iff.mp hrun
      obtain ⟨hfree, hkeep⟩ := freeOf_cancelSlot hz'
      refine ih z' hrest ?_
      rcases hleft with hmem | hdone
      · rcases List.mem_cons.mp hmem with rfl | hmem
        · exact Or.inr hfree
        · exact Or.inl hmem
      · exact Or.inr (hkeep s hdone)
  exact hloop _ y hs (Or.inl (List.mem_range.mpr hsize))

end Cancelled

end TrackerTable

namespace Parking
variable {x x' : Parking} {y' : TrackerTable} {w : Option ℕ} {p : ℕ} {t : Tracker}

open TrackerTable

/-- The callbacks that wait are those of the trackers that sleep. -/
structure Queued (x : Parking) : Prop where
  tracked : Tracked none x.table
  wakeful : Wakeful x.table
  placed : TrackerTable.Placed x.table
  asleep : ∀ p t, x.table.heap p = some t → t.woken = true → x.wakeCallbacks p = []
  dead : ∀ p, x.table.heap p = none → x.wakeCallbacks p = []
  known : ∀ p t, x.table.heap p = some t → ∀ cb ∈ x.wakeCallbacks p, (cb, t.serial) ∈ x.registered
  ids : (x.registered.map Prod.fst).Nodup
  fresh : ∀ r ∈ x.registered, r.1 < x.nextCallback
  queuedOnce : ∀ p, (x.wakeCallbacks p).Nodup
  invokedOnce : x.invoked.Nodup
  apart : ∀ p, ∀ cb ∈ x.wakeCallbacks p, cb ∉ x.invoked
  invoked : ∀ cb ∈ x.invoked, cb ∈ x.registered.map Prod.fst
  pending : ∀ r ∈ x.registered, r.1 ∈ x.invoked ∨ ∃ p t, x.table.heap p = some t ∧ t.serial = r.2 ∧
    r.1 ∈ x.wakeCallbacks p

section Moves

theorem wakeIf_queue (x : Parking) (w : Option ℕ) (p : ℕ) :
    (x.wakeIf w).wakeCallbacks p = if w = some p then [] else x.wakeCallbacks p := by
  rcases w with _ | q
  · rfl
  · by_cases hp : p = q
    · subst hp
      rw [if_pos rfl]
      exact Function.update_self ..
    · rw [if_neg fun h => hp (Option.some.inj h).symm]
      exact Function.update_of_ne hp ..

theorem mem_wakeIf_invoked {cb : ℕ} :
    cb ∈ (x.wakeIf w).invoked ↔ cb ∈ x.invoked ∨ ∃ p, w = some p ∧ cb ∈ x.wakeCallbacks p := by
  rcases w with _ | q
  · simp [wakeIf]
  · simp [wakeIf, wake]

theorem wakeIf_registered (x : Parking) (w : Option ℕ) :
    (x.wakeIf w).registered = x.registered ∧ (x.wakeIf w).nextCallback = x.nextCallback := by
  rcases w with _ | q
  · exact ⟨rfl, rfl⟩
  · exact ⟨rfl, rfl⟩

/-- Two trackers have no callback in common. -/
theorem Queued.disjoint (h : Queued x) {q cb : ℕ} (hp : cb ∈ x.wakeCallbacks p)
    (hq : cb ∈ x.wakeCallbacks q) : p = q := by
  have hlive : ∀ {p}, cb ∈ x.wakeCallbacks p → ∃ t, x.table.heap p = some t := by
    intro p hp
    rcases hheap : x.table.heap p with _ | t
    · rw [h.dead p hheap] at hp
      cases hp
    · exact ⟨t, rfl⟩
  obtain ⟨t, ht⟩ := hlive hp
  obtain ⟨u, hu⟩ := hlive hq
  have hsame := List.inj_on_of_nodup_map h.ids (h.known p t ht cb hp) (h.known q u hu cb hq) rfl
  exact h.tracked.apart p q t u ht hu (Prod.mk.inj hsame).2

/-- An operation calls what is queued with the tracker that it wakes. -/
theorem Queued.move (h : Queued x) (hmove : TrackerMove x.table y' w) (hy : Tracked none y') :
    Queued { x.wakeIf w with table := y' } := by
  obtain ⟨hregistered, hnext⟩ := wakeIf_registered x w
  have hsub : ∀ p, ∀ cb ∈ (x.wakeIf w).wakeCallbacks p, w ≠ some p ∧ cb ∈ x.wakeCallbacks p := by
    intro p cb hcb
    rw [wakeIf_queue] at hcb
    split_ifs at hcb with hw
    · cases hcb
    · exact ⟨hw, hcb⟩
  have hempty : ∀ p, w = some p ∨ x.wakeCallbacks p = [] → (x.wakeIf w).wakeCallbacks p = [] := by
    intro p hp
    rw [wakeIf_queue]
    split_ifs with hw
    · rfl
    · exact hp.resolve_left hw
  refine ⟨hy, hmove.wakeful, h.placed.move h.tracked hmove, fun p t' ht' hwoken => ?_, fun p hnone => ?_,
    fun p t' ht' cb hcb => ?_, hregistered ▸ h.ids, hregistered ▸ hnext ▸ h.fresh,
    fun p => ?_, ?_, fun p cb hcb => ?_, fun cb hcb => ?_, fun r hr => ?_⟩
  · refine hempty p ?_
    rcases hmove.back ht' with ⟨t, ht, -, heq⟩ | ⟨hnone, -⟩
    · rw [hwoken, eq_comm, Bool.or_eq_true, decide_eq_true_eq] at heq
      exact heq.symm.imp_right (h.asleep p t ht)
    · exact Or.inr (h.dead p hnone)
  · refine hempty p ?_
    rcases hheap : x.table.heap p with _ | t
    · exact Or.inr (h.dead p hheap)
    · rcases hmove.alive p t hheap with ⟨t', ht', -⟩ | ⟨-, hdone⟩
      · rw [show y'.heap p = none from hnone] at ht'
        cases ht'
      · exact hdone.symm.imp_right (h.asleep p t hheap)
  · obtain ⟨-, hold⟩ := hsub p cb hcb
    change (cb, t'.serial) ∈ (x.wakeIf w).registered
    rw [hregistered]
    rcases hmove.back ht' with ⟨t, ht, hident, -⟩ | ⟨hnone, -⟩
    · rw [(Tracker.ident_inj hident).1]
      exact h.known p t ht cb hold
    · rw [h.dead p hnone] at hold
      cases hold
  · change ((x.wakeIf w).wakeCallbacks p).Nodup
    rw [wakeIf_queue]
    split_ifs
    · exact List.nodup_nil
    · exact h.queuedOnce p
  · rcases w with _ | q
    · exact h.invokedOnce
    · exact List.nodup_append.mpr ⟨h.invokedOnce, h.queuedOnce q, fun cb hcb cb' hcb' heq =>
        h.apart q cb' hcb' (heq ▸ hcb)⟩
  · obtain ⟨hne, hold⟩ := hsub p cb hcb
    intro hinvoked
    rcases mem_wakeIf_invoked.mp hinvoked with hbefore | ⟨q, hq, hcb'⟩
    · exact h.apart p cb hold hbefore
    · exact hne (by rw [hq, h.disjoint hcb' hold])
  · change cb ∈ (x.wakeIf w).registered.map Prod.fst
    rw [hregistered]
    rcases mem_wakeIf_invoked.mp hcb with hbefore | ⟨q, -, hcb'⟩
    · exact h.invoked cb hbefore
    · rcases hheap : x.table.heap q with _ | t
      · rw [h.dead q hheap] at hcb'
        cases hcb'
      · exact List.mem_map.mpr ⟨_, h.known q t hheap cb hcb', rfl⟩
  · change r ∈ (x.wakeIf w).registered at hr
    rw [hregistered] at hr
    rcases h.pending r hr with hbefore | ⟨p, t, ht, hserial, hcb⟩
    · exact Or.inl (mem_wakeIf_invoked.mpr (Or.inl hbefore))
    · by_cases hw : w = some p
      · exact Or.inl (mem_wakeIf_invoked.mpr (Or.inr ⟨p, hw, hcb⟩))
      · right
        rcases hmove.alive p t ht with ⟨t', ht', hident, -⟩ | ⟨-, hdone⟩
        · refine ⟨p, t', ht', (Tracker.ident_inj hident).1.trans hserial, ?_⟩
          change r.1 ∈ (x.wakeIf w).wakeCallbacks p
          rw [wakeIf_queue, if_neg hw]
          exact hcb
        · rw [h.asleep p t ht (hdone.resolve_right hw)] at hcb
          cases hcb

theorem Queued.cancelSlot {dbPtr i : ℕ} (h : Queued x) (hs : Parking.cancelSlot dbPtr x i = some x') : Queued x' := by
  obtain ⟨y', hy', rfl⟩ := Option.map_eq_some_iff.mp hs
  exact h.move (move_cancelSlot h.wakeful h.tracked hy') (h.tracked.cancelSlot hy')

theorem Queued.tableStep {a : TrackerAction} (h : Queued x) (hroom : x.table.HasRoom a)
    (hs : x.tableStep a = some x') : Queued x' := by
  have hother : ∀ y', x.table.step a = some y' → (∀ slot p, a ≠ .release slot p) → (∀ dbPtr, a ≠ .cancel dbPtr) →
      Queued { x with table := y' } :=
    fun y' hy' hrelease hcancel => h.move (w := none) (move_step h.wakeful h.tracked hroom hy' hrelease hcancel)
      (h.tracked.step hroom hy')
  cases a with
  | lock slot dbPtr address =>
    obtain ⟨y', hy', rfl⟩ := Option.map_eq_some_iff.mp hs
    have hqueued := hother y' hy' (fun _ _ ha => by cases ha) (fun _ ha => by cases ha)
    split_ifs with hlock
    · exact hqueued
    · -- a new tracker gets an address where nothing lives, and so nothing waits
      have hfree : x.table.heap address = none := by
        rw [TrackerTable.step] at hy'
        split_ifs at hy'
        rw [lockSlotForWrite, if_neg hlock] at hy'
        split_ifs at hy' with hnew
        exact hnew.2
      rw [← h.dead address hfree, Function.update_eq_self]
      exact hqueued
  | release slot p =>
    obtain ⟨y', hy', rfl⟩ := Option.map_eq_some_iff.mp hs
    refine h.move ?_ (h.tracked.step hroom hy')
    rw [TrackerTable.step] at hy'
    split_ifs at hy' with hi
    exact move_release h.wakeful h.tracked hi hy'
  | cancel dbPtr => exact Runs.foldlM_preserves (fun _ _ _ hq hs => hq.cancelSlot hs) h hs
  | settleAll =>
    obtain rfl := Option.some.inj hs
    exact hother _ rfl (fun _ _ ha => by cases ha) (fun _ ha => by cases ha)
  | ref _ | unref _ | populate _ _ | populateTurn _ _ | populateIfUnchanged _ _ _ | settleTurn _ =>
    obtain ⟨y', hy', rfl⟩ := Option.map_eq_some_iff.mp hs
    exact hother y' hy' (fun _ _ ha => by cases ha) (fun _ ha => by cases ha)

/-- A callback is queued with a tracker that sleeps. -/
theorem Queued.park (h : Queued x) (ht : x.table.heap p = some t) (hwoken : t.woken = false) :
    Queued { x with
      wakeCallbacks := Function.update x.wakeCallbacks p (x.wakeCallbacks p ++ [x.nextCallback])
      nextCallback := x.nextCallback + 1
      registered := (x.nextCallback, t.serial) :: x.registered } := by
  have hnew : x.nextCallback ∉ x.registered.map Prod.fst := by
    intro hmem
    obtain ⟨r, hr, heq⟩ := List.mem_map.mp hmem
    exact absurd (h.fresh r hr) (by rw [heq]; exact lt_irrefl _)
  have hqueue : ∀ {q cb}, cb ∈ Function.update x.wakeCallbacks p (x.wakeCallbacks p ++ [x.nextCallback]) q →
      cb ∈ x.wakeCallbacks q ∨ (q = p ∧ cb = x.nextCallback) := by
    intro q cb hcb
    by_cases hq : q = p
    · subst hq
      rw [Function.update_self, List.mem_append, List.mem_singleton] at hcb
      exact hcb.imp_right fun hcb => ⟨rfl, hcb⟩
    · rw [Function.update_of_ne hq] at hcb
      exact Or.inl hcb
  have hknown : ∀ {q cb}, cb ∈ x.wakeCallbacks q → cb ∈ x.registered.map Prod.fst := by
    intro q cb hcb
    rcases hheap : x.table.heap q with _ | u
    · rw [h.dead q hheap] at hcb
      cases hcb
    · exact List.mem_map.mpr ⟨_, h.known q u hheap cb hcb, rfl⟩
  refine ⟨h.tracked, h.wakeful, h.placed, fun q u hu hw => ?_, fun q hnone => ?_, fun q u hu cb hcb => ?_,
    List.nodup_cons.mpr ⟨hnew, h.ids⟩,
    fun r hr => ?_, fun q => ?_, h.invokedOnce, fun q cb hcb => ?_,
    fun cb hcb => List.mem_cons_of_mem _ (h.invoked cb hcb), fun r hr => ?_⟩
  · have hq : q ≠ p := by
      rintro rfl
      obtain rfl := Option.some.inj (ht.symm.trans hu)
      exact absurd (hwoken.symm.trans hw) Bool.false_ne_true
    exact (Function.update_of_ne hq ..).trans (h.asleep q u hu hw)
  · have hq : q ≠ p := by
      rintro rfl
      cases ht.symm.trans hnone
    exact (Function.update_of_ne hq ..).trans (h.dead q hnone)
  · rcases hqueue hcb with hold | ⟨rfl, rfl⟩
    · exact List.mem_cons_of_mem _ (h.known q u hu cb hold)
    · obtain rfl := Option.some.inj (ht.symm.trans hu)
      exact List.mem_cons_self
  · rcases List.mem_cons.mp hr with rfl | hold
    · exact Nat.lt_succ_self _
    · exact (h.fresh r hold).trans (Nat.lt_succ_self _)
  · by_cases hq : q = p
    · subst hq
      dsimp only
      rw [Function.update_self]
      refine List.nodup_append.mpr ⟨h.queuedOnce q, List.nodup_singleton _, fun cb hcb cb' hcb' heq => ?_⟩
      rw [List.mem_singleton] at hcb'
      exact hnew (by rw [← hcb', ← heq]; exact hknown hcb)
    · dsimp only
      rw [Function.update_of_ne hq]
      exact h.queuedOnce q
  · rcases hqueue hcb with hold | ⟨-, rfl⟩
    · exact h.apart q cb hold
    · exact fun hmem => hnew (h.invoked _ hmem)
  · rcases List.mem_cons.mp hr with rfl | hold
    · exact Or.inr ⟨p, t, ht, rfl, by simp⟩
    · rcases h.pending r hold with hbefore | ⟨q, u, hu, hserial, hcb⟩
      · exact Or.inl hbefore
      · refine Or.inr ⟨q, u, hu, hserial, ?_⟩
        dsimp only
        by_cases hq : q = p
        · subst hq
          rw [Function.update_self]
          exact List.mem_append_left _ hcb
        · rw [Function.update_of_ne hq]
          exact hcb

end Moves

section Steps

/-- The room that an action needs is that of the table. -/
def HasRoom (x : Parking) : ParkAction → Prop
  | .table a => x.table.HasRoom a
  | .addWakeCallback _ => True

instance (x : Parking) : ∀ a : ParkAction, Decidable (x.HasRoom a)
  | .table a => inferInstanceAs (Decidable (x.table.HasRoom a))
  | .addWakeCallback _ => inferInstanceAs (Decidable True)

theorem Queued.step {a : ParkAction} (h : Queued x) (hroom : x.HasRoom a) (hs : x.step a = some x') : Queued x' := by
  cases a with
  | table a => exact h.tableStep hroom hs
  | addWakeCallback p =>
    rw [Parking.step] at hs
    split_ifs at hs
    obtain ⟨⟨b, z⟩, hz, rfl⟩ := Option.map_eq_some_iff.mp hs
    obtain ⟨t, ht, heq⟩ := Option.map_eq_some_iff.mp hz
    split_ifs at heq with hwoken
    · obtain ⟨-, rfl⟩ := Prod.mk.inj heq
      exact h
    · obtain ⟨-, rfl⟩ := Prod.mk.inj heq
      exact h.park ht (Bool.eq_false_iff.mpr hwoken)

theorem queued_new (size gen settleGen : ℕ) :
    Queued { table := { size, vtGlobalGen := gen, vtGlobalSettleGen := settleGen } } := by
  refine ⟨tracked_new size gen settleGen, fun p t ht => ?_, fun p t ht => ?_, fun p t ht => ?_, fun p _ => rfl,
    fun p t ht => ?_, List.nodup_nil,
    fun r hr => ?_, fun p => List.nodup_nil, List.nodup_nil, fun p cb hcb => ?_, fun cb hcb => ?_, fun r hr => ?_⟩
  · cases ht
  · cases ht
  · cases ht
  · cases ht
  · cases hr
  · cases hcb
  · cases hcb
  · cases hr

end Steps

section Delivery
variable {a : ParkAction}

/-- What holds of the callbacks in a state: none is called twice, and one that was registered is called,
or its tracker has a holder, of a database that was not cancelled. -/
structure Delivered (x : Parking) : Prop where
  ids : (x.registered.map Prod.fst).Nodup
  once : x.invoked.Nodup
  registered : ∀ cb ∈ x.invoked, cb ∈ x.registered.map Prod.fst
  waiting : ∀ r ∈ x.registered, r.1 ∉ x.invoked → ∃ p t, x.table.heap p = some t ∧ t.serial = r.2 ∧
    r.1 ∈ x.wakeCallbacks p ∧
    0 < holdersOf x.table.intents p ∧ t.serial ∉ x.table.cancelled

/-- What a step does with the callbacks. -/
structure Timely (x : Parking) (a : ParkAction) (x' : Parking) : Prop where
  accepted : ∀ p t, a = .addWakeCallback p → x.table.heap p = some t → (x.addWakeCallback p).map Prod.fst = some true →
    x'.registered = (x.nextCallback, t.serial) :: x.registered
  refused : ∀ p t, a = .addWakeCallback p → x.table.heap p = some t → (x.addWakeCallback p).map Prod.fst = some false →
    holdersOf x.table.intents p = 0 ∨ t.serial ∈ x.table.cancelled
  woken : ∀ p t, x.table.heap p = some t →
    holdersOf x'.table.intents p = 0 ∨ t.serial ∈ x'.table.cancelled ∨ a = .table (.cancel t.dbPtr) →
    ∀ cb ∈ x.wakeCallbacks p, cb ∈ x'.invoked
  deleted : ∀ p t, x.table.heap p = some t → x'.table.heap p = none → x'.wakeCallbacks p = [] ∧
    ∀ cb ∈ x.wakeCallbacks p, cb ∈ x'.invoked
  grow : x.registered ⊆ x'.registered ∧ x.invoked ⊆ x'.invoked

theorem Queued.delivered (h : Queued x) : Delivered x := by
  refine ⟨h.ids, h.invokedOnce, h.invoked, fun r hr hnot => ?_⟩
  obtain ⟨p, t, ht, hserial, hcb⟩ := (h.pending r hr).resolve_left hnot
  have hsleeps : ¬ t.woken = true := by
    intro hwoken
    rw [h.asleep p t ht hwoken] at hcb
    cases hcb
  rw [h.wakeful p t ht, not_or, (h.tracked.live p t ht).holders] at hsleeps
  exact ⟨p, t, ht, hserial, hcb, Nat.pos_of_ne_zero hsleeps.1, hsleeps.2⟩

theorem cancelSlot_table {dbPtr i : ℕ} (hs : Parking.cancelSlot dbPtr x i = some x') :
    TrackerTable.cancelSlot dbPtr x.table i = some x'.table := by
  obtain ⟨y', hy', rfl⟩ := Option.map_eq_some_iff.mp hs
  exact hy'

theorem cancelForDB_table {dbPtr : ℕ} (hs : x.cancelForDB dbPtr = some x') :
    x.table.cancelForDB dbPtr = some x'.table :=
  Runs.foldlM_simulates Parking.table (fun _ _ _ hstep => cancelSlot_table hstep) hs

/-- The table goes its own way. -/
theorem tableStep_table {a : TrackerAction} (hs : x.tableStep a = some x') : x.table.step a = some x'.table := by
  cases a with
  | lock slot dbPtr address =>
    obtain ⟨y', hy', rfl⟩ := Option.map_eq_some_iff.mp hs
    rw [hy']
    split_ifs
    all_goals rfl
  | cancel dbPtr => exact cancelForDB_table hs
  | settleAll =>
    obtain rfl := Option.some.inj hs
    rfl
  | release _ _ | ref _ | unref _ | populate _ _ | populateTurn _ _ | populateIfUnchanged _ _ _ | settleTurn _ =>
    obtain ⟨y', hy', rfl⟩ := Option.map_eq_some_iff.mp hs
    exact hy'

/-- A tracker that is at its address after a step as before is the same one. -/
theorem Queued.same {a : TrackerAction} (h : Queued x) (hroom : x.table.HasRoom a)
    (hs : x.table.step a = some y') (ht : x.table.heap p = some t) {t' : Tracker}
    (ht' : y'.heap p = some t') : t'.serial = t.serial ∧ t'.dbPtr = t.dbPtr := by
  have hmove : ∀ {w}, TrackerMove x.table y' w → t'.serial = t.serial ∧ t'.dbPtr = t.dbPtr := by
    intro w hmove
    rcases hmove.back ht' with ⟨u, hu, hident, -⟩ | ⟨hnone, -⟩
    · obtain rfl := Option.some.inj (ht.symm.trans hu)
      obtain ⟨hserial, hdb, -⟩ := Tracker.ident_inj hident
      exact ⟨hserial, hdb⟩
    · cases ht.symm.trans hnone
  by_cases hrelease : ∃ slot p, a = .release slot p
  · obtain ⟨slot, q, rfl⟩ := hrelease
    rw [TrackerTable.step] at hs
    split_ifs at hs with hi
    exact hmove (move_release h.wakeful h.tracked hi hs)
  · by_cases hcancel : ∃ dbPtr, a = .cancel dbPtr
    · obtain ⟨dbPtr, rfl⟩ := hcancel
      have hkept := (Cancelling.cancelForDB hs).heap p
      rw [ht, ht'] at hkept
      exact Prod.mk.inj (Option.some.inj hkept)
    · exact hmove (move_step h.wakeful h.tracked hroom hs (fun slot p ha => hrelease ⟨slot, p, ha⟩)
        fun dbPtr ha => hcancel ⟨dbPtr, ha⟩)

theorem wakeIf_invoked (x : Parking) (w : Option ℕ) : x.invoked ⊆ (x.wakeIf w).invoked :=
  fun _ hcb => mem_wakeIf_invoked.mpr (Or.inl hcb)

/-- The table registers nothing, and forgets no call. -/
theorem tableStep_grow {a : TrackerAction} (hs : x.tableStep a = some x') :
    x'.registered = x.registered ∧ x.invoked ⊆ x'.invoked := by
  cases a with
  | lock slot dbPtr address =>
    obtain ⟨y', -, rfl⟩ := Option.map_eq_some_iff.mp hs
    split_ifs
    all_goals exact ⟨rfl, List.Subset.refl _⟩
  | release slot p =>
    obtain ⟨y', -, rfl⟩ := Option.map_eq_some_iff.mp hs
    exact ⟨(wakeIf_registered x _).1, wakeIf_invoked x _⟩
  | cancel dbPtr =>
    have hstep : ∀ z i z', z.registered = x.registered ∧ x.invoked ⊆ z.invoked →
      Parking.cancelSlot dbPtr z i = some z' →
        z'.registered = x.registered ∧ x.invoked ⊆ z'.invoked := by
      intro z i z' hz hs
      obtain ⟨y', -, rfl⟩ := Option.map_eq_some_iff.mp hs
      exact ⟨(wakeIf_registered z _).1.trans hz.1, fun cb hcb => wakeIf_invoked z _ (hz.2 hcb)⟩
    exact Runs.foldlM_preserves hstep ⟨rfl, List.Subset.refl _⟩ hs
  | settleAll =>
    obtain rfl := Option.some.inj hs
    exact ⟨rfl, List.Subset.refl _⟩
  | ref _ | unref _ | populate _ _ | populateTurn _ _ | populateIfUnchanged _ _ _ | settleTurn _ =>
    obtain ⟨y', -, rfl⟩ := Option.map_eq_some_iff.mp hs
    exact ⟨rfl, List.Subset.refl _⟩

/-- A callback that is still queued after a step of the table waits for a holder, of a database that
this step did not cancel. -/
theorem Queued.still {a : TrackerAction} (h : Queued x) (hroom : x.table.HasRoom a)
    (hs : x.tableStep a = some x') (ht : x.table.heap p = some t) {cb : ℕ} (hcb : cb ∈ x.wakeCallbacks p)
    (hnot : cb ∉ x'.invoked) :
    0 < holdersOf x'.table.intents p ∧ t.serial ∉ x'.table.cancelled ∧ a ≠ .cancel t.dbPtr := by
  have hqueued := h.tableStep hroom hs
  have htable := tableStep_table hs
  have hregistered : (cb, t.serial) ∈ x'.registered := by
    rw [(tableStep_grow hs).1]
    exact h.known p t ht cb hcb
  obtain ⟨q, t', ht', hserial, hcb', hholders, huncancelled⟩ := hqueued.delivered.waiting _ hregistered hnot
  have hserial : t'.serial = t.serial := hserial
  -- the tracker was not deleted, so it is the one that the callback waits with now
  rcases hp : x'.table.heap p with _ | u
  · obtain ⟨-, -, hfreed⟩ := (careful_step h.tracked htable).deleted p t ht hp
    exact absurd hfreed (by rw [← hserial]; exact (hqueued.tracked.live q t' ht').unfreed)
  obtain ⟨hsame, hdb⟩ := h.same hroom htable ht hp
  obtain rfl := hqueued.tracked.apart p q u t' hp ht' (hsame.trans hserial.symm)
  obtain rfl := Option.some.inj (hp.symm.trans ht')
  refine ⟨hholders, by rw [← hserial]; exact huncancelled, ?_⟩
  rintro rfl
  have hsleeps : u.woken = false := by
    by_contra hwoken
    rw [hqueued.asleep p u hp (by simpa using hwoken)] at hcb'
    cases hcb'
  obtain ⟨hslot, hword⟩ := hqueued.placed p u hp hsleeps
  rw [cancelForDB_size htable] at hslot
  refine freeOf_cancelForDB htable hslot (by rw [hword]; exact vtIsLock_encode _ _) u ?_ hdb
  rw [hword, vtDecodeLock_encode (hqueued.tracked.live p u hp).address]
  exact hp

theorem Queued.timely_table {a : TrackerAction} (h : Queued x) (hroom : x.table.HasRoom a)
    (hs : x.tableStep a = some x') : Timely x (.table a) x' := by
  have hgrow := tableStep_grow hs
  have hcalled : ∀ p t, x.table.heap p = some t →
      holdersOf x'.table.intents p = 0 ∨ t.serial ∈ x'.table.cancelled ∨ ParkAction.table a = .table (.cancel t.dbPtr) →
      ∀ cb ∈ x.wakeCallbacks p, cb ∈ x'.invoked := by
    intro p t ht hdone cb hcb
    by_contra hnot
    obtain ⟨hholders, huncancelled, hother⟩ := h.still hroom hs ht hcb hnot
    rcases hdone with hzero | hmem | ha
    · omega
    · exact huncancelled hmem
    · exact hother (ParkAction.table.inj ha)
  refine ⟨(fun p t ha => by cases ha), (fun p t ha => by cases ha), hcalled,
    fun p t ht hnone => ?_, by rw [hgrow.1]; exact List.Subset.refl _, hgrow.2⟩
  refine ⟨(h.tableStep hroom hs).dead p hnone, hcalled p t ht (Or.inl ?_)⟩
  exact ((careful_step h.tracked (tableStep_table hs)).deleted p t ht hnone).1

theorem Queued.timely_park (h : Queued x) (hs : x.step (.addWakeCallback p) = some x') :
    Timely x (.addWakeCallback p) x' := by
  rw [Parking.step] at hs
  split_ifs at hs
  obtain ⟨⟨b, z⟩, hz, rfl⟩ := Option.map_eq_some_iff.mp hs
  obtain ⟨t, ht, heq⟩ := Option.map_eq_some_iff.mp hz
  have htable : z.table = x.table := by
    split_ifs at heq
    all_goals
      obtain ⟨-, rfl⟩ := Prod.mk.inj heq
      rfl
  have hgrow : x.registered ⊆ z.registered ∧ z.invoked = x.invoked := by
    split_ifs at heq
    · obtain ⟨-, rfl⟩ := Prod.mk.inj heq
      exact ⟨List.Subset.refl _, rfl⟩
    · obtain ⟨-, rfl⟩ := Prod.mk.inj heq
      exact ⟨List.subset_cons_self _ _, rfl⟩
  refine ⟨fun q u ha hu haccepted => ?_, fun q u ha hu hrefused => ?_, fun q u hu hdone cb hcb => ?_,
    fun q u hu hnone => ?_, hgrow.1,
    by rw [hgrow.2]; exact List.Subset.refl _⟩
  · obtain rfl := ParkAction.addWakeCallback.inj ha
    obtain rfl := Option.some.inj (ht.symm.trans hu)
    rw [hz] at haccepted
    split_ifs at heq with hwoken
    · obtain ⟨rfl, -⟩ := Prod.mk.inj heq
      cases haccepted
    · obtain ⟨-, rfl⟩ := Prod.mk.inj heq
      rfl
  · obtain rfl := ParkAction.addWakeCallback.inj ha
    obtain rfl := Option.some.inj (ht.symm.trans hu)
    rw [hz] at hrefused
    split_ifs at heq with hwoken
    · rw [← (h.tracked.live p t ht).holders]
      exact (h.wakeful p t ht).mp hwoken
    · obtain ⟨rfl, -⟩ := Prod.mk.inj heq
      cases hrefused
  · rw [htable] at hdone
    -- what was due before was called before
    have hwoken : u.woken = true := by
      rw [h.wakeful q u hu, (h.tracked.live q u hu).holders]
      rcases hdone with hzero | hmem | ha
      · exact Or.inl hzero
      · exact Or.inr hmem
      · cases ha
    rw [h.asleep q u hu hwoken] at hcb
    cases hcb
  · rw [htable] at hnone
    cases hu.symm.trans hnone

theorem Queued.timely (h : Queued x) (hroom : x.HasRoom a) (hs : x.step a = some x') : Timely x a x' := by
  cases a with
  | table a => exact h.timely_table hroom hs
  | addWakeCallback p => exact h.timely_park hs

end Delivery

/-- In every run in which no tracker comes to `2 ^ 32` references, a callback that was registered is
called once, at the latest by the step after which its tracker has no holder or its database is
cancelled; a registration is refused only after such a step, and nothing is queued with a tracker
that is deleted. -/
theorem wakeups_delivered {size gen settleGen : ℕ} {acts : List ParkAction}
    (hok : Runs.Along step HasRoom { table := { size, vtGlobalGen := gen, vtGlobalSettleGen := settleGen } } acts) :
    Runs.Along step (fun x a => Delivered x ∧ ∀ x', x.step a = some x' → Timely x a x')
        { table := { size, vtGlobalGen := gen, vtGlobalSettleGen := settleGen } } acts ∧
      ∀ x, Runs.exec step { table := { size, vtGlobalGen := gen, vtGlobalSettleGen := settleGen } } acts = some x →
        Delivered x :=
  ⟨hok.of_invariant (fun _ _ _ h hg hs => h.step hg hs) (fun _ _ h hg =>
    ⟨h.delivered, fun _ hs => h.timely hg hs⟩) (queued_new ..),
    fun _ hrun => (Runs.exec_invariant (fun _ _ _ h hg hs => h.step hg hs) (queued_new ..) hok hrun).delivered⟩

section Sample

/-- Two commits park behind a writer, whose database is then cancelled: the second has its reference by
then and comes too late. A third parks behind a writer that releases. -/
def parkedTwice : List ParkAction :=
  [.table (.lock 0 7 64), .table (.ref 0), .addWakeCallback 64, .table (.unref 64), .table (.ref 0),
    .table (.cancel 7), .addWakeCallback 64,
    .table (.unref 64), .table (.lock 0 8 128), .table (.ref 0), .addWakeCallback 128, .table (.release 0 128),
    .table (.unref 128), .table (.release 0 64)]

theorem parked_run (n : ℕ) :
    Runs.exec step { table := { size := 1 } } (List.replicate (n + 1) (.table (.lock 0 7 64))) =
      some { table := intended n } := by
  induction n with
  | zero =>
    have hqueue : (Function.update (fun _ => []) 64 [] : ℕ → List ℕ) = fun _ => [] :=
      Function.update_eq_self 64 (fun _ => [])
    have hstep : step { table := { size := 1 } } (.table (.lock 0 7 64)) =
        some { table := intended 0, wakeCallbacks := Function.update (fun _ => []) 64 [] } := rfl
    rw [hqueue] at hstep
    exact Runs.exec_cons.mpr ⟨_, hstep, rfl⟩
  | succ n ih =>
    rw [List.replicate_succ', Runs.exec_append, ih]
    refine Runs.exec_cons.mpr ⟨{ table := intended (n + 1) }, ?_, rfl⟩
    rw [Parking.step, Parking.tableStep, intended_step]
    rfl

/-- A commit that parks behind `2 ^ 32` intents deletes the tracker when it gives its reference back. -/
theorem parked_overflow : (Runs.exec step { table := intended (2 ^ 32 - 1) } [.table (.ref 0), .addWakeCallback 64]).any
    (fun x => (x.table.heap 64).isSome ∧ (x.step (.table (.unref 64))).any fun x' => x'.table.heap 64 = none ∧
      x'.wakeCallbacks 64 ≠ []) = true := by
  decide +kernel

end Sample

theorem wakeups_delivered_twice : Delivered (Runs.final step { table := { size := 1 } } parkedTwice) ∧
    (Runs.final step { table := { size := 1 } } parkedTwice).invoked = [0, 1] :=
  ⟨(wakeups_delivered (by decide +kernel)).2 _ (Runs.exec_final step { table := { size := 1 } } parkedTwice
    (by decide +kernel)), by decide +kernel⟩

/-- After `2 ^ 32` intents on one slot the counters are at zero: the tracker goes with a callback in its
queue, which is never called. -/
theorem wakeup_lost :
    ¬ ∀ (size gen settleGen : ℕ) (acts : List ParkAction),
      Runs.Along step (fun x a => Delivered x ∧ ∀ x', x.step a = some x' → Timely x a x')
          { table := { size, vtGlobalGen := gen, vtGlobalSettleGen := settleGen } } acts ∧
        ∀ x, Runs.exec step { table := { size, vtGlobalGen := gen, vtGlobalSettleGen := settleGen } } acts = some x →
          Delivered x := by
  intro h
  obtain ⟨x, hx, hlost⟩ := (Option.any_eq_true ..).mp parked_overflow
  simp only [decide_eq_true_eq, Option.any_eq_true] at hlost
  obtain ⟨hsome, x', hx', hnone, hqueue⟩ := hlost
  obtain ⟨t, ht⟩ := Option.isSome_iff_exists.mp hsome
  have hrun : Runs.exec step { table := { size := 1 } }
      (List.replicate (2 ^ 32 - 1 + 1) (.table (.lock 0 7 64)) ++ [.table (.ref 0), .addWakeCallback 64]) = some x := by
    rw [Runs.exec_append, parked_run]
    exact hx
  have halong := (h 1 0 1 (List.replicate (2 ^ 32 - 1 + 1) (.table (.lock 0 7 64)) ++
    [.table (.ref 0), .addWakeCallback 64] ++ [.table (.unref 64)])).1
  have htimely := (halong.append hrun).2.1.2 x' hx'
  exact hqueue (htimely.deleted 64 t ht hnone).1

end Parking

end RocksdbJs
