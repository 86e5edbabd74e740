import RocksdbJs.Sanity.TrackerCounts

/-! The life of a tracker. While no tracker has `2 ^ 32` references at once, a locked slot has a live
tracker, a tracker is deleted once and only when nothing refers to it, a lock goes only with the
last release of its tracker or with its database, and a tracker that went with its database leaves
the later locks of its slot alone. The counters have 32 bits and are not checked, so `2 ^ 32` intents
on one slot, as a transaction takes that writes one key as often, come to a lock that nobody holds. -/

namespace RocksdbJs
namespace TrackerTable
variable {y y' : TrackerTable} {p slot v : ℕ} {t : Tracker} {a : TrackerAction}

/-- What holds of the trackers in a state. -/
structure Sound (y : TrackerTable) : Prop where
  locked : ∀ s, vtIsLock (y.slots s) = true → ∃ t, y.heap (vtDecodeLock (y.slots s)) = some t ∧
    vtGenFromLock (y.slots s) = t.generation ∧ 1 ≤ t.holders ∧ t.serial ∉ y.cancelled
  counted : ∀ p t, y.heap p = some t → t.holders = holdersOf y.intents p ∧ t.refcount = t.holders + y.refs.count p
  alive : (∀ i ∈ y.intents, (y.heap i.2).isSome = true) ∧ ∀ p ∈ y.refs, (y.heap p).isSome = true
  freedOnce : y.freed.Nodup ∧ (∀ p t, y.heap p = some t → t.serial ∉ y.freed) ∧
    ∀ n < y.made, n ∈ y.freed ∨ ∃ p t, y.heap p = some t ∧ t.serial = n

/-- What a step does to the locks and the trackers. -/
structure Careful (y : TrackerTable) (a : TrackerAction) (y' : TrackerTable) : Prop where
  overwritten : ∀ s, vtIsLock (y.slots s) = true → y'.slots s ≠ y.slots s →
    ∃ t, y.heap (vtDecodeLock (y.slots s)) = some t ∧
    ((a = .release s (vtDecodeLock (y.slots s)) ∧ t.holders = 1) ∨ (a = .cancel t.dbPtr ∧ t.serial ∈ y'.cancelled))
  deleted : ∀ p t, y.heap p = some t → y'.heap p = none → holdersOf y'.intents p = 0 ∧
    y'.refs.count p = 0 ∧ t.serial ∈ y'.freed
  late : ∀ s p t, a = .release s p → y.heap p = some t → t.serial ∈ y.cancelled → y'.slots = y.slots
  grow : y.cancelled ⊆ y'.cancelled ∧ y.freed ⊆ y'.freed

theorem Tracked.sound (h : Tracked none y) : Sound y := by
  refine ⟨fun s hs => ?_, fun p t ht => ?_, ⟨fun i hi => ?_, fun p hp => ?_⟩, h.once,
    fun p t ht => (h.live p t ht).unfreed, h.kept⟩
  · obtain ⟨t, ht, hlocking⟩ := h.locked s hs
    exact ⟨t, ht, hlocking.generation.symm, hlocking.held, hlocking.uncancelled⟩
  · have hlive := h.live p t ht
    have hrefcount := hlive.refcount
    rw [if_neg (Option.some_ne_none p).symm, Nat.add_zero] at hrefcount
    exact ⟨hlive.holders, hrefcount⟩
  · obtain ⟨t, ht, -⟩ := h.held i hi
    exact Option.isSome_iff_exists.mpr ⟨t, ht⟩
  · exact Option.isSome_iff_exists.mpr (h.lent p hp)

section Steps

/-- A step that deletes nothing and stores over no lock. -/
theorem careful_of_keeps (hslots : ∀ s, vtIsLock (y.slots s) = true → y'.slots s = y.slots s)
    (hheap : ∀ p t, y.heap p = some t → (y'.heap p).isSome = true) (hrelease : ∀ s p, a ≠ .release s p)
    (hcancelled : y'.cancelled = y.cancelled) (hfreed : y'.freed = y.freed) : Careful y a y' := by
  refine ⟨fun s hs hne => absurd (hslots s hs) hne, fun p t ht hnone => ?_, fun s p t ha => absurd ha (hrelease s p),
    by rw [hcancelled]; exact List.Subset.refl _, by rw [hfreed]; exact List.Subset.refl _⟩
  have hsome := hheap p t ht
  rw [hnone] at hsome
  cases hsome

theorem put_isSome (y : TrackerTable) (p : ℕ) (t : Tracker) {q : ℕ} (h : (y.heap q).isSome = true) :
    ((y.put p t).heap q).isSome = true := by
  by_cases hq : q = p
  · subst hq
    rw [put_heap]
    rfl
  · rw [put_heap_ne hq]
    exact h

theorem store_of_lock (hslot : vtIsLock (y.slots slot) = false) (v : ℕ) {s : ℕ} (hs : vtIsLock (y.slots s) = true) :
    (y.store slot v).slots s = y.slots s := by
  have hne : s ≠ slot := by
    rintro rfl
    exact absurd (hslot.symm.trans hs) Bool.false_ne_true
  exact Function.update_of_ne hne ..

theorem drop_slots (y : TrackerTable) (p : ℕ) (t : Tracker) : (y.drop p t).slots = y.slots := by
  rw [drop]
  split_ifs
  all_goals rfl

theorem drop_cancelled (y : TrackerTable) (p : ℕ) (t : Tracker) : (y.drop p t).cancelled = y.cancelled := by
  rw [drop]
  split_ifs
  all_goals rfl

theorem drop_freed (y : TrackerTable) (p : ℕ) (t : Tracker) : y.freed ⊆ (y.drop p t).freed := by
  rw [drop]
  split_ifs
  · exact List.subset_cons_self _ _
  · exact List.Subset.refl _

/-- What `drop` deletes had one reference. -/
theorem drop_none {q : ℕ} {u : Tracker} (hu : y.heap q = some u) (hnone : (y.drop p t).heap q = none) :
    q = p ∧ t.refcount = 1 ∧ t.serial ∈ (y.drop p t).freed := by
  rw [drop] at hnone ⊢
  split_ifs at hnone ⊢ with hlast
  · refine ⟨?_, hlast, List.mem_cons_self⟩
    by_contra hq
    have hkept : Function.update y.heap p none q = some u := (Function.update_of_ne hq ..).trans hu
    cases hkept.symm.trans hnone
  · have hsome := put_isSome y p { t with refcount := fetchSub32 t.refcount } (q := q) (by rw [hu]; rfl)
    rw [hnone] at hsome
    cases hsome

theorem careful_lock {dbPtr address : ℕ} (hs : y.lockSlotForWrite slot dbPtr address = some y') :
    Careful y (.lock slot dbPtr address) y' := by
  rw [lockSlotForWrite] at hs
  split_ifs at hs with hlock hfree
  · obtain ⟨t, ht, rfl⟩ := Option.map_eq_some_iff.mp hs
    exact careful_of_keeps (fun s _ => rfl) (fun p t ht => put_isSome y _ _ (by rw [ht]; rfl))
      (fun _ _ ha => by cases ha) rfl rfl
  · obtain rfl := Option.some.inj hs
    have hword : vtIsLock (y.slots slot) = false := by simpa using hlock
    exact careful_of_keeps (fun s hs => store_of_lock (y := y.put ..) hword _ hs) (fun p t ht =>
      put_isSome y _ _ (by rw [ht]; rfl))
      (fun _ _ ha => by cases ha) rfl rfl

theorem drop_held (y : TrackerTable) (p : ℕ) (t : Tracker) :
    (y.drop p t).intents = y.intents ∧ (y.drop p t).refs = y.refs := by
  rw [drop]
  split_ifs
  all_goals exact ⟨rfl, rfl⟩

/-- A step that ends with a `drop` of `p`. -/
theorem careful_drop {z : TrackerTable} {left : Tracker} (ht : y.heap p = some t)
    (hsome : ∀ q u, y.heap q = some u → (z.heap q).isSome = true)
    (hsame : left.refcount = t.refcount ∧ left.serial = t.serial)
    (hzero : t.refcount = 1 → holdersOf z.intents p = 0 ∧ z.refs.count p = 0)
    (hcancelled : z.cancelled = y.cancelled) (hfreed : z.freed = y.freed)
    (hover : ∀ s, vtIsLock (y.slots s) = true → z.slots s ≠ y.slots s → a = .release s (vtDecodeLock (y.slots s)) ∧
      ∃ t, y.heap (vtDecodeLock (y.slots s)) = some t ∧ t.holders = 1)
    (hlate : ∀ s p t, a = .release s p → y.heap p = some t → t.serial ∈ y.cancelled → z.slots = y.slots) :
    Careful y a (z.drop p left) := by
  refine ⟨fun s hs hne => ?_, fun q u hu hnone => ?_, fun s q u ha hu hmem => ?_, ?_, ?_⟩
  · rw [drop_slots] at hne
    obtain ⟨ha, u, hu, hone⟩ := hover s hs hne
    exact ⟨u, hu, Or.inl ⟨ha, hone⟩⟩
  · obtain ⟨w, hw⟩ := Option.isSome_iff_exists.mp (hsome q u hu)
    obtain ⟨rfl, hone, hmem⟩ := drop_none hw hnone
    obtain rfl := Option.some.inj (ht.symm.trans hu)
    obtain ⟨hintents, hrefs⟩ := drop_held z q left
    rw [hintents, hrefs]
    obtain ⟨hh, hr⟩ := hzero (hsame.1.symm.trans hone)
    exact ⟨hh, hr, by rw [← hsame.2]; exact hmem⟩
  · rw [drop_slots]
    exact hlate s q u ha hu hmem
  · rw [drop_cancelled, hcancelled]
    exact List.Subset.refl _
  · rw [← hfreed]
    exact drop_freed z p left

theorem careful_release (h : Tracked none y) (hi : (slot, p) ∈ y.intents) (hs : y.releaseWriteIntent slot p = some y') :
    Careful y (.release slot p) y' := by
  obtain ⟨t, ht, rfl⟩ := Option.map_eq_some_iff.mp hs
  have hlive := h.live p t ht
  have hzero : t.refcount = 1 → holdersOf (y.intents.erase (slot, p)) p = 0 ∧ y.refs.count p = 0 := by
    intro hone
    have hrefcount := hlive.refcount
    have hholders := hlive.holders
    have hcount := holdersOf_erase hi p
    simp only [if_true, reduceCtorEq, if_false] at hcount hrefcount
    omega
  split_ifs with hlast
  · -- the CAS lands only where the slot still holds the lock of `p`
    have hchanged : ∀ s, ({ y with intents := y.intents.erase (slot, p) }.casSettled slot
      (vtEncodeLock p t.generation)).slots s ≠ y.slots s →
        s = slot ∧ y.slots s = vtEncodeLock p t.generation := by
      intro s hne
      rw [casSettled_slots] at hne
      split_ifs at hne with hslot
      · obtain ⟨rfl, hword⟩ := hslot
        exact ⟨rfl, hword⟩
      · exact absurd rfl hne
    refine careful_drop ht (fun q u hu => put_isSome _ p _ ?_) ⟨rfl, rfl⟩ ?_ ?_ ?_ (fun s hs hne => ?_)
      (fun s q u ha hu hmem => ?_)
    · rw [casSettled_heap, hu]
      rfl
    · rw [casSettled_eq]
      exact hzero
    · rw [casSettled_eq]
      rfl
    · rw [casSettled_eq]
      rfl
    · obtain ⟨rfl, hword⟩ := hchanged s hne
      rw [hword, vtDecodeLock_encode hlive.address]
      exact ⟨rfl, t, ht, hlast⟩
    · obtain ⟨rfl, rfl⟩ := TrackerAction.release.inj ha
      obtain rfl := Option.some.inj (ht.symm.trans hu)
      funext s
      by_contra hne
      obtain ⟨rfl, hword⟩ := hchanged s hne
      have hlock : vtIsLock (y.slots s) = true := by
        rw [hword]
        exact vtIsLock_encode _ _
      have hlocking : Locking y s t := h.locking hlock (by rw [hword, vtDecodeLock_encode hlive.address]; exact ht)
      exact hlocking.uncancelled hmem
  · refine careful_drop ht (fun q u hu => put_isSome _ p _ (by rw [hu]; rfl)) ⟨rfl, rfl⟩ hzero rfl rfl
      (fun s _ hne => absurd rfl hne)
      (fun _ _ _ _ _ _ => rfl)

theorem careful_unref (h : Tracked none y) (hp : p ∈ y.refs) (hs : y.unrefTracker p = some y') :
    Careful y (.unref p) y' := by
  obtain ⟨t, ht, rfl⟩ := Option.map_eq_some_iff.mp hs
  refine careful_drop ht (fun q u hu => by rw [hu]; rfl) ⟨rfl, rfl⟩ (fun hone => ?_) rfl rfl
    (fun s _ hne => absurd rfl hne)
    (fun _ _ _ ha => by cases ha)
  have hrefcount := (h.live p t ht).refcount
  have hholders := (h.live p t ht).holders
  have hcount : (y.refs.erase p).count p = y.refs.count p - 1 := List.count_erase_self
  have hmem : 0 < y.refs.count p := List.count_pos_iff.mpr hp
  simp only [reduceCtorEq, if_false] at hrefcount
  change holdersOf y.intents p = 0 ∧ (y.refs.erase p).count p = 0
  omega

/-- What `cancelForDB` has done when it comes to a slot. -/
structure Cancelling (dbPtr : ℕ) (y z : TrackerTable) : Prop where
  slots : ∀ s, z.slots s = y.slots s ∨ vtIsLock (z.slots s) = false ∧
    ∃ t, y.heap (vtDecodeLock (y.slots s)) = some t ∧ t.dbPtr = dbPtr ∧ t.serial ∈ z.cancelled
  heap : ∀ p, (z.heap p).map (fun t => (t.serial, t.dbPtr)) = (y.heap p).map fun t => (t.serial, t.dbPtr)
  cancelled : y.cancelled ⊆ z.cancelled
  freed : z.freed = y.freed

theorem Cancelling.cancelSlot {dbPtr i : ℕ} {z z' : TrackerTable} (h : Cancelling dbPtr y z)
    (hs : cancelSlot dbPtr z i = some z') :
    Cancelling dbPtr y z' := by
  rw [TrackerTable.cancelSlot] at hs
  split_ifs at hs with hlock
  · obtain ⟨t, ht, rfl⟩ := Option.map_eq_some_iff.mp hs
    split_ifs with hdb
    · rw [vtEncodeLock_decode hlock, casSettled_eq]
      refine ⟨fun s => ?_, fun q => ?_, fun n hn => List.mem_cons_of_mem _ (h.cancelled hn), h.freed⟩
      · change (z.casSettled i (z.slots i)).slots s = y.slots s ∨
          vtIsLock ((z.casSettled i (z.slots i)).slots s) = false ∧
          ∃ u, y.heap (vtDecodeLock (y.slots s)) = some u ∧ u.dbPtr = dbPtr ∧ u.serial ∈ t.serial :: z.cancelled
        rw [casSettled_slots]
        split_ifs with hslot
        · obtain ⟨rfl, -⟩ := hslot
          refine Or.inr ⟨vtIsLock_settled _, ?_⟩
          rcases h.slots s with hsame | ⟨hnot, -⟩
          · have hkept := h.heap (vtDecodeLock (y.slots s))
            rw [← hsame, ht] at hkept
            obtain ⟨u, hu, hdata⟩ := Option.map_eq_some_iff.mp hkept.symm
            obtain ⟨hserial, hdb'⟩ := Prod.mk.inj hdata
            exact ⟨u, by rw [← hsame]; exact hu, hdb'.trans hdb, by rw [hserial]; exact List.mem_cons_self⟩
          · exact absurd (hnot.symm.trans hlock) Bool.false_ne_true
        · rcases h.slots s with hsame | ⟨hnot, u, hu, hdb', hmem⟩
          · exact Or.inl hsame
          · exact Or.inr ⟨hnot, u, hu, hdb', List.mem_cons_of_mem _ hmem⟩
      · rw [← h.heap q]
        by_cases hq : q = vtDecodeLock (z.slots i)
        · subst hq
          rw [ht]
          change (Function.update z.heap _ _ _).map _ = _
          rw [Function.update_self]
          rfl
        · change (Function.update z.heap _ _ _).map _ = _
          rw [Function.update_of_ne hq]
    · exact h
  · obtain rfl := Option.some.inj hs
    exact h

theorem Cancelling.cancelForDB {dbPtr : ℕ} (hs : y.cancelForDB dbPtr = some y') : Cancelling dbPtr y y' :=
  Runs.foldlM_preserves (fun _ _ _ hz hs => hz.cancelSlot hs) ⟨fun _ => Or.inl rfl, fun _ => rfl,
    List.Subset.refl _, rfl⟩ hs

theorem careful_cancel {dbPtr : ℕ} (hs : y.cancelForDB dbPtr = some y') : Careful y (.cancel dbPtr) y' := by
  have h := Cancelling.cancelForDB hs
  refine ⟨fun s _ hne => ?_, fun p t ht hnone => ?_, (fun s p t ha => by cases ha), h.cancelled,
    by rw [h.freed]; exact List.Subset.refl _⟩
  · rcases h.slots s with hsame | ⟨-, t, ht, rfl, hmem⟩
    · exact absurd hsame hne
    · exact ⟨t, ht, Or.inr ⟨rfl, hmem⟩⟩
  · have hkept := h.heap p
    rw [ht, hnone] at hkept
    cases hkept

theorem careful_step (h : Tracked none y) (hs : y.step a = some y') : Careful y a y' := by
  have hstays : ∀ p t, y.heap p = some t → (y.heap p).isSome = true := fun p t ht => by rw [ht]; rfl
  cases a with
  | lock slot dbPtr address =>
    rw [TrackerTable.step] at hs
    split_ifs at hs
    exact careful_lock hs
  | release slot p =>
    rw [TrackerTable.step] at hs
    split_ifs at hs with hi
    exact careful_release h hi hs
  | ref slot =>
    rw [TrackerTable.step] at hs
    split_ifs at hs
    rw [refTrackerIfLocked] at hs
    split_ifs at hs with hlock
    · obtain ⟨t, ht, rfl⟩ := Option.map_eq_some_iff.mp hs
      exact careful_of_keeps (fun s _ => rfl) (fun p t ht => put_isSome y _ _ (hstays p t ht))
        (fun _ _ ha => by cases ha) rfl rfl
    · obtain rfl := Option.some.inj hs
      exact careful_of_keeps (fun s _ => rfl) hstays (fun _ _ ha => by cases ha) rfl rfl
  | unref p =>
    rw [TrackerTable.step] at hs
    split_ifs at hs with hp
    exact careful_unref h hp hs
  | cancel dbPtr => exact careful_cancel hs
  | populate slot newVersion =>
    rw [TrackerTable.step] at hs
    split_ifs at hs
    obtain rfl := Option.some.inj hs
    rw [populateVersion]
    split_ifs
    all_goals exact careful_of_keeps (fun s _ => rfl) hstays (fun _ _ ha => by cases ha) rfl rfl
  | populateTurn c spurious =>
    rw [TrackerTable.step] at hs
    split_ifs at hs with hc
    obtain rfl := Option.some.inj hs
    rw [TrackerTable.populateTurn]
    split_ifs with hskip hcas
    · exact careful_of_keeps (fun s _ => rfl) hstays (fun _ _ ha => by cases ha) rfl rfl
    · rw [Bool.or_eq_true, not_or, Bool.not_eq_true] at hskip
      have hword : vtIsLock (y.slots c.slot) = false := by
        rw [hcas.1]
        exact hskip.1
      exact careful_of_keeps (fun s hs => store_of_lock (y := { y with populates := y.populates.erase c }) hword _ hs)
        hstays
        (fun _ _ ha => by cases ha) rfl rfl
    · exact careful_of_keeps (fun s _ => rfl) hstays (fun _ _ ha => by cases ha) rfl rfl
  | populateIfUnchanged slot observed newVersion =>
    rw [TrackerTable.step] at hs
    split_ifs at hs
    obtain rfl := Option.some.inj hs
    rw [populateVersionIfUnchanged]
    split_ifs with hskip hcas
    · exact careful_of_keeps (fun s _ => rfl) hstays (fun _ _ ha => by cases ha) rfl rfl
    · rw [Bool.or_eq_true, Bool.or_eq_true, not_or, not_or, Bool.not_eq_true, Bool.not_eq_true] at hskip
      have hword : vtIsLock (y.slots slot) = false := by
        rw [hcas]
        exact hskip.1.2
      exact careful_of_keeps (fun s hs => store_of_lock hword _ hs) hstays (fun _ _ ha => by cases ha) rfl rfl
    · exact careful_of_keeps (fun s _ => rfl) hstays (fun _ _ ha => by cases ha) rfl rfl
  | settleAll =>
    obtain rfl := Option.some.inj hs
    exact careful_of_keeps (fun s _ => rfl) hstays (fun _ _ ha => by cases ha) rfl rfl
  | settleTurn c =>
    rw [TrackerTable.step] at hs
    split_ifs at hs with hc
    obtain rfl := Option.some.inj hs
    rw [TrackerTable.settleTurn]
    split_ifs
    · split
      next => exact careful_of_keeps (fun s _ => rfl) hstays (fun _ _ ha => by cases ha) rfl rfl
      next v hv =>
        split_ifs with hcas
        · have hword : vtIsLock (y.slots c.i) = false := by
            rw [hcas]
            exact (h.sweeps c hc).2 v hv
          exact careful_of_keeps (fun s hs => store_of_lock (y := { y with sweeps := y.sweeps.erase c }) hword _ hs)
            hstays
            (fun _ _ ha => by cases ha) rfl rfl
        · exact careful_of_keeps (fun s _ => rfl) hstays (fun _ _ ha => by cases ha) rfl rfl
    · exact careful_of_keeps (fun s _ => rfl) hstays (fun _ _ ha => by cases ha) rfl rfl

end Steps

/-- In every run in which no tracker comes to `2 ^ 32` references, the trackers are sound in every
state and every step is careful with them. -/
theorem tracker_lifecycle {size gen settleGen : ℕ} {acts : List TrackerAction}
    (hok : Runs.Along step HasRoom { size, vtGlobalGen := gen, vtGlobalSettleGen := settleGen } acts) :
    Runs.Along step (fun y a => Sound y ∧ ∀ y', y.step a = some y' → Careful y a y')
        { size, vtGlobalGen := gen, vtGlobalSettleGen := settleGen } acts ∧
      ∀ y, Runs.exec step { size, vtGlobalGen := gen, vtGlobalSettleGen := settleGen } acts = some y → Sound y :=
  ⟨hok.of_invariant (fun _ _ _ h hg hs => h.step hg hs) (fun _ _ h _ =>
    ⟨h.sound, fun _ hs => careful_step h hs⟩) (tracked_new ..),
    fun _ hrun => (Runs.exec_invariant (fun _ _ _ h hg hs => h.step hg hs) (tracked_new ..) hok hrun).sound⟩

section Sample

/-- Two databases write to one slot; the first is closed, and its late release leaves the lock of a third
writer alone, whose tracker has a parked reader. -/
def closedEarly : List TrackerAction :=
  [.lock 0 7 64, .lock 0 8 128, .cancel 7, .lock 0 8 128, .ref 0, .release 0 64, .release 0 64,
    .release 0 128, .unref 128]

/-- What `n + 1` intents on one slot leave. -/
def intended (n : ℕ) : TrackerTable :=
  { size := 1
    slots := Function.update (fun _ => 0) 0 (vtEncodeLock 64 0)
    heap := Function.update (fun _ => none) 64 (some ⟨(n + 1) % 2 ^ 32, (n + 1) % 2 ^ 32, 0, 0, 7, false, 0⟩)
    vtGlobalGen := 1
    intents := List.replicate (n + 1) (0, 64)
    made := 1 }

theorem intended_step (n : ℕ) : (intended n).step (.lock 0 7 64) = some (intended (n + 1)) := by
  have hsize : 0 < (intended n).size := Nat.one_pos
  have hword : (intended n).slots 0 = vtEncodeLock 64 0 := rfl
  have hadd : fetchAdd32 ((n + 1) % 2 ^ 32) = (n + 1 + 1) % 2 ^ 32 := by
    simp only [fetchAdd32]
    omega
  have hdecode : vtDecodeLock (vtEncodeLock 64 0) = 64 := by decide
  rw [step, if_pos hsize, lockSlotForWrite, hword, if_pos (vtIsLock_encode 64 0), hdecode]
  change some _ = some _
  simp only [intended, put, Function.update_idem, hadd]
  rfl

theorem intended_run (n : ℕ) :
    Runs.exec step { size := 1 } (List.replicate (n + 1) (.lock 0 7 64)) = some (intended n) := by
  induction n with
  | zero => rfl
  | succ n ih =>
    rw [List.replicate_succ', Runs.exec_append, ih]
    change Runs.exec step (intended n) [.lock 0 7 64] = some (intended (n + 1))
    exact Runs.exec_cons.mpr ⟨_, intended_step n, rfl⟩

end Sample

theorem tracker_lifecycle_closed : Sound (Runs.final step { size := 1 } closedEarly) :=
  (tracker_lifecycle (by decide +kernel)).2 _ (Runs.exec_final step { size := 1 } closedEarly (by decide +kernel))

/-- The last of `2 ^ 32` intents brings the counters back to zero: the slot is locked, and nobody holds
its tracker. -/
theorem intents_overflow :
    ¬ ∀ (size gen settleGen : ℕ) (acts : List TrackerAction),
      Runs.Along step (fun y a => Sound y ∧ ∀ y', y.step a = some y' → Careful y a y')
          { size, vtGlobalGen := gen, vtGlobalSettleGen := settleGen } acts ∧
        ∀ y, Runs.exec step { size, vtGlobalGen := gen, vtGlobalSettleGen := settleGen } acts = some y → Sound y := by
  intro h
  have hsound := (h 1 0 1 _).2 _ (intended_run (2 ^ 32 - 1))
  obtain ⟨t, ht, -, hheld, -⟩ := hsound.locked 0 (vtIsLock_encode 64 0)
  have hdecode : vtDecodeLock ((intended (2 ^ 32 - 1)).slots 0) = 64 := by decide
  rw [hdecode] at ht
  obtain rfl := Option.some.inj ht
  revert hheld
  decide

end TrackerTable

end RocksdbJs
