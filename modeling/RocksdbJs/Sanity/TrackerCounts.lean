import RocksdbJs.Lib.Runs
import RocksdbJs.Spec.LockTrackers

/-! The counters of the trackers. A locked slot has a live tracker with its own generation and a holder;
a live tracker is referenced by its holders and by the temporary references, and has been made once
and not deleted. `Tracked` says so of a state, or of one with a reference of `o` still to be given
back. -/

namespace RocksdbJs

section Words
variable {p gen v : ℕ}

theorem vtIsLock_iff : vtIsLock v = true ↔ VT_TAG_BIT ≤ v ∧ v < VT_TAG_BIT + VT_SETTLED_BIT := by
  rw [vtIsLock, Bool.and_eq_true, decide_eq_true_eq, decide_eq_true_eq]

theorem not_vtIsLock_iff : vtIsLock v = false ↔ ¬ (VT_TAG_BIT ≤ v ∧ v < VT_TAG_BIT + VT_SETTLED_BIT) := by
  rw [← vtIsLock_iff, Bool.not_eq_true]

theorem vtIsLock_encode (p gen : ℕ) : vtIsLock (vtEncodeLock p gen) = true := by
  rw [vtIsLock_iff]
  simp only [vtEncodeLock, VT_TAG_BIT, VT_SETTLED_BIT]
  omega

theorem vtDecodeLock_encode (hp : p < 2 ^ 48) (gen : ℕ) : vtDecodeLock (vtEncodeLock p gen) = p := by
  simp only [vtDecodeLock, vtEncodeLock, VT_TAG_BIT]
  omega

theorem vtGenFromLock_encode (p : ℕ) (hg : gen < 2 ^ 14) : vtGenFromLock (vtEncodeLock p gen) = gen := by
  simp only [vtGenFromLock, vtEncodeLock, VT_TAG_BIT]
  omega

/-- A lock word is its address and its generation. -/
theorem vtEncodeLock_decode (hv : vtIsLock v = true) : vtEncodeLock (vtDecodeLock v) (vtGenFromLock v) = v := by
  rw [vtIsLock_iff] at hv
  simp only [VT_TAG_BIT, VT_SETTLED_BIT] at hv
  simp only [vtDecodeLock, vtGenFromLock, vtEncodeLock, VT_TAG_BIT]
  omega

theorem vtIsLock_settled (gen : ℕ) : vtIsLock (vtEncodeSettled gen) = false := by
  rw [not_vtIsLock_iff]
  simp only [vtEncodeSettled, VT_TAG_BIT, VT_SETTLED_BIT]
  omega

theorem vtIsLock_version (hv : vtIsVersion v = true) : vtIsLock v = false := by
  rw [vtIsVersion, Bool.and_eq_true, decide_eq_true_eq] at hv
  rw [not_vtIsLock_iff]
  exact fun hlock => absurd hv.2 (Nat.not_lt.mpr hlock.1)

theorem fetchAdd32_of_lt {n : ℕ} (h : n + 1 < 2 ^ 32) : fetchAdd32 n = n + 1 := Nat.mod_eq_of_lt h

theorem fetchSub32_of_pos {n : ℕ} (hpos : 0 < n) (h : n < 2 ^ 32) : fetchSub32 n = n - 1 := by
  simp only [fetchSub32]
  omega

end Words

namespace TrackerTable
variable {y y' : TrackerTable} {o : Option ℕ} {p slot v : ℕ} {t t' : Tracker} {a : TrackerAction}

/-- The intents with the tracker. -/
def holdersOf (intents : List (ℕ × ℕ)) (p : ℕ) : ℕ := intents.countP fun i => decide (i.2 = p)

/-- A tracker that lives at `p`, with the references that the callers have. -/
structure Live (o : Option ℕ) (y : TrackerTable) (p : ℕ) (t : Tracker) : Prop where
  address : p < 2 ^ 48
  generation : t.generation < 2 ^ 14
  holders : t.holders = holdersOf y.intents p
  refcount : t.refcount = t.holders + y.refs.count p + if o = some p then 1 else 0
  pos : 0 < t.refcount
  small : t.refcount < 2 ^ 32
  serial : t.serial < y.made
  unfreed : t.serial ∉ y.freed

/-- What a lock word in a slot is of. -/
structure Locking (y : TrackerTable) (slot : ℕ) (t : Tracker) : Prop where
  generation : t.generation = vtGenFromLock (y.slots slot)
  slotIndex : t.slotIndex = slot
  held : 0 < t.holders
  uncancelled : t.serial ∉ y.cancelled

structure Tracked (o : Option ℕ) (y : TrackerTable) : Prop where
  locked : ∀ s, vtIsLock (y.slots s) = true → ∃ t, y.heap (vtDecodeLock (y.slots s)) = some t ∧ Locking y s t
  live : ∀ p t, y.heap p = some t → Live o y p t
  held : ∀ i ∈ y.intents, ∃ t, y.heap i.2 = some t ∧ t.slotIndex = i.1
  lent : ∀ p ∈ y.refs, ∃ t, y.heap p = some t
  apart : ∀ p p' t t', y.heap p = some t → y.heap p' = some t' → t.serial = t'.serial → p = p'
  kept : ∀ n < y.made, n ∈ y.freed ∨ ∃ p t, y.heap p = some t ∧ t.serial = n
  once : y.freed.Nodup
  freed : ∀ n ∈ y.freed, n < y.made
  cancelled : ∀ n ∈ y.cancelled, n < y.made
  populates : ∀ c ∈ y.populates, vtIsVersion c.newVersion = true
  sweeps : ∀ c ∈ y.sweeps, vtIsLock c.settledValue = false ∧ ∀ v ∈ c.v, vtIsLock v = false

section Stores

/-- A slot with a word that is no lock has nothing to say. -/
theorem Tracked.store (h : Tracked o y) (slot : ℕ) (hv : vtIsLock v = false) : Tracked o (y.store slot v) := by
  refine { h with locked := fun s hs => ?_, live := fun p t ht => { h.live p t ht with } }
  by_cases hslot : s = slot
  · subst hslot
    simp only [TrackerTable.store, Function.update_self] at hs
    exact absurd (hv.symm.trans hs) Bool.false_ne_true
  · simp only [TrackerTable.store, Function.update_of_ne hslot] at hs ⊢
    obtain ⟨t, ht, hlocking⟩ := h.locked s hs
    refine ⟨t, ht, { hlocking with generation := ?_ }⟩
    simp only [Function.update_of_ne hslot]
    exact hlocking.generation

theorem Tracked.vtNextSettleGen (h : Tracked o y) : Tracked o y.vtNextSettleGen := by
  refine { h with locked := fun s hs => ?_, live := fun p t ht => { h.live p t ht with } }
  obtain ⟨t, ht, hlocking⟩ := h.locked s hs
  exact ⟨t, ht, { hlocking with }⟩

/-- The CAS changes nothing but the slot. -/
theorem casSettled_eq (y : TrackerTable) (slot v : ℕ) :
    y.casSettled slot v = { y with slots := (y.casSettled slot v).slots,
                                   vtGlobalSettleGen := (y.vtGlobalSettleGen + 1) % 2 ^ 64 } := by
  rw [TrackerTable.casSettled]
  split_ifs
  all_goals rfl

theorem Tracked.casSettled (h : Tracked o y) (slot expected : ℕ) : Tracked o (y.casSettled slot expected) := by
  rw [TrackerTable.casSettled]
  split_ifs
  · exact (h.store slot (vtIsLock_settled _)).vtNextSettleGen
  · exact h.vtNextSettleGen

theorem casSettled_heap (y : TrackerTable) (slot v : ℕ) : (y.casSettled slot v).heap = y.heap := by rw [casSettled_eq]

theorem casSettled_intents (y : TrackerTable) (slot v : ℕ) :
    (y.casSettled slot v).intents = y.intents := by rw [casSettled_eq]

/-- The CAS changes a slot that holds the expected word, and no other. -/
theorem casSettled_slots (y : TrackerTable) (slot v s : ℕ) :
    (y.casSettled slot v).slots s = if s = slot ∧ y.slots slot = v then y.settledWord else y.slots s := by
  rw [TrackerTable.casSettled]
  by_cases hv : y.slots slot = v
  · rw [if_pos hv]
    by_cases hs : s = slot
    · subst hs
      rw [if_pos ⟨rfl, hv⟩]
      exact Function.update_self ..
    · rw [if_neg fun h => hs h.1]
      exact Function.update_of_ne hs ..
  · rw [if_neg hv, if_neg fun h => hv h.2]
    rfl

end Stores

section Trackers

theorem holdersOf_cons (i : ℕ × ℕ) (intents : List (ℕ × ℕ)) (p : ℕ) :
    holdersOf (i :: intents) p = holdersOf intents p + if i.2 = p then 1 else 0 := by
  simp only [holdersOf, List.countP_cons, decide_eq_true_eq]

theorem holdersOf_erase {intents : List (ℕ × ℕ)} {i : ℕ × ℕ} (hi : i ∈ intents) (p : ℕ) :
    holdersOf (intents.erase i) p + (if i.2 = p then 1 else 0) = holdersOf intents p := by
  rw [← holdersOf_cons]
  exact ((List.perm_cons_erase hi).countP_eq _).symm

theorem put_heap (y : TrackerTable) (p : ℕ) (t : Tracker) : (y.put p t).heap p = some t := Function.update_self ..

theorem put_heap_ne {q : ℕ} (h : q ≠ p) : (y.put p t).heap q = y.heap q := Function.update_of_ne h ..

/-- A tracker changes its counters with what its callers have in hand. -/
theorem Tracked.retrack (h : Tracked o y) (t' : Tracker) (intents : List (ℕ × ℕ)) (refs : List ℕ)
    (ht : y.heap p = some t)
    (hsame : t'.generation = t.generation ∧ t'.slotIndex = t.slotIndex ∧ t'.serial = t.serial)
    {o' : Option ℕ} (hholders : t'.holders = holdersOf intents p)
    (hrefcount : t'.refcount = t'.holders + refs.count p + if o' = some p then 1 else 0)
    (hpos : 0 < t'.refcount) (hsmall : t'.refcount < 2 ^ 32)
    (hothers : ∀ q, q ≠ p → holdersOf intents q = holdersOf y.intents q ∧ refs.count q = y.refs.count q ∧
      (o' = some q ↔ o = some q))
    (hlocked : ∀ s, vtIsLock (y.slots s) = true → vtDecodeLock (y.slots s) = p → 0 < t'.holders)
    (hheld : ∀ i ∈ intents, i ∈ y.intents ∨ i = (t.slotIndex, p)) (hlent : ∀ q ∈ refs, q ∈ y.refs ∨ q = p) :
    Tracked o' { y.put p t' with intents := intents, refs := refs } := by
  have hthere : ∀ {q u}, y.heap q = some u → ∃ u', (y.put p t').heap q = some u' ∧ u'.slotIndex = u.slotIndex ∧
      u'.serial = u.serial := by
    intro q u hu
    by_cases hq : q = p
    · subst hq
      obtain rfl := Option.some.inj (ht.symm.trans hu)
      exact ⟨t', put_heap y q t', hsame.2.1, hsame.2.2⟩
    · exact ⟨u, (put_heap_ne hq).trans hu, rfl, rfl⟩
  have hback : ∀ {q u}, (y.put p t').heap q = some u → ∃ u', y.heap q = some u' ∧ u'.serial = u.serial := by
    intro q u hu
    by_cases hq : q = p
    · subst hq
      obtain rfl := Option.some.inj ((put_heap y q t').symm.trans hu)
      exact ⟨t, ht, hsame.2.2.symm⟩
    · exact ⟨u, (put_heap_ne hq).symm.trans hu, rfl⟩
  refine { h with locked := ?_, live := ?_, held := ?_, lent := ?_, apart := ?_, kept := ?_ }
  · intro s hs
    obtain ⟨u, hu, hlocking⟩ := h.locked s hs
    by_cases hq : vtDecodeLock (y.slots s) = p
    · subst hq
      obtain rfl := Option.some.inj (ht.symm.trans hu)
      exact ⟨t', put_heap y _ t', ⟨hsame.1.trans hlocking.generation, hsame.2.1.trans hlocking.slotIndex,
        hlocked s hs rfl,
        by rw [hsame.2.2]; exact hlocking.uncancelled⟩⟩
    · exact ⟨u, (put_heap_ne hq).trans hu, { hlocking with }⟩
  · intro q u hu
    by_cases hq : q = p
    · subst hq
      obtain rfl := Option.some.inj ((put_heap y q t').symm.trans hu)
      have hlive := h.live q t ht
      exact ⟨hlive.address, by rw [hsame.1]; exact hlive.generation, hholders, hrefcount, hpos, hsmall,
        by rw [hsame.2.2]; exact hlive.serial, by rw [hsame.2.2]; exact hlive.unfreed⟩
    · have hlive := h.live q u ((put_heap_ne hq).symm.trans hu)
      obtain ⟨hh, hr, ho⟩ := hothers q hq
      refine { hlive with holders := hlive.holders.trans hh.symm, refcount := ?_ }
      rw [hlive.refcount, ← hr]
      simp only [ho]
  · intro i hi
    rcases hheld i hi with hold | rfl
    · obtain ⟨u, hu, hslot⟩ := h.held i hold
      obtain ⟨u', hu', hslot', -⟩ := hthere hu
      exact ⟨u', hu', hslot'.trans hslot⟩
    · exact ⟨t', put_heap y p t', hsame.2.1⟩
  · intro q hq
    rcases hlent q hq with hold | rfl
    · obtain ⟨u, hu⟩ := h.lent q hold
      obtain ⟨u', hu', -, -⟩ := hthere hu
      exact ⟨u', hu'⟩
    · exact ⟨t', put_heap y q t'⟩
  · intro q q' u u' hu hu' heq
    obtain ⟨w, hw, hserial⟩ := hback hu
    obtain ⟨w', hw', hserial'⟩ := hback hu'
    exact h.apart q q' w w' hw hw' (by rw [hserial, hserial', heq])
  · intro n hn
    rcases h.kept n hn with hfreed | ⟨q, u, hu, hserial⟩
    · exact Or.inl hfreed
    · obtain ⟨u', hu', -, hserial'⟩ := hthere hu
      exact Or.inr ⟨q, u', hu', hserial'.trans hserial⟩

/-- The last reference of a tracker goes, and the tracker with it. -/
theorem Tracked.free (h : Tracked (some p) y) (ht : y.heap p = some t) (hlast : t.refcount = 1) :
    Tracked none { y with heap := Function.update y.heap p none, freed := t.serial :: y.freed } := by
  have hlive := h.live p t ht
  have hcount : t.holders = 0 ∧ y.refs.count p = 0 := by
    have hrefcount := hlive.refcount
    rw [if_pos rfl] at hrefcount
    omega
  have hne : ∀ {q u}, Function.update y.heap p none q = some u → q ≠ p ∧ y.heap q = some u := by
    intro q u hu
    by_cases hq : q = p
    · subst hq
      rw [Function.update_self] at hu
      cases hu
    · rw [Function.update_of_ne hq] at hu
      exact ⟨hq, hu⟩
  have hkeep : ∀ {q u}, q ≠ p → y.heap q = some u → Function.update y.heap p none q = some u := by
    intro q u hq hu
    rw [Function.update_of_ne hq]
    exact hu
  refine { h with locked := ?_, live := ?_, held := ?_, lent := ?_, apart := ?_, kept := ?_, once := ?_, freed := ?_ }
  · intro s hs
    obtain ⟨u, hu, hlocking⟩ := h.locked s hs
    have hq : vtDecodeLock (y.slots s) ≠ p := by
      rintro rfl
      obtain rfl := Option.some.inj (ht.symm.trans hu)
      have hpos := hlocking.held
      omega
    exact ⟨u, hkeep hq hu, { hlocking with }⟩
  · intro q u hu
    obtain ⟨hq, hu⟩ := hne hu
    have hother := h.live q u hu
    refine { hother with refcount := ?_, unfreed := ?_ }
    · have hrefcount := hother.refcount
      rw [if_neg (by rintro ⟨⟩; exact hq rfl)] at hrefcount
      simpa using hrefcount
    · rw [List.mem_cons, not_or]
      exact ⟨fun heq => hq (h.apart q p u t hu ht heq), hother.unfreed⟩
  · intro i hi
    obtain ⟨u, hu, hslot⟩ := h.held i hi
    have hq : i.2 ≠ p := by
      intro heq
      have hpos : 0 < holdersOf y.intents p := List.countP_pos_iff.mpr ⟨i, hi, by simpa using heq⟩
      have hholders := hlive.holders
      omega
    exact ⟨u, hkeep hq hu, hslot⟩
  · intro q hq
    obtain ⟨u, hu⟩ := h.lent q hq
    have hne : q ≠ p := by
      rintro rfl
      have hpos : 0 < y.refs.count q := List.count_pos_iff.mpr hq
      omega
    exact ⟨u, hkeep hne hu⟩
  · intro q q' u u' hu hu' heq
    exact h.apart q q' u u' (hne hu).2 (hne hu').2 heq
  · intro n hn
    rcases h.kept n hn with hfreed | ⟨q, u, hu, hserial⟩
    · exact Or.inl (List.mem_cons_of_mem _ hfreed)
    · by_cases hq : q = p
      · subst hq
        obtain rfl := Option.some.inj (ht.symm.trans hu)
        exact Or.inl (by rw [← hserial]; exact List.mem_cons_self)
      · exact Or.inr ⟨q, u, hkeep hq hu, hserial⟩
  · exact List.nodup_cons.mpr ⟨hlive.unfreed, h.once⟩
  · intro n hn
    rcases List.mem_cons.mp hn with rfl | hold
    · exact hlive.serial
    · exact h.freed n hold

theorem Tracked.drop (h : Tracked (some p) y) (ht : y.heap p = some t) : Tracked none (y.drop p t) := by
  rw [TrackerTable.drop]
  split_ifs with hlast
  · exact h.free ht hlast
  · have hlive := h.live p t ht
    have hpos := hlive.pos
    have hsmall := hlive.small
    have hrefcount := hlive.refcount
    have hsub := fetchSub32_of_pos hpos hsmall
    rw [if_pos rfl] at hrefcount
    refine h.retrack { t with refcount := fetchSub32 t.refcount } _ _ ht ⟨rfl, rfl, rfl⟩ hlive.holders ?_ ?_ ?_ ?_ ?_
      (fun _ hi => Or.inl hi)
      (fun _ hq => Or.inl hq)
    · simp only [hsub, reduceCtorEq, if_false]
      omega
    · simp only [hsub]
      omega
    · simp only [hsub]
      omega
    · intro q hq
      refine ⟨rfl, rfl, ?_⟩
      simp [Ne.symm hq]
    · intro s hs hdecode
      obtain ⟨u, hu, hlocking⟩ := h.locked s hs
      rw [hdecode] at hu
      obtain rfl := Option.some.inj (ht.symm.trans hu)
      exact hlocking.held

/-- A holder goes; if it was the last, no slot is locked by the tracker any more. -/
theorem Tracked.leave (h : Tracked none y) (ht : y.heap p = some t) (hi : (slot, p) ∈ y.intents)
    (hlast : t.holders = 1 → ∀ s, vtIsLock (y.slots s) = true → vtDecodeLock (y.slots s) ≠ p) (woken : Bool) :
    Tracked (some p) { y.put p { t with holders := fetchSub32 t.holders,
                                        woken := woken } with intents := y.intents.erase (slot, p) } := by
  have hlive := h.live p t ht
  have hholders := hlive.holders
  have hrefcount := hlive.refcount
  have hsmall := hlive.small
  have hcount := holdersOf_erase hi p
  simp only [if_true, reduceCtorEq, if_false] at hcount hrefcount
  have hsub := fetchSub32_of_pos (n := t.holders) (by omega) (by omega)
  refine h.retrack { t with holders := fetchSub32 t.holders, woken := woken } _ y.refs ht ⟨rfl, rfl,
    rfl⟩ ?_ ?_ hlive.pos hsmall
    ?_ ?_ (fun _ hi => Or.inl (List.mem_of_mem_erase hi)) (fun _ hq => Or.inl hq)
  · simp only [hsub]
    omega
  · simp only [hsub, if_true]
    omega
  · intro q hq
    have hother := holdersOf_erase hi q
    simp only [Ne.symm hq, if_false] at hother
    exact ⟨hother, rfl, by simp [Ne.symm hq]⟩
  · intro s hs hdecode
    simp only [hsub]
    have hne : t.holders ≠ 1 := fun hone => hlast hone s hs hdecode
    omega

/-- A slot that is locked by `p` is the one of the intents with `p`. -/
theorem Tracked.slot_of_lock (h : Tracked o y) (ht : y.heap p = some t) {s : ℕ} (hs : vtIsLock (y.slots s) = true)
    (hdecode : vtDecodeLock (y.slots s) = p) : s = t.slotIndex ∧ y.slots s = vtEncodeLock p t.generation := by
  obtain ⟨u, hu, hlocking⟩ := h.locked s hs
  rw [hdecode] at hu
  obtain rfl := Option.some.inj (ht.symm.trans hu)
  refine ⟨hlocking.slotIndex.symm, ?_⟩
  rw [hlocking.generation, ← hdecode, vtEncodeLock_decode hs]

/-- A slot settled over the lock of a tracker leaves no lock of that tracker. -/
theorem Tracked.unlocked (h : Tracked o y) (ht : y.heap p = some t) {s : ℕ}
    (hs : vtIsLock ((y.casSettled t.slotIndex (vtEncodeLock p t.generation)).slots s) = true) :
    vtDecodeLock ((y.casSettled t.slotIndex (vtEncodeLock p t.generation)).slots s) ≠ p := by
  intro hdecode
  rw [casSettled_slots] at hs hdecode
  split_ifs at hs hdecode with hslot
  · exact absurd ((vtIsLock_settled _).symm.trans hs) Bool.false_ne_true
  · obtain ⟨rfl, hword⟩ := h.slot_of_lock ht hs hdecode
    exact hslot ⟨rfl, hword⟩

theorem Tracked.releaseWriteIntent (h : Tracked none y) (hi : (slot, p) ∈ y.intents)
    (hs : y.releaseWriteIntent slot p = some y') :
    Tracked none y' := by
  obtain ⟨t, ht, rfl⟩ := Option.map_eq_some_iff.mp hs
  have hindex : t.slotIndex = slot := by
    obtain ⟨u, hu, hindex⟩ := h.held _ hi
    obtain rfl := Option.some.inj (ht.symm.trans hu)
    exact hindex
  subst hindex
  split_ifs with hlast
  · -- the slot is settled first, so that no lock is left without a holder
    have hsettled := h.casSettled t.slotIndex (vtEncodeLock p t.generation)
    have hleft := hsettled.leave (t := t) (by rw [casSettled_heap]; exact ht) (by rw [casSettled_intents]; exact hi)
      (fun _ _ hs => h.unlocked ht hs) true
    have hdrop := hleft.drop (put_heap ..)
    have heq : ({ y with intents := y.intents.erase (t.slotIndex, p) }.casSettled t.slotIndex
      (vtEncodeLock p t.generation)) =
        { y.casSettled t.slotIndex (vtEncodeLock p t.generation) with
          intents := (y.casSettled t.slotIndex (vtEncodeLock p t.generation)).intents.erase (t.slotIndex, p) } := by
      rw [casSettled_intents, TrackerTable.casSettled, TrackerTable.casSettled]
      split_ifs
      all_goals rfl
    simp only [heq]
    exact hdrop
  · have hleft := h.leave ht hi (fun hone => absurd hone hlast) t.woken
    exact hleft.drop (put_heap ..)

/-- A reference to the tracker of a locked slot. -/
theorem Tracked.locking (h : Tracked o y) (hs : vtIsLock (y.slots slot) = true)
    (ht : y.heap (vtDecodeLock (y.slots slot)) = some t) :
    Locking y slot t := by
  obtain ⟨u, hu, hlocking⟩ := h.locked slot hs
  obtain rfl := Option.some.inj (ht.symm.trans hu)
  exact hlocking

theorem Tracked.refTrackerIfLocked (h : Tracked none y)
    (hroom : ∀ t ∈ y.heap (vtDecodeLock (y.slots slot)), t.refcount + 1 < 2 ^ 32)
    (hs : y.refTrackerIfLocked slot = some y') : Tracked none y' := by
  rw [TrackerTable.refTrackerIfLocked] at hs
  split_ifs at hs with hlock
  · obtain ⟨t, ht, rfl⟩ := Option.map_eq_some_iff.mp hs
    have hlive := h.live _ t ht
    have hrefcount := hlive.refcount
    have hadd := fetchAdd32_of_lt (hroom t ht)
    refine h.retrack { t with refcount := fetchAdd32 t.refcount } _ _ ht ⟨rfl, rfl, rfl⟩ hlive.holders ?_ ?_ ?_ ?_
      (fun s hs hdecode => ?_) (fun _ hi => Or.inl hi) (fun q hq => (List.mem_cons.mp hq).symm)
    · simp only [hadd, List.count_cons_self, reduceCtorEq, if_false] at hrefcount ⊢
      omega
    · simp only [hadd]
      omega
    · simp only [hadd]
      exact hroom t ht
    · intro q hq
      exact ⟨rfl, List.count_cons_of_ne hq.symm, Iff.rfl⟩
    · have hlocking : Locking y s t := h.locking hs (by rw [hdecode]; exact ht)
      exact hlocking.held
  · obtain rfl := Option.some.inj hs
    exact h

theorem Tracked.unrefTracker (h : Tracked none y) (hp : p ∈ y.refs) (hs : y.unrefTracker p = some y') :
    Tracked none y' := by
  obtain ⟨t, ht, rfl⟩ := Option.map_eq_some_iff.mp hs
  have hlive := h.live p t ht
  have hrefcount := hlive.refcount
  have hcount := List.count_erase_self (a := p) (l := y.refs)
  have hmem := List.count_pos_iff.mpr hp
  have hgiven : Tracked (some p) { y.put p t with intents := y.intents, refs := y.refs.erase p } := by
    refine h.retrack t _ _ ht ⟨rfl, rfl, rfl⟩ hlive.holders ?_ hlive.pos hlive.small ?_ ?_ (fun _ hi => Or.inl hi)
      (fun _ hq => Or.inl (List.mem_of_mem_erase hq))
    · simp only [if_true, reduceCtorEq, if_false] at hrefcount ⊢
      omega
    · intro q hq
      exact ⟨rfl, List.count_erase_of_ne hq, by simp [hq.symm]⟩
    · intro s hs hdecode
      exact (h.locking hs (by rw [hdecode]; exact ht)).held
  have hsame : y.put p t = y := by
    rw [TrackerTable.put, ← ht, Function.update_eq_self]
  rw [hsame] at hgiven
  exact hgiven.drop ht

theorem Tracked.join (h : Tracked none y) (hlock : vtIsLock (y.slots slot) = true)
    (ht : y.heap (vtDecodeLock (y.slots slot)) = some t) (hroom : t.refcount + 1 < 2 ^ 32) :
    Tracked none
      { y.put (vtDecodeLock (y.slots
        slot)) { t with holders := fetchAdd32 t.holders, refcount := fetchAdd32 t.refcount } with
      intents := (slot, vtDecodeLock (y.slots slot)) :: y.intents } := by
  have hlive := h.live _ t ht
  have hrefcount := hlive.refcount
  have hholders := hlive.holders
  have hadd := fetchAdd32_of_lt hroom
  simp only [reduceCtorEq, if_false] at hrefcount
  have hadd' := fetchAdd32_of_lt (n := t.holders) (by omega)
  refine h.retrack { t with holders := fetchAdd32 t.holders, refcount := fetchAdd32 t.refcount } _
    y.refs ht ⟨rfl, rfl, rfl⟩
    ?_ ?_ ?_ ?_ ?_ ?_ (fun i hi => ?_) (fun _ hq => Or.inl hq)
  · simp only [hadd', holdersOf_cons, if_true]
    omega
  · simp only [hadd, hadd', reduceCtorEq, if_false]
    omega
  · simp only [hadd]
    omega
  · simp only [hadd]
    exact hroom
  · intro q hq
    exact ⟨by simp [holdersOf_cons, hq.symm], rfl, Iff.rfl⟩
  · intro s _ _
    simp only [hadd']
    omega
  · rcases List.mem_cons.mp hi with rfl | hold
    · exact Or.inr (by rw [(h.locking hlock ht).slotIndex])
    · exact Or.inl hold

/-- A new tracker at an address where nothing lives. -/
theorem Tracked.install (h : Tracked none y) {address gen dbPtr gen' : ℕ} (haddress : address < 2 ^ 48)
    (hnone : y.heap address = none) (hgen : gen < 2 ^ 14) :
    Tracked none { (y.put address { generation := gen, slotIndex := slot, dbPtr := dbPtr, serial := y.made }).store slot
        (vtEncodeLock address gen) with
      vtGlobalGen := gen', intents := (slot, address) :: y.intents, made := y.made + 1 } := by
  set u : Tracker := { generation := gen, slotIndex := slot, dbPtr := dbPtr, serial := y.made }
  have hne : ∀ {q w}, y.heap q = some w → q ≠ address ∧ (y.put address u).heap q = some w := by
    intro q w hw
    have hq : q ≠ address := by
      rintro rfl
      rw [hnone] at hw
      cases hw
    exact ⟨hq, (put_heap_ne hq).trans hw⟩
  have hcases : ∀ {q w}, (y.put address u).heap q = some w → (q = address ∧ w = u) ∨
      (q ≠ address ∧ y.heap q = some w) := by
    intro q w hw
    by_cases hq : q = address
    · subst hq
      exact Or.inl ⟨rfl, (Option.some.inj ((put_heap y q u).symm.trans hw)).symm⟩
    · exact Or.inr ⟨hq, (put_heap_ne hq).symm.trans hw⟩
  have hfree : holdersOf y.intents address = 0 := by
    rw [holdersOf, List.countP_eq_zero]
    intro i hi heq
    obtain ⟨w, hw, -⟩ := h.held i hi
    exact (hne hw).1 (of_decide_eq_true heq)
  have hunlent : y.refs.count address = 0 := by
    rw [List.count_eq_zero]
    intro hmem
    obtain ⟨w, hw⟩ := h.lent _ hmem
    exact (hne hw).1 rfl
  refine ⟨?_, ?_, ?_, ?_, ?_, ?_, h.once, ?_, ?_, h.populates, h.sweeps⟩
  · intro s hs
    by_cases hslot : s = slot
    · subst hslot
      simp only [TrackerTable.store, Function.update_self] at hs ⊢
      rw [vtDecodeLock_encode haddress]
      refine ⟨u, put_heap y address u, ⟨?_, rfl, Nat.one_pos, fun hc => absurd (h.cancelled _ hc) (lt_irrefl _)⟩⟩
      simp only [Function.update_self]
      exact (vtGenFromLock_encode address hgen).symm
    · simp only [TrackerTable.store, Function.update_of_ne hslot] at hs ⊢
      obtain ⟨w, hw, hlocking⟩ := h.locked s hs
      refine ⟨w, (hne hw).2, ⟨?_, hlocking.slotIndex, hlocking.held, hlocking.uncancelled⟩⟩
      simp only [Function.update_of_ne hslot]
      exact hlocking.generation
  · intro q w hw
    rcases hcases hw with ⟨rfl, rfl⟩ | ⟨hq, hw⟩
    · refine ⟨haddress, hgen, ?_, ?_, Nat.one_pos, by norm_num [u], Nat.lt_succ_self _,
        fun hf => absurd (h.freed _ hf) (lt_irrefl _)⟩
      · simp [holdersOf_cons, hfree, u]
      · simp only [TrackerTable.store, TrackerTable.put, hunlent, u]
        simp
    · have hlive := h.live q w hw
      refine ⟨hlive.address, hlive.generation, ?_, hlive.refcount, hlive.pos, hlive.small,
        hlive.serial.trans (Nat.lt_succ_self _),
        hlive.unfreed⟩
      rw [hlive.holders, holdersOf_cons, if_neg (Ne.symm hq), Nat.add_zero]
  · intro i hi
    rcases List.mem_cons.mp hi with rfl | hold
    · exact ⟨u, put_heap y address u, rfl⟩
    · obtain ⟨w, hw, hindex⟩ := h.held i hold
      exact ⟨w, (hne hw).2, hindex⟩
  · intro q hq
    obtain ⟨w, hw⟩ := h.lent q hq
    exact ⟨w, (hne hw).2⟩
  · intro q q' w w' hw hw' heq
    rcases hcases hw with ⟨rfl, rfl⟩ | ⟨-, hw⟩
    · rcases hcases hw' with ⟨rfl, -⟩ | ⟨-, hw'⟩
      · rfl
      · exact absurd (h.live _ _ hw').serial (by rw [← heq]; exact lt_irrefl _)
    · rcases hcases hw' with ⟨-, rfl⟩ | ⟨-, hw'⟩
      · exact absurd (h.live _ _ hw).serial (by rw [heq]; exact lt_irrefl _)
      · exact h.apart q q' w w' hw hw' heq
  · intro n hn
    rcases Nat.lt_succ_iff_lt_or_eq.mp hn with hlt | rfl
    · rcases h.kept n hlt with hfreed | ⟨q, w, hw, hserial⟩
      · exact Or.inl hfreed
      · exact Or.inr ⟨q, w, (hne hw).2, hserial⟩
    · exact Or.inr ⟨address, u, put_heap y address u, rfl⟩
  · intro n hn
    exact (h.freed n hn).trans (Nat.lt_succ_self _)
  · intro n hn
    exact (h.cancelled n hn).trans (Nat.lt_succ_self _)

end Trackers

section Cancels

theorem Tracked.wake (h : Tracked none y) (ht : y.heap p = some t) :
    Tracked none (y.put p { t with woken := true }) := by
  have hlive := h.live p t ht
  refine h.retrack { t with woken := true } y.intents y.refs ht ⟨rfl, rfl, rfl⟩ hlive.holders hlive.refcount
    hlive.pos hlive.small (fun q hq => ⟨rfl, rfl, Iff.rfl⟩) (fun s hs hdecode => ?_) (fun _ hi => Or.inl hi)
      (fun _ hq => Or.inl hq)
  have hlocking : Locking y s t := h.locking hs (by rw [hdecode]; exact ht)
  exact hlocking.held

/-- A tracker that no slot is locked by may be marked. -/
theorem Tracked.mark (h : Tracked none y) (ht : y.heap p = some t)
    (hnot : ∀ s, vtIsLock (y.slots s) = true → vtDecodeLock (y.slots s) ≠ p) :
    Tracked none { y with cancelled := t.serial :: y.cancelled } := by
  refine { h with locked := ?_, live := fun p t ht => { h.live p t ht with }, cancelled := ?_ }
  · intro s hs
    obtain ⟨u, hu, hlocking⟩ := h.locked s hs
    refine ⟨u, hu, { hlocking with uncancelled := ?_ }⟩
    rw [List.mem_cons, not_or]
    exact ⟨fun heq => hnot s hs (h.apart _ p u t hu ht heq), hlocking.uncancelled⟩
  · intro n hn
    rcases List.mem_cons.mp hn with rfl | hold
    · exact (h.live p t ht).serial
    · exact h.cancelled n hold

theorem Tracked.cancelSlot {dbPtr i : ℕ} (h : Tracked none y) (hs : cancelSlot dbPtr y i = some y') :
    Tracked none y' := by
  rw [TrackerTable.cancelSlot] at hs
  split_ifs at hs with hlock
  · obtain ⟨t, ht, rfl⟩ := Option.map_eq_some_iff.mp hs
    split_ifs with hdb
    · have hlocking := h.locking hlock ht
      rw [← hlocking.generation]
      obtain rfl := hlocking.slotIndex
      have hsettled := h.casSettled t.slotIndex (vtEncodeLock (vtDecodeLock (y.slots t.slotIndex)) t.generation)
      have hmarked := hsettled.mark (by rw [casSettled_heap]; exact ht) fun s hs => h.unlocked ht hs
      have hwoken := hmarked.wake (by rw [← casSettled_heap] at ht; exact ht)
      have hcancelled : (y.casSettled t.slotIndex (vtEncodeLock (vtDecodeLock (y.slots t.slotIndex))
          t.generation)).cancelled = y.cancelled := by
        rw [casSettled_eq]
      rw [← hcancelled]
      exact hwoken
    · exact h
  · obtain rfl := Option.some.inj hs
    exact h

theorem Tracked.cancelForDB {dbPtr : ℕ} (h : Tracked none y) (hs : y.cancelForDB dbPtr = some y') : Tracked none y' :=
  Runs.foldlM_preserves (fun _ _ _ hz hs => hz.cancelSlot hs) h hs

end Cancels

section Steps

/-- The tracker that a `lock` or a `ref` finds in its slot has a reference left to give. -/
def HasRoom (y : TrackerTable) : TrackerAction → Prop
  | .lock slot _ _ | .ref slot => ∀ t ∈ y.heap (vtDecodeLock (y.slots slot)), t.refcount + 1 < 2 ^ 32
  | _ => True

instance (y : TrackerTable) : ∀ a : TrackerAction, Decidable (y.HasRoom a)
  | .lock slot _ _ | .ref slot =>
    inferInstanceAs (Decidable (∀ t ∈ y.heap (vtDecodeLock (y.slots slot)), t.refcount + 1 < 2 ^ 32))
  | .release _ _ | .unref _ | .cancel _ | .populate _ _ | .populateTurn _ _ | .populateIfUnchanged _ _ _ | .settleAll
  | .settleTurn _ =>
    inferInstanceAs (Decidable True)

/-- The calls that a lock-free thread is at may change. -/
theorem Tracked.calls (h : Tracked none y) {populates : List PopulateCall} {sweeps : List SettleSweep}
    (hpopulates : ∀ c ∈ populates, vtIsVersion c.newVersion = true)
    (hsweeps : ∀ c ∈ sweeps, vtIsLock c.settledValue = false ∧ ∀ v ∈ c.v, vtIsLock v = false) :
    Tracked none { y with populates := populates, sweeps := sweeps } := by
  refine { h with locked := fun s hs => ?_, live := fun p t ht => { h.live p t ht with },
                  populates := hpopulates, sweeps := hsweeps }
  obtain ⟨t, ht, hlocking⟩ := h.locked s hs
  exact ⟨t, ht, { hlocking with }⟩

theorem Tracked.lockSlotForWrite {dbPtr address : ℕ} (h : Tracked none y)
    (hroom : ∀ t ∈ y.heap (vtDecodeLock (y.slots slot)), t.refcount + 1 < 2 ^ 32)
    (hs : y.lockSlotForWrite slot dbPtr address = some y') : Tracked none y' := by
  rw [TrackerTable.lockSlotForWrite] at hs
  split_ifs at hs with hlock hfree
  · obtain ⟨t, ht, rfl⟩ := Option.map_eq_some_iff.mp hs
    exact h.join hlock ht (hroom t ht)
  · obtain rfl := Option.some.inj hs
    exact h.install hfree.1 hfree.2 (Nat.mod_lt _ (by norm_num))

theorem Tracked.populateTurn (h : Tracked none y) {c : PopulateCall} (hc : c ∈ y.populates) (spurious : Bool) :
    Tracked none (y.populateTurn c spurious) := by
  have hversion := h.populates c hc
  have hrest : Tracked none { y with populates := y.populates.erase c } :=
    h.calls (fun c' hc' => h.populates c' (List.mem_of_mem_erase hc')) h.sweeps
  rw [TrackerTable.populateTurn]
  split_ifs
  · exact hrest
  · exact hrest.store c.slot (vtIsLock_version hversion)
  · refine h.calls (fun c' hc' => ?_) h.sweeps
    rcases List.mem_cons.mp hc' with rfl | hold
    · exact hversion
    · exact h.populates c' (List.mem_of_mem_erase hold)

theorem loaded_settles {c : SettleSweep} (hc : vtIsLock c.settledValue = false) (v : ℕ) :
    vtIsLock (SettleSweep.loaded c v).settledValue = false ∧ ∀ w ∈ (SettleSweep.loaded c v).v, vtIsLock w = false := by
  rw [SettleSweep.loaded]
  split_ifs with hv
  · exact ⟨hc, fun w hw => absurd hw (Option.not_mem_none w)⟩
  · refine ⟨hc, fun w hw => ?_⟩
    obtain rfl := Option.some.inj hw
    simpa using hv

theorem Tracked.settleTurn (h : Tracked none y) {c : SettleSweep} (hc : c ∈ y.sweeps) :
    Tracked none (y.settleTurn c) := by
  obtain ⟨hsettled, hloaded⟩ := h.sweeps c hc
  have hothers : ∀ c' ∈ y.sweeps.erase c, vtIsLock c'.settledValue = false ∧ ∀ v ∈ c'.v, vtIsLock v = false :=
    fun c' hc' => h.sweeps c' (List.mem_of_mem_erase hc')
  have hnext : ∀ c₁ : SettleSweep, vtIsLock c₁.settledValue = false ∧ (∀ v ∈ c₁.v, vtIsLock v = false) →
      Tracked none { y with sweeps := c₁ :: y.sweeps.erase c } := by
    intro c₁ hc₁
    refine h.calls h.populates fun c' hc' => ?_
    rcases List.mem_cons.mp hc' with rfl | hold
    · exact hc₁
    · exact hothers c' hold
  rw [TrackerTable.settleTurn]
  split_ifs
  · split
    · exact hnext _ (loaded_settles hsettled _)
    · split_ifs
      · exact (hnext { c with i := c.i + 1, v := none } ⟨hsettled,
          fun w hw => absurd hw (Option.not_mem_none w)⟩).store c.i hsettled
      · exact hnext _ (loaded_settles hsettled _)
  · exact h.calls h.populates hothers

theorem Tracked.step (h : Tracked none y) (hg : y.HasRoom a) (hs : y.step a = some y') : Tracked none y' := by
  cases a with
  | lock slot dbPtr address =>
    rw [TrackerTable.step] at hs
    split_ifs at hs
    exact h.lockSlotForWrite hg hs
  | release slot p =>
    rw [TrackerTable.step] at hs
    split_ifs at hs with hi
    exact h.releaseWriteIntent hi hs
  | ref slot =>
    rw [TrackerTable.step] at hs
    split_ifs at hs
    exact h.refTrackerIfLocked hg hs
  | unref p =>
    rw [TrackerTable.step] at hs
    split_ifs at hs with hp
    exact h.unrefTracker hp hs
  | cancel dbPtr => exact h.cancelForDB hs
  | populate slot newVersion =>
    rw [TrackerTable.step] at hs
    split_ifs at hs
    obtain rfl := Option.some.inj hs
    rw [populateVersion]
    split_ifs with hversion
    · refine h.calls (fun c hc => ?_) h.sweeps
      rcases List.mem_cons.mp hc with rfl | hold
      · exact hversion
      · exact h.populates c hold
    · exact h
  | populateTurn c spurious =>
    rw [TrackerTable.step] at hs
    split_ifs at hs with hc
    obtain rfl := Option.some.inj hs
    exact h.populateTurn hc spurious
  | populateIfUnchanged slot observed newVersion =>
    rw [TrackerTable.step] at hs
    split_ifs at hs
    obtain rfl := Option.some.inj hs
    rw [populateVersionIfUnchanged]
    split_ifs with hskip
    · exact h
    · rw [Bool.or_eq_true, Bool.or_eq_true, not_or, not_or, Bool.not_eq_true, Bool.not_eq_false'] at hskip
      exact h.store slot (vtIsLock_version hskip.1.1)
    · exact h
  | settleAll =>
    obtain rfl := Option.some.inj hs
    refine h.vtNextSettleGen.calls h.populates fun c hc => ?_
    rcases List.mem_cons.mp hc with rfl | hold
    · exact ⟨vtIsLock_settled _, fun w hw => absurd hw (Option.not_mem_none w)⟩
    · exact h.sweeps c hold
  | settleTurn c =>
    rw [TrackerTable.step] at hs
    split_ifs at hs with hc
    obtain rfl := Option.some.inj hs
    exact h.settleTurn hc

/-- A new table has no trackers. -/
theorem tracked_new (size gen settleGen : ℕ) :
    Tracked none { size, vtGlobalGen := gen, vtGlobalSettleGen := settleGen } := by
  refine ⟨fun s hs => ?_, fun p t ht => ?_, fun i hi => ?_, fun p hp => ?_, fun p p' t t' ht => ?_,
    fun n hn => ?_, List.nodup_nil,
    fun n hn => ?_, fun n hn => ?_, fun c hc => ?_, fun c hc => ?_⟩
  · have hzero : vtIsLock 0 = true := hs
    exact absurd hzero (by decide)
  · cases ht
  · cases hi
  · cases hp
  · cases ht
  · exact absurd hn (Nat.not_lt_zero n)
  · cases hn
  · cases hn
  · cases hc
  · cases hc

end Steps

end TrackerTable

end RocksdbJs
