import RocksdbJs.Sanity.TableSnapshots

/-! Trackers count the intents held on them, and a unit that has committed keeps the slots of its
intents locked until it releases them, if they were locked by these intents when it committed and
`cancelForDB` takes none of them away. -/

namespace RocksdbJs

/-- How many intents of the unit are held on the tracker. -/
def WriteUnit.holds (t : ℕ) (u : WriteUnit) : ℕ := (u.intents.map Prod.snd).count t

theorem holds_pos {u : WriteUnit} {p : ℕ × ℕ} (h : p ∈ u.intents) : 0 < u.holds p.2 :=
  List.count_pos_iff.mpr (List.mem_map_of_mem h)

theorem holds_append {u u' : WriteUnit} {slot t : ℕ} (h : u'.intents = u.intents ++ [(slot, t)]) (t' : ℕ) :
    u'.holds t' = u.holds t' + if t = t' then 1 else 0 := by
  rw [WriteUnit.holds, WriteUnit.holds, h, List.map_append, List.count_append]
  simp [List.count_singleton]

theorem holds_cons {u u' : WriteUnit} {slot t : ℕ} (h : u.intents = (slot, t) :: u'.intents) (t' : ℕ) :
    u.holds t' = u'.holds t' + if t = t' then 1 else 0 := by
  rw [WriteUnit.holds, WriteUnit.holds, h, List.map_cons, List.count_cons]
  simp

/-- The unit has an intent for each key it writes, and all its intents lock their slots. -/
def WriteUnit.Intends (cfg : TableConfig) (w : Shared) (u : WriteUnit) : Prop :=
  (w.materialized = true → ∀ x ∈ u.writes, ∃ p ∈ u.intents, p.1 = cfg.slotFor (u.location x)) ∧
    ∀ p ∈ u.intents, w.vt.slots p.1 = .lock p.2

/-- The unit has committed and is in `releaseIntent`. -/
def WriteUnit.releases (u : WriteUnit) : Bool := decide (u.phase = .releasing .ok)

/-- Intents, trackers and locks. -/
structure Held (w : Shared) (units : List WriteUnit) : Prop where
  count : ∀ t, (units.map (WriteUnit.holds t)).sum = (w.vt.trackers t).holders
  intents : ∀ u ∈ units, ∀ p ∈ u.intents, (w.vt.trackers p.2).slotIndex = p.1 ∧ p.2 < w.vt.nextTracker
  locks : ∀ s t, w.vt.slots s = .lock t → (w.vt.trackers t).slotIndex = s ∧ t < w.vt.nextTracker
  live : ∀ u ∈ units, u.releases = true → ∀ p ∈ u.intents, w.vt.slots p.1 = .lock p.2

namespace Held
variable {cfg : TableConfig} {w w' : Shared} {us : List WriteUnit} {i : ℕ} {u u' : WriteUnit}

theorem releases_false {u : WriteUnit} (h : u.phase ≠ .releasing .ok) : u.releases = false := by
  rw [WriteUnit.releases]
  exact decide_eq_false h

/-- A step of a unit that keeps its intents. -/
theorem keep (h : Held w us) (hu : us[i]? = some u) (hint : u'.intents = u.intents)
    (hlive : u'.releases = true → ∀ p ∈ u.intents, w.vt.slots p.1 = .lock p.2) (hvt : w'.vt = w.vt) :
    Held w' (us.set i u') := by
  have hmem := List.mem_of_getElem? hu
  refine ⟨fun t => ?_, fun u₁ hu₁ p hp => ?_, by rw [hvt]; exact h.locks, fun u₁ hu₁ hrel p hp => ?_⟩
  · have hsum := List.sum_map_set_add (WriteUnit.holds t) hu u'
    have hsame : u'.holds t = u.holds t := by rw [WriteUnit.holds, WriteUnit.holds, hint]
    rw [hvt, ← h.count t]
    omega
  · rw [hvt]
    rcases List.mem_or_eq_of_mem_set hu₁ with hold | rfl
    · exact h.intents u₁ hold p hp
    · exact h.intents u hmem p (hint ▸ hp)
  · rw [hvt]
    rcases List.mem_or_eq_of_mem_set hu₁ with hold | rfl
    · exact h.live u₁ hold hrel p hp
    · exact hlive hrel p (hint ▸ hp)

/-- A write joins the tracker of its slot. -/
theorem join (h : Held w us) (hu : us[i]? = some u) {slot t : ℕ} (hslot : w.vt.slots slot = .lock t)
    (hint : u'.intents = u.intents ++ [(slot, t)]) (hrel : u'.releases = false)
    (hvt : w'.vt = { w.vt with trackers := Function.update w.vt.trackers t (w.vt.trackers t).join }) :
    Held w' (us.set i u') := by
  have hmem := List.mem_of_getElem? hu
  have htrackers : w'.vt.trackers = Function.update w.vt.trackers t (w.vt.trackers t).join := by rw [hvt]
  have hindex : ∀ t', (w'.vt.trackers t').slotIndex = (w.vt.trackers t').slotIndex := by
    intro t'
    rw [htrackers]
    by_cases ht : t' = t
    · subst ht
      rw [Function.update_self]
      rfl
    · rw [Function.update_of_ne ht]
  have hslots : w'.vt.slots = w.vt.slots := by rw [hvt]
  have hnext : w'.vt.nextTracker = w.vt.nextTracker := by rw [hvt]
  refine ⟨fun t' => ?_, fun u₁ hu₁ p hp => ?_, fun s t' hs => ?_, fun u₁ hu₁ hrel₁ p hp => ?_⟩
  · have hsum := List.sum_map_set_add (WriteUnit.holds t') hu u'
    have hcount := holds_append hint t'
    have hold := h.count t'
    rw [htrackers]
    by_cases ht : t' = t
    · subst ht
      rw [Function.update_self]
      change _ = (w.vt.trackers t').holders + 1
      rw [if_pos rfl] at hcount
      omega
    · rw [Function.update_of_ne ht]
      rw [if_neg (Ne.symm ht)] at hcount
      omega
  · rw [hindex, hnext]
    rcases List.mem_or_eq_of_mem_set hu₁ with hold | rfl
    · exact h.intents u₁ hold p hp
    · rw [hint] at hp
      rcases List.mem_append.mp hp with hp | hp
      · exact h.intents u hmem p hp
      · obtain rfl := List.mem_singleton.mp hp
        exact h.locks slot t hslot
  · rw [hslots] at hs
    rw [hindex, hnext]
    exact h.locks s t' hs
  · rw [hslots]
    rcases List.mem_or_eq_of_mem_set hu₁ with hold | rfl
    · exact h.live u₁ hold hrel₁ p hp
    · exact absurd (hrel.symm.trans hrel₁) Bool.false_ne_true

theorem count_next (h : Held w us) : (us.map (WriteUnit.holds w.vt.nextTracker)).sum = 0 := by
  refine List.sum_eq_zero fun n hn => ?_
  obtain ⟨u, hu, rfl⟩ := List.mem_map.mp hn
  refine List.count_eq_zero.mpr fun hmem => ?_
  obtain ⟨p, hp, hpt⟩ := List.mem_map.mp hmem
  have hlt := (h.intents u hu p hp).2
  omega

/-- A write locks its slot with a new tracker. -/
theorem install (h : Held w us) (hu : us[i]? = some u) {slot v db : ℕ} (hslot : w.vt.slots slot = .word v)
    (hint : u'.intents = u.intents ++ [(slot, w.vt.nextTracker)]) (hrel : u'.releases = false)
    (hvt : w'.vt = { w.vt with slots := Function.update w.vt.slots slot (.lock w.vt.nextTracker)
                               trackers := Function.update w.vt.trackers w.vt.nextTracker ⟨1, 1, slot, db⟩
                               nextTracker := w.vt.nextTracker + 1
                               turns := Function.update w.vt.turns slot (w.vt.turns slot + 1) }) :
                                 Held w' (us.set i u') := by
  have hmem := List.mem_of_getElem? hu
  have hold : ∀ t, t < w.vt.nextTracker → w'.vt.trackers t = w.vt.trackers t := by
    intro t ht
    rw [hvt]
    exact Function.update_of_ne (by omega) ..
  have hnew : w'.vt.trackers w.vt.nextTracker = ⟨1, 1, slot, db⟩ := by
    rw [hvt]
    exact Function.update_self ..
  have hnext : w'.vt.nextTracker = w.vt.nextTracker + 1 := by rw [hvt]
  have hother : ∀ s, s ≠ slot → w'.vt.slots s = w.vt.slots s := by
    intro s hs
    rw [hvt]
    exact Function.update_of_ne hs ..
  refine ⟨fun t => ?_, fun u₁ hu₁ p hp => ?_, fun s t hs => ?_, fun u₁ hu₁ hrel₁ p hp => ?_⟩
  · have hsum := List.sum_map_set_add (WriteUnit.holds t) hu u'
    have hcount := holds_append hint t
    by_cases ht : t = w.vt.nextTracker
    · subst ht
      rw [hnew]
      rw [if_pos rfl] at hcount
      have hzero := h.count_next
      change _ = 1
      omega
    · rw [hvt]
      simp only [Function.update_of_ne ht]
      rw [if_neg (Ne.symm ht)] at hcount
      rw [← h.count t]
      omega
  · rw [hnext]
    rcases List.mem_or_eq_of_mem_set hu₁ with hu₁ | rfl
    · obtain ⟨hidx, hlt⟩ := h.intents u₁ hu₁ p hp
      exact ⟨by rw [hold p.2 hlt]; exact hidx, by omega⟩
    · rw [hint] at hp
      rcases List.mem_append.mp hp with hp | hp
      · obtain ⟨hidx, hlt⟩ := h.intents u hmem p hp
        exact ⟨by rw [hold p.2 hlt]; exact hidx, by omega⟩
      · obtain rfl := List.mem_singleton.mp hp
        exact ⟨by rw [hnew], Nat.lt_succ_self _⟩
  · rw [hnext]
    by_cases hs' : s = slot
    · subst hs'
      obtain rfl : w.vt.nextTracker = t := by
        rw [hvt] at hs
        simpa using hs
      exact ⟨by rw [hnew], Nat.lt_succ_self _⟩
    · rw [hother s hs'] at hs
      obtain ⟨hidx, hlt⟩ := h.locks s t hs
      exact ⟨by rw [hold t hlt]; exact hidx, by omega⟩
  · rcases List.mem_or_eq_of_mem_set hu₁ with hu₁ | rfl
    · have hlock := h.live u₁ hu₁ hrel₁ p hp
      rw [hother p.1 fun heq => by rw [heq, hslot] at hlock; cases hlock]
      exact hlock
    · exact absurd (hrel.symm.trans hrel₁) Bool.false_ne_true

/-- The release of an intent settles a slot only if no other intent is held on its tracker. -/
theorem release (h : Held w us) (hu : us[i]? = some u) {slot t gen : ℕ} {rest : List (ℕ × ℕ)}
    (hint : u.intents = (slot, t) :: rest) (hint' : u'.intents = rest) (hrel : u'.releases = u.releases)
    (hvt : w'.vt = w.vt.releaseWriteIntent slot t gen) :
    Held w' (us.set i u') := by
  have hmem := List.mem_of_getElem? hu
  have htrackers : w'.vt.trackers = Function.update w.vt.trackers t (w.vt.trackers t).leave := by
    rw [hvt, VerificationTable.releaseWriteIntent]
    split_ifs <;> rfl
  have hnext : w'.vt.nextTracker = w.vt.nextTracker := by
    rw [hvt, VerificationTable.releaseWriteIntent]
    split_ifs <;> rfl
  have hindex : ∀ t', (w'.vt.trackers t').slotIndex = (w.vt.trackers t').slotIndex := by
    intro t'
    rw [htrackers]
    by_cases ht : t' = t
    · subst ht
      rw [Function.update_self]
      rfl
    · rw [Function.update_of_ne ht]
  have hcount := holds_cons (hint.trans (by rw [hint']))
  have hsum : ∀ t', ((us.set i u').map (WriteUnit.holds t')).sum = (w'.vt.trackers t').holders := by
    intro t'
    have hset := List.sum_map_set_add (WriteUnit.holds t') hu u'
    have hold := h.count t'
    have hc := hcount t'
    rw [htrackers]
    by_cases ht : t' = t
    · subst ht
      rw [Function.update_self]
      change _ = (w.vt.trackers t').holders - 1
      rw [if_pos rfl] at hc
      omega
    · rw [Function.update_of_ne ht]
      rw [if_neg (Ne.symm ht)] at hc
      omega
  -- a slot that is settled had the last intent of its tracker
  have hslots : ∀ s, (∃ u₁ ∈ us.set i u', ∃ p ∈ u₁.intents, p = (s, t)) ∨ w.vt.slots s ≠ .lock t →
      w'.vt.slots s = w.vt.slots s := by
    intro s hs
    rw [hvt, VerificationTable.releaseWriteIntent]
    split_ifs with hlast
    · refine Function.update_of_ne ?_ ..
      rintro rfl
      rcases hs with ⟨u₁, hu₁, p, hp, rfl⟩ | hne
      · have hzero : ((us.set i u').map (WriteUnit.holds t)).sum = 0 := by
          rw [hsum t, htrackers, Function.update_self]
          change (w.vt.trackers t).holders - 1 = 0
          rw [of_decide_eq_true hlast.1]
        have hle := List.le_sum_map (WriteUnit.holds t) hu₁
        have hpos := holds_pos hp
        change 0 < u₁.holds t at hpos
        omega
      · exact hne hlast.2
    · rfl
  have hlive : ∀ u₁ ∈ us.set i u', ∀ p ∈ u₁.intents, w.vt.slots p.1 = .lock p.2 → w'.vt.slots p.1 = .lock p.2 := by
    intro u₁ hu₁ p hp hlock
    rw [hslots p.1 ?_]
    · exact hlock
    by_cases hpt : p.2 = t
    · exact Or.inl ⟨u₁, hu₁, p, hp, Prod.ext rfl hpt⟩
    · right
      rw [hlock]
      exact fun heq => hpt (SlotValue.lock.inj heq)
  refine ⟨hsum, fun u₁ hu₁ p hp => ?_, fun s t' hs => ?_, fun u₁ hu₁ hrel₁ p hp => ?_⟩
  · rw [hindex, hnext]
    rcases List.mem_or_eq_of_mem_set hu₁ with hold | rfl
    · exact h.intents u₁ hold p hp
    · exact h.intents u hmem p (by rw [hint]; exact List.mem_cons_of_mem _ (hint' ▸ hp))
  · rw [hindex, hnext]
    refine h.locks s t' ?_
    rw [hvt, VerificationTable.releaseWriteIntent] at hs
    split_ifs at hs with hlast
    · by_cases hss : s = slot
      · subst hss
        rw [VerificationTable.settle] at hs
        simp at hs
      · rw [VerificationTable.settle] at hs
        simpa [Function.update_of_ne hss] using hs
    · exact hs
  · refine hlive u₁ hu₁ p hp ?_
    rcases List.mem_or_eq_of_mem_set hu₁ with hold | rfl
    · exact h.live u₁ hold hrel₁ p hp
    · exact h.live u hmem (hrel ▸ hrel₁) p (by rw [hint]; exact List.mem_cons_of_mem _ (hint' ▸ hp))

theorem move {a : UnitAction} (h : Held w us) (hu : us[i]? = some u) (hmove : UnitMove cfg w u a w' u')
    (hcommit : a = .commit .ok → u.Intends cfg w) : Held w' (us.set i u') := by
  cases hmove with
  | stay _ hdb hint hsnap hphase =>
    exact h.keep hu hint (fun hrel => absurd ((releases_false hphase).symm.trans hrel) Bool.false_ne_true) rfl
  | lock _ slot hfree hdb hint hsnap hphase =>
    cases hslot : w.vt.slots slot with
    | lock t =>
      rw [VerificationTable.lockSlotForWrite_lock w.vt u.db hslot] at hint ⊢
      exact h.join hu hslot hint (releases_false hphase) rfl
    | word v =>
      rw [VerificationTable.lockSlotForWrite_word w.vt u.db hslot] at hint ⊢
      exact h.install hu hslot hint (releases_false hphase) rfl
  | commit ha hphase => exact h.keep hu rfl (fun _ => (hcommit ha).2) rfl
  | release slot t rest hint hfree => exact h.release hu hint rfl rfl rfl

/-- A slot without a lock gets another word. -/
theorem word (h : Held w us) (htrackers : w'.vt.trackers = w.vt.trackers)
    (hnext : w'.vt.nextTracker = w.vt.nextTracker)
    (hslots : ∀ s t, w'.vt.slots s = .lock t → w.vt.slots s = .lock t)
    (hlive : ∀ u ∈ us, u.releases = true → ∀ p ∈ u.intents, w.vt.slots p.1 = .lock p.2 → w'.vt.slots p.1 = .lock p.2) :
    Held w' us :=
  ⟨fun t => by rw [htrackers]; exact h.count t, fun u hu p hp => by rw [htrackers, hnext]; exact h.intents u hu p hp,
    fun s t hs => by rw [htrackers, hnext]; exact h.locks s t (hslots s t hs),
    fun u hu hrel p hp => hlive u hu hrel p hp (h.live u hu hrel p hp)⟩

end Held

end RocksdbJs
