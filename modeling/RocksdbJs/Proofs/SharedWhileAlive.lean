import RocksdbJs.Lib.Runs
import RocksdbJs.Spec.SharedBuffers

/-! While an `ArrayBuffer` of a key is alive, the key keeps its storage. That the entry goes with
the last of them rests on the order of the finalizers: `use_count` also counts the references of
finalizers that have released and not yet finished, so the last to release sees them. -/

namespace RocksdbJs

namespace SharedBuffers

/-- What holds in every run. -/
structure Sound (s : SharedBuffers) : Prop where
  /-- A living `ArrayBuffer` has the storage of its key. -/
  live : ∀ d ∈ s.finalizeData, d.phase = .live → s.userSharedBuffers d.key = some d.sharedData
  /-- A storage is in the map under the key of those that hold it, and under no other. -/
  held : ∀ key, ∀ d ∈ s.finalizeData, s.userSharedBuffers key = some d.sharedData → key = d.key
  inj : ∀ key key' storage, s.userSharedBuffers key = some storage →
    s.userSharedBuffers key' = some storage → key = key'
  entries : ∀ key storage, s.userSharedBuffers key = some storage → storage < s.storages.length
  storage : ∀ d ∈ s.finalizeData, d.sharedData < s.storages.length
  serials : ∀ d ∈ s.finalizeData, d.serial < s.nextSerial
  distinct : (s.finalizeData.map UserSharedBufferFinalizeData.serial).Nodup

/-- The call creates its `ArrayBuffer`; and when the last that is not released yet of a storage is
released, every other finalizer of the storage has finished. -/
def Apart (s : SharedBuffers) : SharedAction → Prop
  | .getUserSharedBuffer _ _ created => created = true
  | .release serial => ∀ d ∈ s.finalizeData, d.serial = serial →
      (∀ d' ∈ s.finalizeData, d'.sharedData = d.sharedData → d'.phase = .live → d' = d) →
      ∀ d' ∈ s.finalizeData, d'.sharedData = d.sharedData → d' = d
  | .finish _ => True

instance decidableApart (s : SharedBuffers) : ∀ a, Decidable (Apart s a)
  | .getUserSharedBuffer _ _ created => inferInstanceAs (Decidable (created = true))
  | .release serial => inferInstanceAs (Decidable (∀ d ∈ s.finalizeData, d.serial = serial →
      (∀ d' ∈ s.finalizeData, d'.sharedData = d.sharedData → d'.phase = .live → d' = d) →
      ∀ d' ∈ s.finalizeData, d'.sharedData = d.sharedData → d' = d))
  | .finish _ => inferInstanceAs (Decidable True)

/-- Every entry has a living `ArrayBuffer`. -/
def Backed (s : SharedBuffers) : Prop :=
  ∀ key storage, s.userSharedBuffers key = some storage → ∃ d ∈ s.finalizeData, d.phase = .live ∧ d.sharedData = storage

theorem eq_of_serial {s : SharedBuffers} (h : Sound s) {d d' : UserSharedBufferFinalizeData} (hd : d ∈ s.finalizeData)
    (hd' : d' ∈ s.finalizeData) (heq : d.serial = d'.serial) : d = d' :=
  List.inj_on_of_nodup_map h.distinct hd hd' heq

theorem release_eq_some {s t : SharedBuffers} {serial : ℕ} (h : step s (.release serial) = some t) :
    ∃ d ∈ s.finalizeData, d.serial = serial ∧ d.phase = .live ∧
      t = { s.releaseUserSharedBuffer d.key d.sharedData with
        finalizeData := s.finalizeData.map fun x => if x.serial = serial then { x with phase := .released }
          else x } := by
  obtain ⟨d, hd, rfl⟩ := Option.map_eq_some_iff.mp h
  have hp := List.find?_some hd
  simp only [decide_eq_true_eq] at hp
  exact ⟨d, List.mem_of_find?_eq_some hd, hp.1, hp.2, rfl⟩

/-- What a release leaves of the map. -/
theorem releaseUserSharedBuffer_map (s : SharedBuffers) (key k : Bytes) (sharedData : ℕ) :
    (s.releaseUserSharedBuffer key sharedData).userSharedBuffers k =
      if k = key ∧ s.userSharedBuffers key = some sharedData ∧ s.useCount key sharedData ≤ 2 then none
        else s.userSharedBuffers k := by
  unfold releaseUserSharedBuffer
  split_ifs with h1 h2 h3 h3 h3 <;> try tauto
  · rw [h3.1]
    exact Function.update_self ..
  · exact Function.update_of_ne (fun hk => h3 ⟨hk, h1, h2⟩) ..

theorem two_le_useCount {s : SharedBuffers} {key : Bytes} {d d' : UserSharedBufferFinalizeData}
    (hd : d ∈ s.finalizeData) (hd' : d' ∈ s.finalizeData) (hne : d ≠ d')
    (heq : d'.sharedData = d.sharedData) (hmap : s.userSharedBuffers key = some d.sharedData) :
    2 < s.useCount key d.sharedData := by
  have hsub : [d, d'].Subperm (s.finalizeData.filter fun x => x.sharedData = d.sharedData) := by
    apply List.subperm_of_subset
    · simpa using hne
    · intro x hx
      rcases List.mem_cons.mp hx with rfl | hx
      · exact List.mem_filter.mpr ⟨hd, by simp⟩
      · obtain rfl := List.mem_singleton.mp hx
        exact List.mem_filter.mpr ⟨hd', by simpa using heq⟩
  have hlen := hsub.length_le
  rw [List.length_cons, List.length_singleton] at hlen
  rw [useCount, if_pos hmap]
  omega

theorem useCount_le_two {s : SharedBuffers} (h : Sound s) {key : Bytes} {d : UserSharedBufferFinalizeData}
    (hall : ∀ d' ∈ s.finalizeData, d'.sharedData = d.sharedData → d' = d) : s.useCount key d.sharedData ≤ 2 := by
  have hnodup : s.finalizeData.Nodup := h.distinct.of_map _
  have hsub : (s.finalizeData.filter fun x => x.sharedData = d.sharedData).Subperm [d] := by
    apply List.subperm_of_subset (hnodup.filter _)
    intro x hx
    obtain ⟨hx, hs⟩ := List.mem_filter.mp hx
    exact List.mem_singleton.mpr (hall x hx (by simpa using hs))
  have hlen := hsub.length_le
  rw [List.length_singleton] at hlen
  unfold useCount
  split_ifs <;> omega

/-- The key has its entry, the one from before if it had one. -/
theorem entry_map (s : SharedBuffers) (key defaultBuffer : Bytes) :
    (s.entry key defaultBuffer).2.userSharedBuffers key = some (s.entry key defaultBuffer).1 := by
  unfold entry
  split
  · assumption
  · exact Function.update_self ..

theorem entry_sound {s : SharedBuffers} (h : Sound s) (key defaultBuffer : Bytes) :
    Sound (s.entry key defaultBuffer).2 := by
  unfold entry
  split
  · exact h
  · rename_i hm
    have hold : ∀ k storage, Function.update s.userSharedBuffers key (some s.storages.length) k = some storage →
        (k = key ∧ storage = s.storages.length) ∨ (k ≠ key ∧ s.userSharedBuffers k = some storage ∧
          storage < s.storages.length) := by
      intro k storage hk
      by_cases hkey : k = key
      · subst hkey
        rw [Function.update_self] at hk
        exact Or.inl ⟨rfl, (Option.some.inj hk).symm⟩
      · rw [Function.update_of_ne hkey] at hk
        exact Or.inr ⟨hkey, hk, h.entries k storage hk⟩
    refine ⟨fun d hd hl => ?_, fun k d hd hk => ?_, fun k k' storage hk hk' => ?_, fun k storage hk => ?_,
      fun d hd => ?_, h.serials, h.distinct⟩
    · have hlive := h.live d hd hl
      refine (Function.update_of_ne ?_ ..).trans hlive
      rintro rfl
      rw [hm] at hlive
      exact absurd hlive (by simp)
    · rcases hold k _ hk with ⟨-, hnew⟩ | ⟨-, hmap, -⟩
      · exact absurd hnew (h.storage d hd).ne
      · exact h.held k d hd hmap
    · rcases hold k _ hk with ⟨rfl, h1⟩ | ⟨hne, h1, hlt⟩ <;> rcases hold k' _ hk' with ⟨rfl, h2⟩ | ⟨hne', h2, hlt'⟩
      · rfl
      · omega
      · omega
      · exact h.inj k k' storage h1 h2
    · rw [List.length_append, List.length_singleton]
      rcases hold k _ hk with ⟨-, h1⟩ | ⟨-, -, hlt⟩ <;> omega
    · have := h.storage d hd
      rw [List.length_append, List.length_singleton]
      omega

/-- One more reference to the storage of a key. -/
theorem hold_sound {s : SharedBuffers} (h : Sound s) {key : Bytes} {storage : ℕ}
    (hm : s.userSharedBuffers key = some storage) (phase : FinalizePhase) :
    Sound { s with finalizeData := ⟨s.nextSerial, key, storage, phase⟩ :: s.finalizeData,
                   nextSerial := s.nextSerial + 1 } := by
  refine ⟨fun d hd hl => ?_, fun k d hd hk => ?_, h.inj, h.entries, fun d hd => ?_, fun d hd => ?_, ?_⟩
  · rcases List.mem_cons.mp hd with rfl | hd
    · exact hm
    · exact h.live d hd hl
  · rcases List.mem_cons.mp hd with rfl | hd
    · exact h.inj k key storage hk hm
    · exact h.held k d hd hk
  · rcases List.mem_cons.mp hd with rfl | hd
    · exact h.entries key storage hm
    · exact h.storage d hd
  · rcases List.mem_cons.mp hd with rfl | hd
    · exact Nat.lt_succ_self _
    · exact Nat.lt_succ_of_lt (h.serials d hd)
  · refine List.nodup_cons.mpr ⟨fun hin => ?_, h.distinct⟩
    obtain ⟨d, hd, hserial⟩ := List.mem_map.mp hin
    exact absurd hserial (h.serials d hd).ne

theorem getUserSharedBuffer_snd (s : SharedBuffers) (key defaultBuffer : Bytes) (created : Bool) :
    (s.getUserSharedBuffer key defaultBuffer created).2 =
      { (s.entry key defaultBuffer).2 with
        finalizeData := ⟨(s.entry key defaultBuffer).2.nextSerial, key, (s.entry key defaultBuffer).1,
          if created then .live else .leaked⟩ ::
          (s.entry key defaultBuffer).2.finalizeData
        nextSerial := (s.entry key defaultBuffer).2.nextSerial + 1 } := by
  unfold getUserSharedBuffer entry
  cases s.userSharedBuffers key <;> rfl

theorem releaseUserSharedBuffer_rest (s : SharedBuffers) (key : Bytes) (sharedData : ℕ) :
    (s.releaseUserSharedBuffer key sharedData).storages = s.storages ∧
      (s.releaseUserSharedBuffer key sharedData).nextSerial = s.nextSerial := by
  unfold releaseUserSharedBuffer
  split_ifs <;> exact ⟨rfl, rfl⟩

/-- The finalize data after a release: the one that is released is the only one that changes. -/
theorem mem_released {s : SharedBuffers} {d x : UserSharedBufferFinalizeData}
    (hx : x ∈ s.finalizeData.map fun x => if x.serial = d.serial then { x with phase := FinalizePhase.released }
      else x) :
    ∃ y ∈ s.finalizeData, x.serial = y.serial ∧ x.key = y.key ∧ x.sharedData = y.sharedData ∧
      (x.phase = .live → y.phase = .live ∧ y ≠ d) := by
  obtain ⟨y, hy, rfl⟩ := List.mem_map.mp hx
  refine ⟨y, hy, ?_⟩
  split_ifs with hs
  · exact ⟨rfl, rfl, rfl, by simp⟩
  · exact ⟨rfl, rfl, rfl, fun hl => ⟨hl, fun hyd => hs (by rw [hyd])⟩⟩

theorem release_sound {s t : SharedBuffers} (h : Sound s) {serial : ℕ}
    (hstep : step s (.release serial) = some t) : Sound t := by
  obtain ⟨d, hd, rfl, hlive, rfl⟩ := release_eq_some hstep
  obtain ⟨hstorages, hnext⟩ := releaseUserSharedBuffer_rest s d.key d.sharedData
  have hmap : ∀ k storage, (s.releaseUserSharedBuffer d.key d.sharedData).userSharedBuffers k = some storage →
      s.userSharedBuffers k = some storage := by
    intro k storage hk
    rw [releaseUserSharedBuffer_map] at hk
    split_ifs at hk
    exact hk
  refine ⟨fun x hx hl => ?_, fun k x hx hk => ?_, fun k k' storage hk hk' => ?_, fun k storage hk => ?_,
    fun x hx => ?_, fun x hx => ?_, ?_⟩
  · obtain ⟨y, hy, -, hkey, hdata, hphase⟩ := mem_released hx
    obtain ⟨hyl, hne⟩ := hphase hl
    have hym := h.live y hy hyl
    rw [hkey, hdata, releaseUserSharedBuffer_map, if_neg, hym]
    -- another reference to the storage keeps the entry
    rintro ⟨hk, hm, hcount⟩
    rw [hk, hm] at hym
    exact absurd hcount (not_le.mpr (two_le_useCount hd hy hne.symm (Option.some.inj hym).symm hm))
  · obtain ⟨y, hy, -, hkey, hdata, -⟩ := mem_released hx
    rw [hkey]
    exact h.held k y hy (hdata ▸ hmap k _ hk)
  · exact h.inj k k' storage (hmap k _ hk) (hmap k' _ hk')
  · rw [hstorages]
    exact h.entries k storage (hmap k _ hk)
  · obtain ⟨y, hy, -, -, hdata, -⟩ := mem_released hx
    rw [hdata, hstorages]
    exact h.storage y hy
  · obtain ⟨y, hy, hserial, -, -, -⟩ := mem_released hx
    rw [hserial, hnext]
    exact h.serials y hy
  · have hserials : (s.finalizeData.map fun x => if x.serial =
        d.serial then { x with phase := FinalizePhase.released } else x).map
        UserSharedBufferFinalizeData.serial = s.finalizeData.map UserSharedBufferFinalizeData.serial := by
      rw [List.map_map]
      apply List.map_congr_left
      intro x _
      simp only [Function.comp_apply]
      split_ifs <;> rfl
    rw [hserials]
    exact h.distinct

theorem finish_eq_some {s t : SharedBuffers} {serial : ℕ} (h : step s (.finish serial) = some t) :
    ∃ d ∈ s.finalizeData, d.serial = serial ∧ d.phase = .released ∧
      t = { s with finalizeData := s.finalizeData.filter fun x => x.serial ≠ serial } := by
  obtain ⟨d, hd, rfl⟩ := Option.map_eq_some_iff.mp h
  have hp := List.find?_some hd
  simp only [decide_eq_true_eq] at hp
  exact ⟨d, List.mem_of_find?_eq_some hd, hp.1, hp.2, rfl⟩

theorem finish_sound {s t : SharedBuffers} (h : Sound s) {serial : ℕ}
    (hstep : step s (.finish serial) = some t) : Sound t := by
  obtain ⟨d, hd, rfl, -, rfl⟩ := finish_eq_some hstep
  exact ⟨fun x hx => h.live x (List.mem_of_mem_filter hx), fun k x hx => h.held k x (List.mem_of_mem_filter hx),
    h.inj, h.entries,
    fun x hx => h.storage x (List.mem_of_mem_filter hx), fun x hx => h.serials x (List.mem_of_mem_filter hx),
    h.distinct.sublist (List.filter_sublist.map _)⟩

theorem step_sound (s : SharedBuffers) (a : SharedAction) (t : SharedBuffers) (h : Sound s)
    (hstep : step s a = some t) : Sound t := by
  cases a with
  | getUserSharedBuffer key defaultBuffer created =>
    obtain rfl := Option.some.inj hstep
    rw [getUserSharedBuffer_snd]
    exact hold_sound (entry_sound h key defaultBuffer) (entry_map s key defaultBuffer) _
  | release serial => exact release_sound h hstep
  | finish serial => exact finish_sound h hstep

/-- Where the steps are apart, every entry keeps a living `ArrayBuffer`. -/
theorem step_backed (s : SharedBuffers) (a : SharedAction) (t : SharedBuffers) (h : Sound s ∧ Backed s)
    (hapart : Apart s a) (hstep : step s a = some t) : Sound t ∧ Backed t := by
  refine ⟨step_sound s a t h.1 hstep, ?_⟩
  cases a with
  | getUserSharedBuffer key defaultBuffer created =>
    obtain rfl := Option.some.inj hstep
    obtain rfl : created = true := hapart
    intro k storage hk
    rw [getUserSharedBuffer_snd] at hk ⊢
    by_cases hkey : k = key
    · subst hkey
      obtain rfl := Option.some.inj ((entry_map s k defaultBuffer).symm.trans hk)
      exact ⟨_, List.mem_cons_self, rfl, rfl⟩
    · have hold : s.userSharedBuffers k = some storage ∧
          (s.entry key defaultBuffer).2.finalizeData = s.finalizeData := by
        unfold entry at hk ⊢
        cases hm : s.userSharedBuffers key with
        | some _ =>
          simp only [hm] at hk ⊢
          exact ⟨hk, trivial⟩
        | none =>
          simp only [hm] at hk ⊢
          exact ⟨(Function.update_of_ne hkey ..).symm.trans hk, trivial⟩
      obtain ⟨d, hd, hl, hs⟩ := h.2 k storage hold.1
      exact ⟨d, List.mem_cons_of_mem _ (hold.2 ▸ hd), hl, hs⟩
  | release serial =>
    obtain ⟨d, hd, rfl, hlive, rfl⟩ := release_eq_some hstep
    intro k storage hk
    simp only at hk
    rw [releaseUserSharedBuffer_map] at hk
    split_ifs at hk with hgone
    by_cases hother : ∃ d' ∈ s.finalizeData, d'.phase = .live ∧ d'.sharedData = storage ∧ d' ≠ d
    · obtain ⟨d', hd', hl, hs, hne⟩ := hother
      refine ⟨d', List.mem_map.mpr ⟨d', hd', if_neg fun heq => hne (eq_of_serial h.1 hd' hd heq)⟩, hl, hs⟩
    · -- the last one of the entry's storage: it is alone, so the entry was erased
      push Not at hother
      obtain ⟨d', hd', hl, hs⟩ := h.2 k storage hk
      obtain rfl := hother d' hd' hl hs
      subst hs
      have hkey := h.1.held k d' hd hk
      subst hkey
      have hlast := hapart d' hd rfl fun x hx hsx hlx => hother x hx hlx hsx
      exact absurd ⟨rfl, hk, useCount_le_two h.1 hlast⟩ hgone
  | finish serial =>
    obtain ⟨d, hd, rfl, hreleased, rfl⟩ := finish_eq_some hstep
    intro k storage hk
    obtain ⟨d', hd', hl, hs⟩ := h.2 k storage hk
    refine ⟨d', List.mem_filter.mpr ⟨hd', ?_⟩, hl, hs⟩
    simp only [ne_eq, decide_eq_true_eq]
    intro heq
    rw [eq_of_serial h.1 hd' hd heq, hreleased] at hl
    cases hl

theorem empty_sound : Sound {} ∧ Backed {} :=
  ⟨⟨by simp, by simp, by simp, by simp, by simp, by simp, List.nodup_nil⟩, by simp [Backed]⟩

/-- In every run a key with a living `ArrayBuffer` gives its storage. Where the steps are apart, a key whose finalizers
have all finished has no entry, and the next call's storage is made from its default buffer. -/
theorem shared_while_alive {as : List SharedAction} {s : SharedBuffers} (hrun : Runs.exec step {} as = some s) :
    (∀ d ∈ s.finalizeData, d.phase = .live →
      ∀ defaultBuffer, (s.getUserSharedBuffer d.key defaultBuffer true).1 = some d.sharedData) ∧
    (Runs.Along step Apart {} as → ∀ key, (∀ d ∈ s.finalizeData, d.key ≠ key) →
      s.userSharedBuffers key = none ∧
      ∀ defaultBuffer, ∃ storage, (s.getUserSharedBuffer key defaultBuffer true).1 = some storage ∧
      s.storages.length ≤ storage ∧
        (s.getUserSharedBuffer key defaultBuffer true).2.storages[storage]? = some defaultBuffer) := by
  refine ⟨fun d hd hl defaultBuffer => ?_, fun hapart key hnone => ?_⟩
  · have hm := (Runs.exec_preserves step_sound empty_sound.1 hrun).live d hd hl
    simp [getUserSharedBuffer, entry, hm]
  · have hbacked : Sound s ∧ Backed s := Runs.exec_invariant step_backed empty_sound hapart hrun
    have hm : s.userSharedBuffers key = none := by
      rw [Option.eq_none_iff_forall_ne_some]
      intro storage hk
      obtain ⟨d, hd, hl, rfl⟩ := hbacked.2 key storage hk
      exact hnone d hd (hbacked.1.held key d hd hk).symm
    refine ⟨hm, fun defaultBuffer => ⟨s.storages.length, ?_, le_refl _, ?_⟩⟩
    · simp [getUserSharedBuffer, entry, hm]
    · simp [getUserSharedBuffer, entry, hm]

/-- The second `ArrayBuffer` is released after the first one's finalizer has finished. -/
theorem shared_until_released :
    ∃ s, Runs.exec step {} [.getUserSharedBuffer [107] [0] true, .getUserSharedBuffer [107] [9] true,
      .release 0, .finish 0, .release 1, .finish 1] = some s ∧ s.userSharedBuffers [107] = none := by
  have hsome : (Runs.exec step {} [.getUserSharedBuffer [107] [0] true, .getUserSharedBuffer [107] [9] true,
      .release 0, .finish 0, .release 1, .finish 1]).isSome = true := by decide +kernel
  obtain ⟨s, hs⟩ := Option.isSome_iff_exists.mp hsome
  have hdata : (Runs.exec step {} [.getUserSharedBuffer [107] [0] true, .getUserSharedBuffer [107] [9] true,
      .release 0, .finish 0, .release 1, .finish 1]).map (fun s => s.finalizeData) = some [] := by decide +kernel
  rw [hs, Option.map_some, Option.some.injEq] at hdata
  exact ⟨s, hs, ((shared_while_alive hs).2 (by decide +kernel) [107] (by simp [hdata])).1⟩

/-- Two finalizers overlap: each sees the other's reference, so the entry stays when both have finished, and
the next call gets the old storage instead of its default buffer. -/
theorem entry_outlives_finalizers :
    ∃ s, Runs.exec step {} [.getUserSharedBuffer [107] [0] true, .getUserSharedBuffer [107] [0] true,
      .release 0, .release 1, .finish 0, .finish 1] = some s ∧ s.finalizeData = [] ∧
      (s.getUserSharedBuffer [107] [9] true).1 = some 0 ∧
      (s.getUserSharedBuffer [107] [9] true).2.storages = [[0]] := by
  have hsome : (Runs.exec step {} [.getUserSharedBuffer [107] [0] true, .getUserSharedBuffer [107] [0] true,
      .release 0, .release 1, .finish 0, .finish 1]).isSome = true := by decide +kernel
  obtain ⟨s, hs⟩ := Option.isSome_iff_exists.mp hsome
  have hend : (Runs.exec step {} [.getUserSharedBuffer [107] [0] true, .getUserSharedBuffer [107] [0] true,
      .release 0, .release 1, .finish 0, .finish 1]).map (fun s =>
        (s.finalizeData, (s.getUserSharedBuffer [107] [9] true).1,
        (s.getUserSharedBuffer [107] [9] true).2.storages)) = some ([], some 0, [[0]]) := by decide +kernel
  rw [hs, Option.map_some, Option.some.injEq, Prod.mk.injEq, Prod.mk.injEq] at hend
  exact ⟨s, hs, hend⟩

end SharedBuffers

end RocksdbJs
