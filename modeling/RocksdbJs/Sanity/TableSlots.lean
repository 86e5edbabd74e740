import RocksdbJs.Spec.TableAccess

/-! What one operation of the table does to one slot: nothing, a lock on a slot that had none, a
settled-empty marker, or a version over the word a read has observed. Locks and markers count as
turns of the slot, publications do not. -/

namespace RocksdbJs

theorem vtEncodeSettled_not_version (gen : ℕ) : vtIsVersion (vtEncodeSettled gen) = false := by
  have h : ¬ VT_TAG_BIT + VT_SETTLED_BIT + gen % VT_SETTLED_BIT < VT_TAG_BIT := by omega
  simp [vtIsVersion, vtEncodeSettled, h]

theorem vtEncodeSettled_ne_zero (gen : ℕ) : vtEncodeSettled gen ≠ 0 := by
  have h : 0 < VT_TAG_BIT := by decide
  rw [vtEncodeSettled]
  omega

theorem vtEncodeSettled_inj {g g' : ℕ} (hg : g < VT_SETTLED_BIT) (hg' : g' < VT_SETTLED_BIT)
    (h : vtEncodeSettled g = vtEncodeSettled g') : g = g' := by
  rw [vtEncodeSettled, vtEncodeSettled, Nat.mod_eq_of_lt hg, Nat.mod_eq_of_lt hg'] at h
  omega

namespace VerificationTable
variable {mints : ℕ → Prop} {vt vt' : VerificationTable} {s t gen : ℕ}

/-- What an operation does to a slot; `mints` is what it knows of the generation of a marker. -/
inductive SlotStep (mints : ℕ → Prop) (vt vt' : VerificationTable) (slot : ℕ) : Prop
  | same (hs : vt'.slots slot = vt.slots slot) (ht : vt'.turns slot =
      vt.turns slot) (hp : vt'.publisher slot = vt.publisher slot)
  | locked (t : ℕ) (hw : (vt.slots slot).isLock = false) (hs : vt'.slots slot = .lock t)
      (ht : vt'.turns slot = vt.turns slot + 1)
  | settled (gen : ℕ) (hm : mints gen) (hs : vt'.slots slot = .word (vtEncodeSettled gen))
      (ht : vt'.turns slot = vt.turns slot + 1)
  | published (loc : Location) (o v : ℕ) (hw : vt.slots slot = .word o) (hv : vtIsVersion v = true)
      (hs : vt'.slots slot = .word v) (ht : vt'.turns slot = vt.turns slot) (hp : vt'.publisher slot = some loc)

theorem SlotStep.refl (mints : ℕ → Prop) (vt : VerificationTable) (slot : ℕ) : SlotStep mints vt vt slot :=
  .same rfl rfl rfl

theorem SlotStep.turns_le {slot : ℕ} (h : SlotStep mints vt vt' slot) : vt.turns slot ≤ vt'.turns slot := by
  cases h with
  | same hs ht hp => exact ht.ge
  | locked t hw hs ht => omega
  | settled gen hm hs ht => omega
  | published loc o v hw hv hs ht hp => exact ht.ge

/-- A slot that has not had its turn is locked after the step exactly if it was before. -/
theorem SlotStep.isLock_eq {slot : ℕ} (h : SlotStep mints vt vt' slot) (ht : vt'.turns slot = vt.turns slot) :
    (vt'.slots slot).isLock = (vt.slots slot).isLock := by
  cases h with
  | same hs ht hp => rw [hs]
  | locked t hw hs ht' => omega
  | settled gen hm hs ht' => omega
  | published loc o v hw hv hs ht' hp =>
    rw [hs, hw]
    rfl

theorem lockSlotForWrite_lock (vt : VerificationTable) (db : ℕ) (h : vt.slots s = .lock t) :
    vt.lockSlotForWrite s db = (t, { vt with trackers := Function.update vt.trackers t (vt.trackers t).join }) := by
  rw [lockSlotForWrite, h]

theorem lockSlotForWrite_word (vt : VerificationTable) (db : ℕ) {v : ℕ} (h : vt.slots s = .word v) :
    vt.lockSlotForWrite s db = (vt.nextTracker,
      { vt with slots := Function.update vt.slots s (.lock vt.nextTracker)
                trackers := Function.update vt.trackers vt.nextTracker ⟨1, 1, s, db⟩
                nextTracker := vt.nextTracker + 1
                turns := Function.update vt.turns s (vt.turns s + 1) }) := by
  rw [lockSlotForWrite, h]

theorem lockSlotForWrite_step (mints : ℕ → Prop) (vt : VerificationTable) (s db slot : ℕ) :
    SlotStep mints vt (vt.lockSlotForWrite s db).2 slot := by
  cases h : vt.slots s with
  | lock t =>
    rw [lockSlotForWrite_lock vt db h]
    exact .same rfl rfl rfl
  | word v =>
    rw [lockSlotForWrite_word vt db h]
    by_cases hslot : slot = s
    · subst hslot
      exact .locked vt.nextTracker (by rw [h]; rfl) (Function.update_self ..) (Function.update_self ..)
    · exact .same (Function.update_of_ne hslot ..) (Function.update_of_ne hslot ..) rfl

theorem settle_step (vt : VerificationTable) (s slot : ℕ) (hm : slot = s → mints gen) :
    SlotStep mints vt (vt.settle s gen) slot := by
  by_cases hslot : slot = s
  · subst hslot
    exact .settled gen (hm rfl) (Function.update_self ..) (Function.update_self ..)
  · exact .same (Function.update_of_ne hslot ..) (Function.update_of_ne hslot ..) rfl

theorem settleSlot_step (vt : VerificationTable) (s slot : ℕ) (hm : slot = s → mints gen) :
    SlotStep mints vt (vt.settleSlot s gen) slot := by
  rw [settleSlot]
  split_ifs with hlock
  · exact .refl mints vt slot
  · exact settle_step vt s slot hm

theorem releaseWriteIntent_step (vt : VerificationTable) (s t slot : ℕ) (hm : vt.lastHolder t = true → mints gen) :
    SlotStep mints vt (vt.releaseWriteIntent s t gen) slot := by
  rw [releaseWriteIntent]
  split_ifs with hlast
  · by_cases hslot : slot = s
    · subst hslot
      exact .settled gen (hm hlast.1) (Function.update_self ..) (Function.update_self ..)
    · exact .same (Function.update_of_ne hslot ..) (Function.update_of_ne hslot ..) rfl
  · exact .same rfl rfl rfl

/-- The CAS either does nothing, or finds the observed word and puts a version in its place. -/
theorem populateVersionIfUnchanged_cases (vt : VerificationTable) (loc : Location) (s : ℕ)
    (observed : SlotValue) (v : ℕ) :
    (vt.populateVersionIfUnchanged loc s observed v).2 = vt ∨
      ∃ o, observed = .word o ∧ o ≠ v ∧ vtIsVersion v = true ∧ vt.slots s = .word o ∧
        (vt.populateVersionIfUnchanged loc s observed v).2 =
          { vt with slots := Function.update vt.slots s (.word v),
                    publisher := Function.update vt.publisher s (some loc) } := by
  cases hv : vtIsVersion v with
  | false =>
    left
    simp [populateVersionIfUnchanged, hv]
  | true =>
    cases observed with
    | lock t =>
      left
      simp [populateVersionIfUnchanged, hv]
    | word o =>
      by_cases hne : o = v
      · left
        simp [populateVersionIfUnchanged, hv, hne]
      by_cases hs : vt.slots s = .word o
      · right
        exact ⟨o, rfl, hne, rfl, hs, by simp [populateVersionIfUnchanged, hv, hne, hs]⟩
      · left
        simp [populateVersionIfUnchanged, hv, hne, hs]

theorem populateVersionIfUnchanged_step (mints : ℕ → Prop) (vt : VerificationTable) (loc : Location)
    (s : ℕ) (observed : SlotValue) (v slot : ℕ) :
    SlotStep mints vt (vt.populateVersionIfUnchanged loc s observed v).2 slot := by
  rcases populateVersionIfUnchanged_cases vt loc s observed v with hsame | ⟨o, -, -, hv, hs, hset⟩
  · rw [hsame]
    exact .refl mints vt slot
  · rw [hset]
    by_cases hslot : slot = s
    · subst hslot
      exact .published loc o v hs hv (Function.update_self ..) rfl (Function.update_self ..)
    · exact .same (Function.update_of_ne hslot ..) rfl (Function.update_of_ne hslot ..)

/-- Every version in a slot has been there before the step. -/
def Unpublished (vt vt' : VerificationTable) : Prop :=
  ∀ slot v, vt'.slots slot = .word v → vtIsVersion v = true →
    vt.slots slot = .word v ∧ vt'.turns slot = vt.turns slot ∧ vt'.publisher slot = vt.publisher slot

theorem Unpublished.congr (hs : vt'.slots = vt.slots) (ht : vt'.turns = vt.turns) (hp : vt'.publisher = vt.publisher) :
    Unpublished vt vt' := fun slot v hv _ => ⟨by rw [← hs]; exact hv, by rw [ht], by rw [hp]⟩

theorem lockSlotForWrite_unpublished (vt : VerificationTable) (s db : ℕ) :
    Unpublished vt (vt.lockSlotForWrite s db).2 := by
  cases h : vt.slots s with
  | lock t =>
    rw [lockSlotForWrite_lock vt db h]
    exact .congr rfl rfl rfl
  | word o =>
    rw [lockSlotForWrite_word vt db h]
    intro slot v hv _
    by_cases hslot : slot = s
    · subst hslot
      simp at hv
    · simp only [Function.update_of_ne hslot] at hv
      exact ⟨hv, Function.update_of_ne hslot .., rfl⟩

theorem settle_unpublished (vt : VerificationTable) (s gen : ℕ) : Unpublished vt (vt.settle s gen) := by
  intro slot v hv hversion
  rw [settle] at hv ⊢
  by_cases hslot : slot = s
  · subst hslot
    simp only [Function.update_self] at hv
    obtain rfl := SlotValue.word.inj hv
    rw [vtEncodeSettled_not_version] at hversion
    cases hversion
  · simp only [Function.update_of_ne hslot] at hv
    exact ⟨hv, Function.update_of_ne hslot .., rfl⟩

theorem settleSlot_unpublished (vt : VerificationTable) (s gen : ℕ) : Unpublished vt (vt.settleSlot s gen) := by
  rw [settleSlot]
  split_ifs
  · exact .congr rfl rfl rfl
  · exact settle_unpublished vt s gen

theorem releaseWriteIntent_unpublished (vt : VerificationTable) (s t gen : ℕ) :
    Unpublished vt (vt.releaseWriteIntent s t gen) := by
  rw [releaseWriteIntent]
  split_ifs
  · exact settle_unpublished _ s gen
  · exact .congr rfl rfl rfl

end VerificationTable

end RocksdbJs
