import RocksdbJs.Proofs.PublishedLatest

/-! Verifications under collisions. A slot does not say which key its version was published for, so
a verification of one key can be answered by a version of another. In every run of writes,
commits, aborts, reads and verifications whose steps meet `Guarded` that is the only way in which
a verified version is not the latest. -/

namespace RocksdbJs

namespace Access
variable {cfg : TableConfig} {y : Access} {loc : Location} {v : ℕ}

/-- No other key of the slot has the version. -/
def Unshared (cfg : TableConfig) (y : Access) (loc : Location) (v : ℕ) : Prop :=
  ∀ loc', cfg.slotFor loc' = cfg.slotFor loc → y.shared.latest loc' = v → loc' = loc

/-- What a slot says of a key if no other key has its version. -/
theorem Sound.verified (h : Sound cfg y) (hclears : y.shared.clears = [])
    (hslot : y.shared.vt.slots (cfg.slotFor loc) = .word v) (hv : vtIsVersion v = true)
    (hother : Unshared cfg y loc v) :
    y.shared.vt.publisher (cfg.slotFor loc) = some loc ∧ y.shared.latest loc = v := by
  obtain ⟨loc', hpub, hsame, hlatest⟩ := h.published.latest _ v hslot hv
  have hlatest := hlatest.resolve_left (not_clearing hclears loc')
  obtain rfl := hother loc' hsame hlatest
  exact ⟨hpub, hlatest⟩

theorem slot_of_verify {vt : VerificationTable} {s : ℕ} (h : vt.verifyVersion s v = true) : vt.slots s = .word v := by
  rw [VerificationTable.verifyVersion] at h
  split_ifs at h
  exact of_decide_eq_true h

/-- In every run of accesses whose steps meet the conditions, a version that verifies for a key is
its latest, if no other key of the slot has it. -/
theorem verified_is_latest {y₀ : Access} {acts : List AccessAction} (h0 : Initial y₀)
    (hok : Runs.Along (step cfg) (AccessGuarded cfg) y₀ acts)
    (hrun : Runs.exec (step cfg) y₀ acts = some y) (hv : vtIsVersion v = true)
    (hverify : y.shared.vt.verifyVersion (cfg.slotFor loc) v = true) (hother : Unshared cfg y loc v) :
    y.shared.latest loc = v :=
  ((Sound.run h0 (hok.mono fun _ _ hg => hg.2) hrun).verified (clears_run h0 hok hrun)
    (slot_of_verify hverify) hv hother).2

section Sample

/-- The keys A and B share a slot. -/
def pairSlots : TableConfig where
  entries := 2
  slotFor loc := if loc = keyA ∨ loc = keyB then 0 else 1
  slotFor_lt loc := by split_ifs <;> decide
  forwardDated _ _ := false

/-- The two keys have different versions. -/
def twoKeys : List AccessAction :=
  .materialize :: putKey 0 keyA 5 ++ putKey 1 keyB 6 ++ readKey 0 keyA ++ [.reader 0 .populate]

theorem twoKeys_unshared : Unshared pairSlots (Runs.final (step pairSlots) {} twoKeys) keyA 5 := by
  intro loc hslot hlatest
  by_contra hne
  by_cases hB : loc = keyB
  · subst hB
    revert hlatest
    decide +kernel
  · have hslot' : (if loc = keyA ∨ loc = keyB then 0 else 1) = 0 := hslot
    rw [if_neg (not_or.mpr ⟨hne, hB⟩)] at hslot'
    cases hslot'

/-- The key A gets the version 7 after 5, the key B gets the version 5 and is read. -/
def equalVersions : List AccessAction :=
  putKey 1 keyA 7 ++ putKey 2 keyB 5 ++ readKey 0 keyB ++ [.reader 0 .populate]

end Sample

/-- The version 5 verifies for the key A, and is its latest. -/
theorem verified_is_latest_two : (Runs.final (step pairSlots) {} twoKeys).shared.latest keyA = 5 := by
  have hrun := Runs.exec_final (step pairSlots) {} twoKeys (by decide +kernel)
  exact verified_is_latest initial_empty (by decide +kernel) hrun (by decide) (by decide +kernel) twoKeys_unshared

/-- The version 5 of the key B verifies for the key A, which had it before and has 7 now. -/
theorem equal_versions_verify :
    ¬ ∀ (cfg : TableConfig) (y₀ y₁ y₂ : Access) (before after : List AccessAction) (loc : Location) (v : ℕ),
      Initial y₀ →
      (∀ a ∈ before ++ after, a.isAccess = true) → Runs.exec (step cfg) y₀ before = some y₁ →
        Runs.exec (step cfg) y₁ after = some y₂ → vtIsVersion v = true → y₁.shared.latest loc = v →
          y₂.shared.vt.verifyVersion (cfg.slotFor loc) v = true → y₂.shared.latest loc = v := by
  intro h
  have hbefore := Runs.exec_final (step oneSlot) {} (.materialize :: putKey 0 keyA 5) (by decide +kernel)
  have hafter := Runs.exec_final (step oneSlot) (Runs.final (step oneSlot) {} (.materialize :: putKey 0 keyA 5))
    equalVersions
    (by decide +kernel)
  have hlatest := h oneSlot {} _ _ _ _ keyA 5 initial_empty (by decide) hbefore hafter (by decide)
    (by decide +kernel) (by decide +kernel)
  revert hlatest
  decide +kernel

end Access

end RocksdbJs
