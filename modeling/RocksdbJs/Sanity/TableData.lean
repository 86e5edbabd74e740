import RocksdbJs.Sanity.TableIntents

/-! Under the conditions of `Guarded`, a slot that has been neither locked nor settled stands for
data that has not changed: so a read whose slot is undisturbed carries the latest version, and the
version in a slot is the latest of the key it was published for. -/

namespace RocksdbJs

section Clears

/-- The sweep of the `clear` has yet to come to the slot of the key. -/
def ClearCall.awaits (cfg : TableConfig) (c : ClearCall) (loc : Location) : Bool :=
  decide (c.db = loc.db ∧ c.cf = loc.cf) &&
    match c.pc with
    | .deleted => true
    | .sweeping _ next => decide (next ≤ cfg.slotFor loc)
    | .swept => false

/-- The key's data is deleted by a `clear` that has yet to settle its slot. -/
def Shared.Clearing (cfg : TableConfig) (w : Shared) (loc : Location) : Prop := ∃ c ∈ w.clears, c.awaits cfg loc = true

instance (cfg : TableConfig) (w : Shared) (loc : Location) : Decidable (w.Clearing cfg loc) :=
  inferInstanceAs (Decidable (∃ c ∈ w.clears, _))

end Clears

/-- The slot of a read has been neither locked nor settled since the read loaded it. -/
def Reader.Undisturbed (cfg : TableConfig) (w : Shared) (r : Reader) : Prop :=
  ∃ seen ∈ r.seen, seen.observed.isLock = false ∧ w.vt.turns (cfg.slotFor r.loc) = seen.turn

instance (cfg : TableConfig) (w : Shared) (r : Reader) : Decidable (r.Undisturbed cfg w) :=
  inferInstanceAs (Decidable (∃ seen ∈ r.seen, _))

section Conditions

/-- The transaction of a read has itself written the key. -/
def ownWrites (units : List WriteUnit) (r : Reader) : Bool := ((unitOf units r).bind fun u => u.ownWrite r.loc).isSome

/-- The word is a version. -/
def SlotValue.isVersion : SlotValue → Bool
  | .word v => vtIsVersion v
  | .lock _ => false

/-- An uncommitted write of the transaction itself is behind a lock. -/
def Covered (cfg : TableConfig) (w : Shared) (units : List WriteUnit) (r : Reader) : Prop :=
  r.seen.isSome = true → ownWrites units r = true → (w.vt.slots (cfg.slotFor r.loc)).isLock = true

instance (cfg : TableConfig) (w : Shared) (units : List WriteUnit) (r : Reader) : Decidable (Covered cfg w units r) :=
  inferInstanceAs (Decidable (_ → _ → _))

/-- A CAS that would succeed: a version it replaces has not gone and come back, and the key is not
being cleared. -/
def Unreturned (cfg : TableConfig) (w : Shared) (r : Reader) : Prop :=
  ∀ seen ∈ r.seen, w.vt.slots (cfg.slotFor r.loc) = seen.observed →
    (seen.observed.isVersion = true → w.vt.turns (cfg.slotFor r.loc) = seen.turn) ∧ ¬ w.Clearing cfg r.loc

instance (cfg : TableConfig) (w : Shared) (r : Reader) : Decidable (Unreturned cfg w r) :=
  inferInstanceAs (Decidable (∀ seen ∈ r.seen, _ → _ ∧ _))

/-- The version at the transaction's snapshot is the latest. -/
def UpToDate (cfg : TableConfig) (w : Shared) (units : List WriteUnit) (r : Reader) : Prop :=
  r.Undisturbed cfg w → ∀ u ∈ unitOf units r, ∀ snapshot ∈ u.snapshot, versionOf (snapshot.view r.loc) = w.latest r.loc

instance (cfg : TableConfig) (w : Shared) (units : List WriteUnit) (r : Reader) : Decidable (UpToDate cfg w units r) :=
  inferInstanceAs (Decidable (_ → ∀ u ∈ _, ∀ snapshot ∈ _, _))

/-- The worker of a transaction's `get` reads the column family whose slot was loaded. -/
def OwnFamily (units : List WriteUnit) (r : Reader) : Prop :=
  r.seen.isSome = true → ∀ u ∈ unitOf units r, u.cf = r.loc.cf

instance (units : List WriteUnit) (r : Reader) : Decidable (OwnFamily units r) :=
  inferInstanceAs (Decidable (_ → ∀ u ∈ _, _))

def ReadGuarded (cfg : TableConfig) (w : Shared) (units : List WriteUnit) (r : Reader) : ReaderAction → Prop
  | .read .ok _ => Covered cfg w units r
  | .read .incomplete _ => UpToDate cfg w units r
  | .execute _ => Covered cfg w units r ∧ OwnFamily units r
  | .populate | .resolve => Unreturned cfg w r
  | _ => True

instance (cfg : TableConfig) (w : Shared) (units : List WriteUnit) (r : Reader) :
    ∀ a : ReaderAction, Decidable (ReadGuarded cfg w units r a)
  | .read .ok _ => inferInstanceAs (Decidable (Covered cfg w units r))
  | .execute _ => inferInstanceAs (Decidable (Covered cfg w units r ∧ OwnFamily units r))
  | .read .incomplete _ => inferInstanceAs (Decidable (UpToDate cfg w units r))
  | .populate | .resolve => inferInstanceAs (Decidable (Unreturned cfg w r))
  | .read .failed _ | .pin _ | .load | .choose | .reread | .gateTime | .latestSequence | .gateSequence | .queue =>
    inferInstanceAs (Decidable True)

instance (cfg : TableConfig) (w : Shared) (u : WriteUnit) : Decidable (u.Intends cfg w) :=
  inferInstanceAs (Decidable ((_ → ∀ x ∈ _, ∃ p ∈ _, _) ∧ ∀ p ∈ _, _))

/-- The intents that `cancelForDB` takes away are of no unit that has committed. -/
def CancelGuarded (y : Access) : Prop :=
  ∀ p ∈ y.shared.cancelling, ∀ t ∈ y.shared.vt.cancels p.1 p.2, ∀ u ∈ y.units, u.releases = true → (p.2, t) ∉ u.intents

instance (y : Access) : Decidable (CancelGuarded y) := inferInstanceAs (Decidable (∀ p ∈ _, ∀ t ∈ _, ∀ u ∈ _, _ → _))

/-- A unit commits with its intents. -/
def UnitGuarded (cfg : TableConfig) (w : Shared) (u : WriteUnit) (a : UnitAction) : Prop :=
  match a with
  | .commit .ok => u.Intends cfg w
  | _ => True

instance (cfg : TableConfig) (w : Shared) (u : WriteUnit) : ∀ a : UnitAction, Decidable (UnitGuarded cfg w u a)
  | .commit .ok => inferInstanceAs (Decidable (u.Intends cfg w))
  | .commit .isBusy | .commit .error | .put _ _ _ _ | .beginCommit | .skipCommit | .abort | .release | .finish
  | .close =>
    inferInstanceAs (Decidable True)

def StepGuarded (cfg : TableConfig) (y : Access) : AccessAction → Prop
  | .unit i action => ∀ u ∈ y.units[i]?, UnitGuarded cfg y.shared u action
  | .reader j action => ∀ r ∈ y.readers[j]?, ReadGuarded cfg y.shared y.units r action
  | .sweep c => ∀ call ∈ y.shared.clears[c]?, y.shared.materialized = true → call.enabled = true
  | .cancelSlot => CancelGuarded y
  | _ => True

instance (cfg : TableConfig) (y : Access) : ∀ a : AccessAction, Decidable (StepGuarded cfg y a)
  | .unit i action => inferInstanceAs (Decidable (∀ u ∈ y.units[i]?, UnitGuarded cfg y.shared u action))
  | .reader j action => inferInstanceAs (Decidable (∀ r ∈ y.readers[j]?, ReadGuarded cfg y.shared y.units r action))
  | .sweep c =>
    inferInstanceAs (Decidable (∀ call ∈ y.shared.clears[c]?, y.shared.materialized = true → call.enabled = true))
  | .cancelSlot => inferInstanceAs (Decidable (CancelGuarded y))
  | .transaction _ _ _ _ | .direct _ _ | .call _ _ _ _ _ | .materialize | .clear _ _ _ | .cancelForDB _ =>
    inferInstanceAs (Decidable True)

/-- The conditions on the steps of a run. -/
def Guarded (cfg : TableConfig) (y : Access) (a : AccessAction) : Prop :=
  y.shared.settleGen < VT_SETTLED_BIT ∧ StepGuarded cfg y a

instance (cfg : TableConfig) (y : Access) (a : AccessAction) : Decidable (Guarded cfg y a) :=
  inferInstanceAs (Decidable (_ ∧ _))

end Conditions

section Keeps
variable {cfg : TableConfig} {w w' : Shared}

/-- What a step leaves of the data of a key whose slot it does not lock or settle. -/
def Keeps (cfg : TableConfig) (w w' : Shared) : Prop :=
  ∀ loc, (w.vt.slots (cfg.slotFor loc)).isLock = false → w'.vt.turns (cfg.slotFor loc) = w.vt.turns (cfg.slotFor loc) →
    w'.Clearing cfg loc ∨ (w'.committed loc = w.committed loc ∧ ¬ w.Clearing cfg loc)

theorem Keeps.congr (hdata : w'.committed = w.committed) (hclears : w'.clears = w.clears) : Keeps cfg w w' := by
  intro loc _ _
  rw [Shared.Clearing, Shared.Clearing, hclears, hdata]
  exact (em _).imp_right fun h => ⟨rfl, h⟩

theorem UnitMove.keeps {u u' : WriteUnit} {a : UnitAction} (h : UnitMove cfg w u a w' u') (hmat : w.materialized = true)
    (hg : UnitGuarded cfg w u a) : Keeps cfg w w' := by
  cases h with
  | stay _ hdb hint hsnap hphase => exact Keeps.congr rfl rfl
  | lock _ slot hfree hdb hint hsnap hphase => exact Keeps.congr rfl rfl
  | release slot t rest hint hfree => exact Keeps.congr rfl rfl
  | commit ha hphase =>
    subst ha
    obtain ⟨hintends, hlocks⟩ : u.Intends cfg w := hg
    intro loc hword _
    refine (em _).imp_right fun hclear => ⟨apply_other u w.committed ?_, hclear⟩
    rintro x hx rfl
    obtain ⟨p, hp, hslot⟩ := hintends hmat x hx
    rw [← hslot, hlocks p hp] at hword
    cases hword

theorem clear_keeps (db cf : ℕ) (enabled : Bool) (hdata : w'.committed = clearData db cf w.committed)
    (hclears : w'.clears = w.clears ++ [⟨db, cf, enabled, .deleted⟩]) : Keeps cfg w w' := by
  intro loc _ _
  by_cases hin : loc.db = db ∧ loc.cf = cf
  · refine Or.inl ⟨⟨db, cf, enabled, .deleted⟩, by rw [hclears]; simp, ?_⟩
    simp [ClearCall.awaits, hin.1, hin.2]
  · by_cases hclear : w.Clearing cfg loc
    · obtain ⟨c, hc, hawaits⟩ := hclear
      exact Or.inl ⟨c, by rw [hclears]; exact List.mem_append_left _ hc, hawaits⟩
    · refine Or.inr ⟨?_, hclear⟩
      rw [hdata, clearData, if_neg hin]

/-- A sweep goes on, or has passed all slots. -/
theorem Clearing.set {i : ℕ} {call call' : ClearCall} (hcall : w.clears[i]? = some call) {loc : Location}
    (hclears : w'.clears = w.clears.set i call') (h : w.Clearing cfg loc)
    (hstep : call.awaits cfg loc = true → call'.awaits cfg loc = true) : w'.Clearing cfg loc := by
  obtain ⟨c, hc, hawaits⟩ := h
  obtain ⟨k, hk⟩ := List.mem_iff_getElem?.mp hc
  by_cases hik : i = k
  · subst hik
    obtain rfl := Option.some.inj (hcall.symm.trans hk)
    refine ⟨call', ?_, hstep hawaits⟩
    rw [hclears]
    exact List.mem_set (List.getElem?_eq_some_iff.mp hcall).1 _
  · refine ⟨c, ?_, hawaits⟩
    rw [hclears]
    exact List.mem_of_getElem? (by rw [List.getElem?_set_ne hik]; exact hk)

theorem sweep_keeps {i : ℕ} {call : ClearCall} (hcall : w.clears[i]? = some call) {p : Shared × ClearCall}
    (h : w.sweep cfg call = some p) (hmat : w.materialized = true) (hg : w.materialized = true → call.enabled = true) :
    Keeps cfg w { p.1 with clears := p.1.clears.set i p.2 } := by
  have hkeep : ∀ (w' : Shared) (call' : ClearCall) (loc : Location),
    (call.awaits cfg loc = true → call'.awaits cfg loc = true) →
      w'.committed = w.committed → w'.clears = w.clears.set i call' →
        w'.Clearing cfg loc ∨ (w'.committed loc = w.committed loc ∧ ¬ w.Clearing cfg loc) := by
    intro w' call' loc hstep hdata hclears
    by_cases hclear : w.Clearing cfg loc
    · exact Or.inl (Clearing.set hcall hclears hclear hstep)
    · exact Or.inr ⟨by rw [hdata], hclear⟩
  rcases sweep_cases h with ⟨hpc, -, rfl⟩ | ⟨hpc, hen, rfl⟩ | ⟨gen, next, hpc, rfl | ⟨hend, rfl⟩⟩
  · intro loc _ _
    refine hkeep _ _ loc (fun hawaits => ?_) rfl rfl
    rw [ClearCall.awaits, Bool.and_eq_true] at hawaits ⊢
    exact ⟨hawaits.1, by simp⟩
  · rw [hg hmat, hmat] at hen
    cases hen
  · intro loc hword hturn
    refine hkeep _ _ loc (fun hawaits => ?_) rfl rfl
    rw [ClearCall.awaits, hpc, Bool.and_eq_true] at hawaits
    rw [ClearCall.awaits, Bool.and_eq_true]
    refine ⟨hawaits.1, ?_⟩
    have hle : next ≤ cfg.slotFor loc := of_decide_eq_true hawaits.2
    -- the slot the sweep is at has its turn
    have hne : next ≠ cfg.slotFor loc := by
      rintro rfl
      simp [VerificationTable.settleSlot, hword, VerificationTable.settle] at hturn
    simp only [decide_eq_true_eq]
    omega
  · intro loc _ _
    refine hkeep _ _ loc (fun hawaits => ?_) rfl rfl
    rw [ClearCall.awaits, hpc, Bool.and_eq_true] at hawaits
    have hle : next ≤ cfg.slotFor loc := of_decide_eq_true hawaits.2
    have hlt := cfg.slotFor_lt loc
    omega

end Keeps

section Carries
variable {cfg : TableConfig} {w w' : Shared} {us us' : List WriteUnit} {r r' : Reader}

/-- The version a read has in hand is the latest, or the one at its snapshot. -/
def Reader.Holds (w : Shared) (r : Reader) : Prop :=
  match r.pc with
  | .read v => versionOf ((r.snapshot.elim w.committed Snapshot.view) r.loc) = v
  | .chosen v | .dated v | .sequenced v _ | .gated v | .executed v => w.latest r.loc = v
  | .queued => versionOf ((r.snapshot.elim w.committed Snapshot.view) r.loc) = w.latest r.loc
  | _ => True

def Reader.Carries (cfg : TableConfig) (w : Shared) (r : Reader) : Prop :=
  r.Undisturbed cfg w → w.Clearing cfg r.loc ∨ r.Holds w

theorem Reader.Holds.congr (hdata : w'.committed r.loc = w.committed r.loc) (h : r.Holds w) : r.Holds w' := by
  have hlatest : w'.latest r.loc = w.latest r.loc := by rw [Shared.latest, Shared.latest, hdata]
  have hview : (r.snapshot.elim w'.committed Snapshot.view) r.loc =
      (r.snapshot.elim w.committed Snapshot.view) r.loc := by
    cases r.snapshot with
    | none => exact hdata
    | some snapshot => rfl
  rw [Reader.Holds] at h ⊢
  rw [hlatest, hview]
  exact h

/-- A read that was disturbed before the step is disturbed after it. -/
theorem Reader.Undisturbed.back (hw : ∀ seen, r.seen = some seen → Watched w (cfg.slotFor r.loc) seen)
    (hturn : Turn w w') (h : r.Undisturbed cfg w') :
    r.Undisturbed cfg w ∧ (w.vt.slots (cfg.slotFor r.loc)).isLock = false ∧
      w'.vt.turns (cfg.slotFor r.loc) = w.vt.turns (cfg.slotFor r.loc) := by
  obtain ⟨seen, hseen, hobs, hturns⟩ := h
  have hwatch := hw seen hseen
  have hle := (hturn.slots (cfg.slotFor r.loc)).turns_le
  have hle' := hwatch.le
  have hnow : w.vt.turns (cfg.slotFor r.loc) = seen.turn := by omega
  exact ⟨⟨seen, hseen, hobs, hnow⟩, (hwatch.lock hnow).trans hobs, by omega⟩

theorem Reader.Carries.turn (hw : ∀ seen, r.seen = some seen → Watched w (cfg.slotFor r.loc) seen) (hturn : Turn w w')
    (hkeeps : r.seen.isSome = true → Keeps cfg w w') (h : r.Carries cfg w) : r.Carries cfg w' := by
  intro hun
  obtain ⟨hun₀, hword, hsame⟩ := hun.back hw hturn
  obtain ⟨seen, hseen, -, -⟩ := hun
  rcases hkeeps (by rw [hseen]; rfl) r.loc hword hsame with hclear | ⟨hdata, hclear⟩
  · exact Or.inl hclear
  · exact Or.inr (((h hun₀).resolve_left hclear).congr hdata)

/-- The deletion of a `clear`. -/
theorem Reader.Carries.clear (h : r.Carries cfg w) (db cf : ℕ) (enabled : Bool) (hvt : w'.vt = w.vt)
    (hdata : w'.committed = clearData db cf w.committed)
    (hclears : w'.clears = w.clears ++ [⟨db, cf, enabled, .deleted⟩]) :
    ({ r with snapshot := r.snapshot.map (Snapshot.clear db cf) } : Reader).Carries cfg w' := by
  rintro ⟨seen, hseen, hobs, hturns⟩
  rw [hvt] at hturns
  by_cases hin : r.loc.db = db ∧ r.loc.cf = cf
  · refine Or.inl ⟨⟨db, cf, enabled, .deleted⟩, by rw [hclears]; simp, ?_⟩
    simp [ClearCall.awaits, hin.1, hin.2]
  rcases h ⟨seen, hseen, hobs, hturns⟩ with ⟨c, hc, hawaits⟩ | hholds
  · exact Or.inl ⟨c, by rw [hclears]; exact List.mem_append_left _ hc, hawaits⟩
  · refine Or.inr ?_
    have hloc : ∀ data : Location → Option Bytes, clearData db cf data r.loc = data r.loc := fun data => if_neg hin
    have hsame : w'.committed r.loc = w.committed r.loc := by rw [hdata, hloc]
    have hview : ((r.snapshot.map (Snapshot.clear db cf)).elim w'.committed Snapshot.view) r.loc =
        (r.snapshot.elim w'.committed Snapshot.view) r.loc := by
      cases r.snapshot with
      | none => rfl
      | some snapshot => exact hloc snapshot.view
    have := hholds.congr hsame
    rw [Reader.Holds] at this ⊢
    rw [hview]
    exact this

theorem ensureSnapshot_ownWrite (u : WriteUnit) (w : Shared) (now : ℕ+) (loc : Location) :
    (u.ensureSnapshot w now).ownWrite loc = u.ownWrite loc := by
  rcases ensureSnapshot_cases u w now with h | h
  all_goals rw [h]
  rfl

theorem unitOf_pinUnits_own (w : Shared) (us : List WriteUnit) (r : Reader) (now : ℕ+) (loc : Location) :
    ((unitOf (pinUnits w us r now) r).bind fun u => u.ownWrite loc) = (unitOf us r).bind fun u => u.ownWrite loc := by
  rw [unitOf_pinUnits]
  cases unitOf us r with
  | none => rfl
  | some u => exact ensureSnapshot_ownWrite u w now loc

theorem OwnFamily.workerLocation (h : OwnFamily us r) (hseen : r.seen.isSome = true) : workerLocation us r = r.loc := by
  rw [RocksdbJs.workerLocation]
  split
  · rfl
  next _ u hu => rw [h hseen u hu]

/-- A read of an undisturbed slot does not see a write of its own transaction. -/
theorem visible_undisturbed {value : Bytes} {snapshot : Option Snapshot}
    (hw : ∀ seen, r.seen = some seen → Watched w (cfg.slotFor r.loc) seen) (hcov : Covered cfg w us r)
    (hun : r.Undisturbed cfg w) {u : Option WriteUnit}
    (hown : (u.bind fun u => u.ownWrite r.loc) = (unitOf us r).bind fun u => u.ownWrite r.loc)
    (hvalue : Reader.visible w u snapshot r.loc = some value) :
    (snapshot.elim w.committed Snapshot.view) r.loc = some value := by
  rw [Reader.visible, hown] at hvalue
  split at hvalue
  next _ x hx =>
    obtain ⟨seen, hseen, hobs, hturns⟩ := hun
    have hlock := hcov (by rw [hseen]; rfl) (by rw [ownWrites, hx]; rfl)
    rw [(hw seen hseen).lock hturns, hobs] at hlock
    cases hlock
  · exact hvalue

theorem ReaderMove.carries {a : ReaderAction} (hmove : ReaderMove cfg w us r a w' us' r')
    (hg : ReadGuarded cfg w us r a) (hw : ∀ seen, r.seen = some seen → Watched w (cfg.slotFor r.loc) seen)
    (hcur : ∀ snapshot, r.snapshot = some snapshot → Current w r.loc.db snapshot)
    (hlatest : r.txn = none → r.snapshot = none) (h : r.Carries cfg w) : r'.Carries cfg w' := by
  cases hmove with
  | drop => exact fun _ => Or.inr trivial
  | pin now hunread => exact fun _ => Or.inr trivial
  | load hpc =>
    intro _
    rw [Reader.Holds, (load_frame cfg w r).2.2.2.2]
    exact Or.inr trivial
  | hit hsync hpc hhits => exact fun _ => Or.inr trivial
  | miss now hunread => exact fun _ => Or.inr trivial
  | defer now ha hasync hpc =>
    subst ha
    intro hun
    refine Or.inr ?_
    change versionOf ((((unitOf (pinUnits w us r now) r).bind WriteUnit.snapshot).elim w.committed Snapshot.view)
      r.loc) = w.latest r.loc
    rw [unitOf_pinUnits]
    cases hu : unitOf us r with
    | none => rfl
    | some u =>
      rcases ensureSnapshot_cases u w now with hpin | hpin
      · simp only [Option.map_some, Option.bind_some, hpin]
        cases hsnap : u.snapshot with
        | none => rfl
        | some snapshot => exact hg hun u hu snapshot hsnap
      · simp only [Option.map_some, Option.bind_some, hpin]
        rfl
  | read now value ha hunread haccepts hvalue =>
    subst ha
    intro hun
    rw [Reader.found] at hun ⊢
    split_ifs at hun ⊢
    · have hview := visible_undisturbed hw hg hun (unitOf_pinUnits_own w us r now r.loc) hvalue
      refine Or.inr ?_
      change versionOf (((r.snapped (pinUnits w us r now)).snapshot.elim w.committed Snapshot.view) r.loc) = _
      rw [hview]
      rfl
    · exact Or.inr trivial
  | choose v hpc =>
    intro hun
    obtain ⟨pc, heq⟩ := choose_frame w r v
    have hun₀ : r.Undisturbed cfg w := by
      rw [heq] at hun
      exact hun
    have hclear : w.Clearing cfg (r.choose w v).loc = w.Clearing cfg r.loc := by rw [heq]
    rw [hclear]
    refine (h hun₀).imp_right fun hholds => ?_
    rw [Reader.Holds, hpc] at hholds
    rw [Reader.choose]
    split_ifs
    · exact trivial
    · split
      next _ hnone =>
        rw [hnone] at hholds
        exact hholds
      next _ snapshot hsnap =>
        split_ifs with hseq
        · -- the snapshot is at the latest sequence number
          rw [hsnap] at hholds
          change versionOf (w.committed r.loc) = v
          rw [← (hcur snapshot hsnap).2 hseq r.loc rfl]
          exact hholds
        · exact trivial
  | reread hpc => exact fun _ => Or.inr rfl
  | alone v hpc hnone =>
    intro hun
    refine (h hun).imp_right fun hholds => ?_
    rw [Reader.Holds, hpc] at hholds
    exact hholds
  | date v hpc =>
    intro hun
    refine (h hun).imp_right fun hholds => ?_
    rw [Reader.Holds, hpc] at hholds
    exact hholds
  | sequence v hpc =>
    intro hun
    refine (h hun).imp_right fun hholds => ?_
    rw [Reader.Holds, hpc] at hholds
    exact hholds
  | gate v latestSeq hpc hle =>
    intro hun
    refine (h hun).imp_right fun hholds => ?_
    rw [Reader.Holds, hpc] at hholds
    exact hholds
  | publish v ha hpc => exact fun _ => Or.inr trivial
  | queue hasync hpc htxn =>
    intro _
    refine Or.inr ?_
    change versionOf ((r.snapshot.elim w.committed Snapshot.view) r.loc) = w.latest r.loc
    rw [hlatest htxn]
    rfl
  | execute value ha hpc hvalue =>
    subst ha
    intro hun
    refine (h hun).imp_right fun hholds => ?_
    rw [Reader.Holds, hpc] at hholds
    obtain ⟨seen, hseen, -, -⟩ := id hun
    rw [hg.2.workerLocation (by rw [hseen]; rfl)] at hvalue
    have hview := visible_undisturbed hw hg.1 hun rfl hvalue
    rw [hview] at hholds
    exact hholds.symm
  | resolve v ha hpc hseen => exact fun _ => Or.inr trivial

end Carries

section Published
variable {cfg : TableConfig} {w w' : Shared}

/-- Every version in a slot is the latest of the key it was published for. -/
structure Published (cfg : TableConfig) (w : Shared) : Prop where
  latest : ∀ s v, w.vt.slots s = .word v → vtIsVersion v = true →
    ∃ loc, w.vt.publisher s = some loc ∧ cfg.slotFor loc = s ∧ (w.Clearing cfg loc ∨ w.latest loc = v)
  none : w.materialized = false → ∀ s v, w.vt.slots s = .word v → vtIsVersion v = false

/-- A step that publishes nothing. -/
theorem Published.step (h : Published cfg w) (hun : VerificationTable.Unpublished w.vt w'.vt)
    (hmat : w.materialized = true → w'.materialized = true)
    (hkeeps : w.materialized = true → Keeps cfg w w') : Published cfg w' := by
  refine ⟨fun s v hs hv => ?_, fun hnot s v hs => ?_⟩
  · obtain ⟨hold, hturns, hpub⟩ := hun s v hs hv
    obtain ⟨loc, hloc, rfl, hlatest⟩ := h.latest s v hold hv
    refine ⟨loc, hpub.trans hloc, rfl, ?_⟩
    cases hmade : w.materialized with
    | false => exact absurd ((h.none hmade _ v hold).symm.trans hv) Bool.false_ne_true
    | true =>
      rcases hkeeps hmade loc (by rw [hold]; rfl) hturns with hclear | ⟨hdata, hclear⟩
      · exact Or.inl hclear
      · refine Or.inr ?_
        rw [Shared.latest, hdata]
        exact hlatest.resolve_left hclear
  · cases hv : vtIsVersion v with
    | false => rfl
    | true =>
      have hnot' : w.materialized = false := by
        cases hmade : w.materialized with
        | false => rfl
        | true => exact absurd (hnot.symm.trans (hmat hmade)) Bool.false_ne_true
      exact absurd ((h.none hnot' s v (hun s v hs hv).1).symm.trans hv) Bool.false_ne_true

/-- A CAS that installs a version finds its slot undisturbed. -/
theorem undisturbed_of_cas {r : Reader} {seen : Seen} {o : ℕ} (hseen : r.seen = some seen)
    (hobs : seen.observed = .word o) (hslot : w.vt.slots (cfg.slotFor r.loc) = .word o)
    (hw : Watched w (cfg.slotFor r.loc) seen) (hg : Unreturned cfg w r) :
    r.Undisturbed cfg w := by
  refine ⟨seen, hseen, by rw [hobs]; rfl, ?_⟩
  cases hv : vtIsVersion o with
  | false => exact hw.back o hobs hv hslot
  | true => exact (hg seen hseen (hslot.trans hobs.symm)).1 (by rw [hobs]; exact hv)

/-- What the CAS of a read does to the table. -/
theorem populate_cases (cfg : TableConfig) (w : Shared) (r : Reader) (v : ℕ) :
    r.populate cfg w v = w ∨ ∃ seen o, r.seen = some seen ∧ seen.observed = .word o ∧ o ≠ v ∧ vtIsVersion v = true ∧
      w.vt.slots (cfg.slotFor r.loc) = .word o ∧
        r.populate cfg w v = { w with vt := { w.vt with
          slots := Function.update w.vt.slots (cfg.slotFor r.loc) (.word v)
          publisher := Function.update w.vt.publisher (cfg.slotFor r.loc) (some r.loc) } } := by
  rw [Reader.populate]
  split
  · exact Or.inl rfl
  next _ seen hseen =>
    rcases w.vt.populateVersionIfUnchanged_cases r.loc (cfg.slotFor r.loc) seen.observed v with h | ⟨o,
      hobs, hne, hv, hslot, h⟩
    · rw [h]
      exact Or.inl rfl
    · rw [h]
      exact Or.inr ⟨seen, o, hseen, hobs, hne, hv, hslot, rfl⟩

/-- The publication of a read that has the latest version in hand. -/
theorem Published.populate {r : Reader} {v : ℕ} (h : Published cfg w)
    (hmat : r.seen.isSome = true → w.materialized = true)
    (hw : ∀ seen, r.seen = some seen → Watched w (cfg.slotFor r.loc) seen) (hg : Unreturned cfg w r)
    (hlatest : r.Undisturbed cfg w → w.Clearing cfg r.loc ∨ w.latest r.loc = v) :
    Published cfg (r.populate cfg w v) := by
  rcases populate_cases cfg w r v with heq | ⟨seen, o, hseen, hobs, -, -, hslot, heq⟩
  · rw [heq]
    exact h
  have hun := undisturbed_of_cas hseen hobs hslot (hw seen hseen) hg
  rw [heq]
  refine ⟨fun s v' hs hv' => ?_, fun hnot => ?_⟩
  · by_cases hsame : s = cfg.slotFor r.loc
    · subst hsame
      simp only [Function.update_self] at hs ⊢
      obtain rfl := SlotValue.word.inj hs
      exact ⟨r.loc, rfl, rfl, hlatest hun⟩
    · simp only [Function.update_of_ne hsame] at hs ⊢
      exact h.latest s v' hs hv'
  · exact absurd (hnot.symm.trans (hmat (by rw [hseen]; rfl))) Bool.false_ne_true

end Published

end RocksdbJs
