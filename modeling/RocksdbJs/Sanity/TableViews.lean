import RocksdbJs.Sanity.TableSound

/-! The versions in the slots and the open snapshots: while the gates of `vtPopulateIfSettled` guard
every publication, an open snapshot sees of the key a version was published for that very version. -/

namespace RocksdbJs

/-- Every open snapshot of the database, from a sequence number on, sees the version of the key. -/
def AllSee (units : List WriteUnit) (loc : Location) (v bound : ℕ) : Prop :=
  ∀ u ∈ units, u.db = loc.db → ∀ snapshot ∈ u.snapshot, bound ≤ snapshot.sequence → versionOf (snapshot.view loc) = v

instance (units : List WriteUnit) (loc : Location) (v bound : ℕ) : Decidable (AllSee units loc v bound) :=
  inferInstanceAs (Decidable (∀ u ∈ units, _ → ∀ snapshot ∈ _, _ → _))

section Snapshots
variable {cfg : TableConfig} {w w' : Shared} {us us' : List WriteUnit} {loc : Location} {v bound : ℕ}

/-- The snapshots after a step are those before it or of the present state. -/
def Follows (w : Shared) (us us' : List WriteUnit) : Prop :=
  ∀ u' ∈ us', ∀ snapshot, u'.snapshot = some snapshot →
    (∃ u ∈ us, u.db = u'.db ∧ u.snapshot = some snapshot) ∨ snapshot.view = w.committed

theorem Follows.refl (w : Shared) (us : List WriteUnit) : Follows w us us := fun u hu _ h => Or.inl ⟨u, hu, rfl, h⟩

theorem AllSee.follows (h : AllSee us loc v bound) (hf : Follows w us us') (hlatest : w.latest loc = v) :
    AllSee us' loc v bound := by
  intro u' hu' hdb snapshot hsnap hle
  rcases hf u' hu' snapshot hsnap with ⟨u, hu, hsame, hold⟩ | hnow
  · exact h u hu (hsame.trans hdb) snapshot hold hle
  · rw [hnow]
    exact hlatest

theorem UnitMove.follows {u u' : WriteUnit} {a : UnitAction} {i : ℕ} (h : UnitMove cfg w u a w' u')
    (hu : us[i]? = some u) :
    Follows w us (us.set i u') := by
  obtain ⟨hdb, hrepins⟩ := h.snapshot
  intro u₁ hu₁ snapshot hsnap
  rcases List.mem_or_eq_of_mem_set hu₁ with hold | rfl
  · exact Or.inl ⟨u₁, hold, rfl, hsnap⟩
  · rcases hrepins with hsame | hnone | ⟨now, hnow⟩
    · exact Or.inl ⟨u, List.mem_of_getElem? hu, hdb.symm, hsame.symm.trans hsnap⟩
    · rw [hnone] at hsnap
      cases hsnap
    · obtain rfl := Option.some.inj (hnow.symm.trans hsnap)
      exact Or.inr rfl

theorem pinUnits_follows (w : Shared) (us : List WriteUnit) (r : Reader) (now : ℕ+) :
    Follows w us (pinUnits w us r now) := by
  intro u' hu' snapshot hsnap
  obtain ⟨i, hi⟩ := List.mem_iff_getElem?.mp hu'
  rcases pinUnits_cases hi with hold | ⟨u, hu, -, rfl⟩
  · exact Or.inl ⟨u', List.mem_of_getElem? hold, rfl, hsnap⟩
  · rcases ensureSnapshot_cases u w now with hpin | hpin
    · rw [hpin] at hsnap ⊢
      exact Or.inl ⟨u, List.mem_of_getElem? hu, rfl, hsnap⟩
    · rw [hpin] at hsnap
      obtain rfl := Option.some.inj hsnap
      exact Or.inr rfl

theorem ReaderMove.follows {r r' : Reader} {a : ReaderAction} (h : ReaderMove cfg w us r a w' us' r') :
    Follows w us us' := by
  rcases h.units with rfl | ⟨now, rfl⟩
  · exact .refl w us'
  · exact pinUnits_follows w us r now

theorem begin_follows (w : Shared) (us : List WriteUnit) {u : WriteUnit} (hnone : u.snapshot = none) :
    Follows w us (us ++ [u]) := by
  intro u₁ hu₁ snapshot hsnap
  rcases List.mem_append.mp hu₁ with hold | hnew
  · exact Or.inl ⟨u₁, hold, rfl, hsnap⟩
  · obtain rfl := List.mem_singleton.mp hnew
    rw [hnone] at hsnap
    cases hsnap

theorem mem_openSnapshots {u : WriteUnit} (hu : u ∈ us) (hdb : u.db = loc.db) {snapshot : Snapshot}
    (h : u.snapshot = some snapshot) :
    snapshot ∈ Reader.openSnapshots us loc.db :=
  List.mem_filterMap.mpr ⟨u, List.mem_filter.mpr ⟨hu, decide_eq_true hdb⟩, h⟩

/-- There is no open snapshot. -/
theorem AllSee.of_none (h : Reader.oldestSnapshot us loc.db = none) : AllSee us loc v bound := by
  intro u hu hdb snapshot hsnap _
  have hmem := mem_openSnapshots hu hdb hsnap
  rw [List.argmin_eq_none.mp h] at hmem
  cases hmem

/-- The oldest snapshot is not older than the bound. -/
theorem AllSee.of_oldest (h : AllSee us loc v bound)
    (hle : bound ≤ (Reader.oldestSnapshot us loc.db).elim 0 Snapshot.sequence) :
    AllSee us loc v 0 := by
  intro u hu hdb snapshot hsnap _
  refine h u hu hdb snapshot hsnap (hle.trans ?_)
  cases hold : Reader.oldestSnapshot us loc.db with
  | none => exact Nat.zero_le _
  | some oldest => exact List.le_of_mem_argmin (mem_openSnapshots hu hdb hsnap) hold

/-- The snapshots at the latest sequence number see the latest version. -/
theorem AllSee.of_current (h : ∀ u ∈ us, ∀ snapshot, u.snapshot = some snapshot → Current w u.db snapshot)
    (hlatest : w.latest loc = v) :
    AllSee us loc v (w.sequence loc.db) := by
  intro u hu hdb snapshot hsnap hle
  rw [(h u hu snapshot hsnap).2 (by rw [hdb]; exact hle) loc hdb.symm]
  exact hlatest

end Snapshots

/-- The gates a read has passed. -/
def Reader.Overseen (units : List WriteUnit) (r : Reader) : Prop :=
  match r.pc with
  | .sequenced v latestSeq => AllSee units r.loc v latestSeq
  | .gated v => AllSee units r.loc v 0
  | _ => True

/-- The version that an asynchronous read is to publish is seen by every open snapshot. -/
def ResolveGuarded (cfg : TableConfig) (y : Access) (r : Reader) : Prop :=
  match r.pc with
  | .executed v => ∀ seen ∈ r.seen, y.shared.vt.slots (cfg.slotFor r.loc) = seen.observed → AllSee y.units r.loc v 0
  | _ => True

instance (cfg : TableConfig) (y : Access) (r : Reader) : Decidable (ResolveGuarded cfg y r) :=
  match h : r.pc with
  | .executed v =>
    decidable_of_iff (∀ seen ∈ r.seen, y.shared.vt.slots (cfg.slotFor r.loc) = seen.observed → AllSee y.units r.loc v 0)
      (by rw [ResolveGuarded, h])
  | .called | .pinned | .loaded | .read _ | .reread | .chosen _ | .dated _ | .sequenced _ _ | .gated _ | .queued
  | .done =>
    .isTrue (by rw [ResolveGuarded, h]; trivial)

namespace Access
variable {cfg : TableConfig} {y y' : Access} {a : AccessAction}

structure Viewed (cfg : TableConfig) (y : Access) : Prop where
  slots : ∀ s v loc, y.shared.vt.slots s = .word v → vtIsVersion v = true → y.shared.vt.publisher s = some loc →
    AllSee y.units loc v 0
  readers : ∀ r ∈ y.readers, r.Undisturbed cfg y.shared → r.Overseen y.units

theorem Sound.published_latest (h : Sound cfg y) (hclears : y.shared.clears = []) {s v : ℕ} {loc : Location}
    (hs : y.shared.vt.slots s = .word v) (hv : vtIsVersion v = true) (hpub : y.shared.vt.publisher s = some loc) :
    cfg.slotFor loc = s ∧ y.shared.latest loc = v := by
  obtain ⟨loc', hpub', hslot, hlatest⟩ := h.published.latest s v hs hv
  obtain rfl := Option.some.inj (hpub.symm.trans hpub')
  exact ⟨hslot, hlatest.resolve_left (not_clearing hclears loc)⟩

theorem Sound.holds (h : Sound cfg y) (hclears : y.shared.clears = []) {r : Reader} (hr : r ∈ y.readers)
    (hun : r.Undisturbed cfg y.shared) : r.Holds y.shared :=
  (h.carries r hr hun).resolve_left (not_clearing hclears r.loc)

/-- The gates that a read has passed stay passed while its slot is undisturbed. -/
theorem Viewed.overseen (h : Viewed cfg y) (hsound : Sound cfg y) (hclears : y.shared.clears = [])
    {w' : Shared} {us' : List WriteUnit} (hturn : Turn y.shared w') (hf : Follows y.shared y.units us')
    {r : Reader} (hr : r ∈ y.readers) (hun : r.Undisturbed cfg w') :
    r.Overseen us' := by
  obtain ⟨hun₀, -, -⟩ := hun.back (hsound.turned.watched r hr) hturn
  have hover := h.readers r hr hun₀
  have hholds := hsound.holds hclears hr hun₀
  rw [Reader.Overseen] at hover ⊢
  rw [Reader.Holds] at hholds
  cases hpc : r.pc with
  | sequenced v latestSeq =>
    rw [hpc] at hover hholds
    exact AllSee.follows hover hf hholds
  | gated v =>
    rw [hpc] at hover hholds
    exact AllSee.follows hover hf hholds
  | _ => trivial

theorem Viewed.unpublished (h : Viewed cfg y) (hsound : Sound cfg y) (hclears : y.shared.clears = [])
    {w' : Shared} {us' : List WriteUnit} (hf : Follows y.shared y.units us')
    (hun : VerificationTable.Unpublished y.shared.vt w'.vt) (s v : ℕ) (loc : Location)
    (hs : w'.vt.slots s = .word v) (hv : vtIsVersion v = true) (hpub : w'.vt.publisher s = some loc) :
    AllSee us' loc v 0 := by
  obtain ⟨hold, -, hsame⟩ := hun s v hs hv
  have hpub₀ := hsame.symm.trans hpub
  exact (h.slots s v loc hold hv hpub₀).follows hf (hsound.published_latest hclears hold hv hpub₀).2

theorem Viewed.same_readers (h : Viewed cfg y) (hsound : Sound cfg y) (hclears : y.shared.clears = [])
    (hturn : Turn y.shared y'.shared) (hf : Follows y.shared y.units y'.units)
    (hun : VerificationTable.Unpublished y.shared.vt y'.shared.vt) (hreaders : y'.readers = y.readers) :
    Viewed cfg y' :=
  ⟨h.unpublished hsound hclears hf hun, fun _ hr hu => h.overseen hsound hclears hturn hf (hreaders ▸ hr) hu⟩

/-- The gates of a read. -/
theorem Viewed.gates (h : Viewed cfg y) (hsound : Sound cfg y) (hclears : y.shared.clears = [])
    {r r' : Reader} {w' : Shared} {us' : List WriteUnit} {action : ReaderAction} (hr : r ∈ y.readers)
    (hmove : ReaderMove cfg y.shared y.units r action w' us' r') (hun : r'.Undisturbed cfg w') :
    r'.Overseen us' := by
  cases hmove with
  | load hpc =>
    rw [Reader.Overseen, (load_frame cfg y.shared r).2.2.2.2]
    trivial
  | read now value ha hunread haccepts hvalue =>
    rw [Reader.found]
    split_ifs
    all_goals trivial
  | choose v hpc =>
    rw [Reader.choose]
    split_ifs
    · trivial
    · split
      · trivial
      · split_ifs
        all_goals trivial
  | alone v hpc hnone => exact AllSee.of_none hnone
  | sequence v hpc =>
    have hholds := hsound.holds hclears hr hun
    rw [Reader.Holds, hpc] at hholds
    exact AllSee.of_current hsound.snapped.units hholds
  | gate v latestSeq hpc hle =>
    have hover := h.readers r hr hun
    rw [Reader.Overseen, hpc] at hover
    exact AllSee.of_oldest hover hle
  | _ => trivial

/-- The publication of a version that every open snapshot sees. -/
theorem Viewed.populate (h : Viewed cfg y) {r : Reader} {v : ℕ}
    (hsee : ∀ seen o, r.seen = some seen → seen.observed = .word o → y.shared.vt.slots (cfg.slotFor r.loc) = .word o →
      AllSee y.units r.loc v 0)
    (s v' : ℕ) (loc : Location) (hs : (r.populate cfg y.shared v).vt.slots s = .word v') (hv : vtIsVersion v' = true)
    (hpub : (r.populate cfg y.shared v).vt.publisher s = some loc) : AllSee y.units loc v' 0 := by
  rcases populate_cases cfg y.shared r v with heq | ⟨seen, o, hseen, hobs, -, -, hslot, heq⟩
  · rw [heq] at hs hpub
    exact h.slots s v' loc hs hv hpub
  rw [heq] at hs hpub
  by_cases hsame : s = cfg.slotFor r.loc
  · subst hsame
    simp only [Function.update_self] at hs hpub
    obtain rfl := SlotValue.word.inj hs
    obtain rfl := Option.some.inj hpub
    exact hsee seen o hseen hobs hslot
  · simp only [Function.update_of_ne hsame] at hs hpub
    exact h.slots s v' loc hs hv hpub

theorem Viewed.reader (h : Viewed cfg y) (hsound : Sound cfg y) (hclears : y.shared.clears = []) {j : ℕ}
    {action : ReaderAction} (hg : Guarded cfg y (.reader j action))
    (hres : ∀ r ∈ y.readers[j]?, action = .resolve → ResolveGuarded cfg y r)
    (hs : y.step cfg (.reader j action) = some y') : Viewed cfg y' := by
  obtain ⟨hturn, -⟩ := hsound.turned.step hg.1 hs
  obtain ⟨r, hr, hs⟩ := Option.bind_eq_some_iff.mp hs
  obtain ⟨⟨w', us', r'⟩, hstep, rfl⟩ := Option.map_eq_some_iff.mp hs
  have hmove := stepReader_move hstep
  have hmem := List.mem_of_getElem? hr
  have hgr := hg.2 r hr
  have hload : VerificationTable.Unpublished y.shared.vt (r.load cfg y.shared).1.vt := by
    rw [load_vt]
    exact .congr rfl rfl rfl
  refine ⟨?_, fun r₁ hr₁ hun => ?_⟩
  · have hf := hmove.follows
    cases hmove with
    | load hpc => exact h.unpublished hsound hclears hf hload
    | hit hsync hpc hhits => exact h.unpublished hsound hclears hf hload
    | publish v ha hpc =>
      subst ha
      refine h.populate fun seen o hseen hobs hslot => ?_
      have hover := h.readers r hmem (undisturbed_of_cas hseen hobs hslot (hsound.turned.watched r hmem seen hseen) hgr)
      rw [Reader.Overseen, hpc] at hover
      exact hover
    | resolve v ha hpc hseen =>
      subst ha
      refine h.populate fun seen o hseen hobs hslot => ?_
      have hsee := hres r hr rfl
      rw [ResolveGuarded, hpc] at hsee
      exact hsee seen hseen (hslot.trans hobs.symm)
    | _ => exact h.unpublished hsound hclears hf (.congr rfl rfl rfl)
  · rcases List.mem_or_eq_of_mem_set hr₁ with hold | rfl
    · exact h.overseen hsound hclears hturn hmove.follows hold hun
    · exact h.gates hsound hclears hmem hmove hun

/-- A step that may publish, of an asynchronous read. -/
def Resolves (cfg : TableConfig) (y : Access) : AccessAction → Prop
  | .reader j .resolve => ∀ r ∈ y.readers[j]?, ResolveGuarded cfg y r
  | _ => True

theorem Viewed.step (h : Viewed cfg y) (hsound : Sound cfg y) (hclears : y.shared.clears = [])
    (hg : AccessGuarded cfg y a) (hres : Resolves cfg y a) (hs : y.step cfg a = some y') : Viewed cfg y' := by
  obtain ⟨ha, hg⟩ := hg
  obtain ⟨hturn, -⟩ := hsound.turned.step hg.1 hs
  cases a with
  | transaction db cf disableSnapshot pessimistic =>
    obtain rfl := Option.some.inj hs
    exact h.same_readers hsound hclears hturn (begin_follows _ _ rfl) (.congr rfl rfl rfl) rfl
  | direct db enabled =>
    obtain rfl := Option.some.inj hs
    exact h.same_readers hsound hclears hturn (begin_follows _ _ rfl) (.congr rfl rfl rfl) rfl
  | unit i action =>
    obtain ⟨u, hu, hs⟩ := Option.bind_eq_some_iff.mp hs
    split_ifs at hs
    obtain ⟨⟨w', u'⟩, hunit, rfl⟩ := Option.map_eq_some_iff.mp hs
    have hmove := stepUnit_move hunit
    exact h.same_readers hsound hclears hturn (hmove.follows hu) hmove.unpublished rfl
  | call loc path txn expected wantsPopulate =>
    rw [Access.step] at hs
    split_ifs at hs
    obtain rfl := Option.some.inj hs
    refine ⟨h.slots, fun r hr hun => ?_⟩
    rcases List.mem_append.mp hr with hold | hnew
    · exact h.readers r hold hun
    · obtain rfl := List.mem_singleton.mp hnew
      trivial
  | reader j action =>
    refine h.reader hsound hclears hg (fun r hr hresolve => ?_) hs
    subst hresolve
    exact hres r hr
  | materialize =>
    obtain rfl := Option.some.inj hs
    exact h.same_readers hsound hclears hturn (.refl _ _) (.congr rfl rfl rfl) rfl
  | clear db cf enabled => cases ha
  | sweep c => cases ha
  | cancelForDB db => cases ha
  | cancelSlot => cases ha

theorem Initial.viewed (h : Initial y) : Viewed cfg y := by
  refine ⟨fun s v loc hs hv => ?_, fun r hr => ?_⟩
  · rw [h.table] at hs
    obtain rfl := SlotValue.word.inj hs
    cases hv
  · rw [h.readers] at hr
    cases hr

end Access

end RocksdbJs
