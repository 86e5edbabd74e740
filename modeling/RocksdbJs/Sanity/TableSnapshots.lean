import RocksdbJs.Sanity.TableTurns

/-! A snapshot at the latest sequence number sees the latest data. -/

namespace RocksdbJs

section Data
variable {cfg : TableConfig} {w w' : Shared} {u u' : WriteUnit}

/-- What a snapshot of a database sees, if nothing was committed since. -/
def Current (w : Shared) (db : ℕ) (snapshot : Snapshot) : Prop :=
  snapshot.sequence ≤ w.sequence db ∧
    (w.sequence db ≤ snapshot.sequence → ∀ loc, loc.db = db → snapshot.view loc = w.committed loc)

theorem current_now (w : Shared) (db : ℕ) (now : ℕ+) : Current w db ⟨w.sequence db, now, w.committed⟩ :=
  ⟨le_rfl, fun _ _ _ => rfl⟩

theorem Current.congr {db : ℕ} {snapshot : Snapshot} (h : Current w db snapshot) (hseq : w'.sequence = w.sequence)
    (hdata : w'.committed = w.committed) : Current w' db snapshot := by
  rw [Current, hseq, hdata]
  exact h

theorem foldl_update_other {α β γ : Type*} [DecidableEq α] (key : γ → α) (value : γ → β) (l : List γ)
    (f : α → β) {k : α} (h : ∀ x ∈ l, key x ≠ k) :
    l.foldl (fun f x => Function.update f (key x) (value x)) f k = f k := by
  induction l generalizing f with
  | nil => rfl
  | cons x l ih =>
    rw [List.foldl_cons, ih _ fun x' hx' => h x' (List.mem_cons_of_mem _ hx')]
    exact Function.update_of_ne (h x List.mem_cons_self).symm ..

/-- A commit leaves the other keys alone. -/
theorem apply_other (u : WriteUnit) (data : Location → Option Bytes) {loc : Location}
    (h : ∀ x ∈ u.writes, u.location x ≠ loc) :
    u.apply data loc = data loc := foldl_update_other u.location Write.value u.writes data h

theorem apply_other_db (u : WriteUnit) (data : Location → Option Bytes) {loc : Location} (h : loc.db ≠ u.db) :
    u.apply data loc = data loc := by
  apply apply_other
  rintro x - rfl
  exact h rfl

theorem UnitMove.current {a : UnitAction} {db : ℕ} {snapshot : Snapshot} (h : UnitMove cfg w u a w' u')
    (hc : Current w db snapshot) :
    Current w' db snapshot := by
  cases h with
  | stay _ hdb hint hsnap hphase => exact hc
  | lock _ slot hfree hdb hint hsnap hphase => exact hc.congr rfl rfl
  | release slot t rest hint hfree => exact hc.congr rfl rfl
  | commit ha hphase =>
    obtain ⟨hle, hview⟩ := hc
    by_cases hdb : db = u.db
    · subst hdb
      rw [Current]
      simp only [Function.update_self]
      refine ⟨hle.trans (Nat.le_add_right _ _), fun hge loc hloc => ?_⟩
      have hnil : u.writes = [] := List.length_eq_zero_iff.mp (by omega)
      rw [WriteUnit.apply, hnil]
      exact hview (by omega) loc hloc
    · rw [Current]
      simp only [Function.update_of_ne hdb]
      refine ⟨hle, fun hge loc hloc => ?_⟩
      rw [apply_other_db u w.committed fun h => hdb (hloc.symm.trans h)]
      exact hview hge loc hloc

theorem Current.clear {db : ℕ} {snapshot : Snapshot} (h : Current w db snapshot) (db' cf' : ℕ)
    (hseq : w'.sequence = w.sequence) (hdata : w'.committed = clearData db' cf' w.committed) :
    Current w' db (snapshot.clear db' cf') := by
  rw [Current, hseq, hdata]
  refine ⟨h.1, fun hge loc hloc => ?_⟩
  change clearData db' cf' snapshot.view loc = clearData db' cf' w.committed loc
  rw [clearData, clearData, h.2 hge loc hloc]

/-- What a unit of the pinned list is. -/
theorem pinUnits_cases {us : List WriteUnit} {r : Reader} {now : ℕ+} {i : ℕ} (h : (pinUnits w us r now)[i]? = some u') :
    us[i]? = some u' ∨ ∃ u, us[i]? = some u ∧ r.txn = some i ∧ u' = u.ensureSnapshot w now := by
  rw [pinUnits] at h
  split at h
  · exact Or.inl h
  next _ k hk =>
    rw [List.getElem?_modify] at h
    by_cases hki : k = i
    · subst hki
      obtain ⟨u, hu, heq⟩ := Option.map_eq_some_iff.mp h
      rw [if_pos rfl] at heq
      exact Or.inr ⟨u, hu, hk, heq.symm⟩
    · obtain ⟨u, hu, heq⟩ := Option.map_eq_some_iff.mp h
      rw [if_neg hki] at heq
      exact Or.inl (heq ▸ hu)

theorem pinUnits_length (w : Shared) (us : List WriteUnit) (r : Reader) (now : ℕ+) :
    (pinUnits w us r now).length = us.length := by
  rw [pinUnits]
  split
  · rfl
  · exact List.length_modify ..

/-- The unit a read is in, after it has its snapshot. -/
theorem unitOf_pinUnits (w : Shared) (us : List WriteUnit) (r : Reader) (now : ℕ+) :
    unitOf (pinUnits w us r now) r = (unitOf us r).map fun u => u.ensureSnapshot w now := by
  rw [unitOf, unitOf, pinUnits]
  cases htxn : r.txn with
  | none => rfl
  | some i =>
    simp only [Option.bind_some, List.getElem?_modify]
    cases us[i]? with
    | none => rfl
    | some u => simp

theorem ensureSnapshot_db (u : WriteUnit) (w : Shared) (now : ℕ+) : (u.ensureSnapshot w now).db = u.db := by
  rcases ensureSnapshot_cases u w now with h | h
  all_goals rw [h]

theorem UnitMove.snapshot {a : UnitAction} (h : UnitMove cfg w u a w' u') : u'.db = u.db ∧ Repins w u u' := by
  cases h with
  | stay _ hdb hint hsnap hphase => exact ⟨hdb, hsnap⟩
  | lock _ slot hfree hdb hint hsnap hphase => exact ⟨hdb, hsnap⟩
  | release slot t rest hint hfree => exact ⟨rfl, Or.inl rfl⟩
  | commit ha hphase => exact ⟨rfl, Or.inl rfl⟩

theorem populate_data (cfg : TableConfig) (w : Shared) (r : Reader) (v : ℕ) :
    (r.populate cfg w v).committed = w.committed ∧ (r.populate cfg w v).sequence = w.sequence ∧
      (r.populate cfg w v).clears = w.clears ∧ (r.populate cfg w v).vt.trackers = w.vt.trackers := by
  rw [Reader.populate]
  split
  · exact ⟨rfl, rfl, rfl, rfl⟩
  next _ seen _ =>
    refine ⟨rfl, rfl, rfl, ?_⟩
    rcases w.vt.populateVersionIfUnchanged_cases r.loc (cfg.slotFor r.loc) seen.observed v with h | ⟨_, _, _, _, _, h⟩
    all_goals simp only [h]

theorem ReaderMove.data {us us' : List WriteUnit} {r r' : Reader} {a : ReaderAction}
    (h : ReaderMove cfg w us r a w' us' r') :
    w'.committed = w.committed ∧ w'.sequence = w.sequence ∧ w'.clears = w.clears ∧ w'.vt.trackers = w.vt.trackers := by
  have hload : (r.load cfg w).1.committed = w.committed ∧ (r.load cfg w).1.sequence = w.sequence ∧
      (r.load cfg w).1.clears = w.clears ∧ (r.load cfg w).1.vt.trackers = w.vt.trackers := by
    rcases load_shared cfg w r with h | h
    all_goals rw [h]
    all_goals exact ⟨rfl, rfl, rfl, rfl⟩
  cases h with
  | load hpc => exact hload
  | hit hsync hpc hhits => exact hload
  | publish v ha hpc => exact populate_data cfg w r v
  | resolve v ha hpc hseen => exact populate_data cfg w r v
  | _ => exact ⟨rfl, rfl, rfl, rfl⟩

theorem ReaderMove.units {us us' : List WriteUnit} {r r' : Reader} {a : ReaderAction}
    (h : ReaderMove cfg w us r a w' us' r') :
    us' = us ∨ ∃ now, us' = pinUnits w us r now := by
  cases h with
  | pin now hunread => exact Or.inr ⟨now, rfl⟩
  | miss now hunread => exact Or.inr ⟨now, rfl⟩
  | defer now ha hasync hpc => exact Or.inr ⟨now, rfl⟩
  | read now value ha hunread haccepts hvalue => exact Or.inr ⟨now, rfl⟩
  | _ => exact Or.inl rfl

theorem found_frame (r : Reader) (v : ℕ) :
    (r.found v).loc = r.loc ∧ (r.found v).txn = r.txn ∧ (r.found v).snapshot = r.snapshot ∧
    (r.found v).seen = r.seen ∧ (r.found v).expected = r.expected := by
  rw [Reader.found]
  split_ifs
  all_goals exact ⟨rfl, rfl, rfl, rfl, rfl⟩

theorem choose_frame (w : Shared) (r : Reader) (v : ℕ) : ∃ pc, r.choose w v = { r with pc := pc } := by
  rw [Reader.choose]
  split_ifs
  · exact ⟨_, rfl⟩
  · split
    · exact ⟨_, rfl⟩
    · split_ifs
      all_goals exact ⟨_, rfl⟩

theorem ReaderMove.snapshot {us us' : List WriteUnit} {r r' : Reader} {a : ReaderAction}
    (h : ReaderMove cfg w us r a w' us' r') :
    r'.snapshot = r.snapshot ∨ r'.snapshot = (unitOf us' r).bind WriteUnit.snapshot := by
  cases h with
  | load hpc => exact Or.inl (load_frame cfg w r).2.2.1
  | hit hsync hpc hhits => exact Or.inl (load_frame cfg w r).2.2.1
  | miss now hunread => exact Or.inr rfl
  | defer now ha hasync hpc => exact Or.inr rfl
  | read now value ha hunread haccepts hvalue => exact Or.inr (found_frame _ _).2.2.1
  | choose v hpc =>
    obtain ⟨pc, heq⟩ := choose_frame w r v
    rw [heq]
    exact Or.inl rfl
  | _ => exact Or.inl rfl

end Data

namespace Access
variable {cfg : TableConfig} {y y' : Access} {a : AccessAction}

/-- The snapshots of a run. -/
structure Snapped (y : Access) : Prop where
  units : ∀ u ∈ y.units, ∀ snapshot, u.snapshot = some snapshot → Current y.shared u.db snapshot
  readers : ∀ r ∈ y.readers, ∀ snapshot, r.snapshot = some snapshot → Current y.shared r.loc.db snapshot
  txns : ∀ r ∈ y.readers, ∀ i, r.txn = some i → ∃ u, y.units[i]? = some u ∧ u.db = r.loc.db
  latest : ∀ r ∈ y.readers, r.txn = none → r.snapshot = none

theorem Snapped.unit (h : Snapped y) {i : ℕ} {action : UnitAction} {u u' : WriteUnit} {w' : Shared}
    (hu : y.units[i]? = some u) (hmove : UnitMove cfg y.shared u action w' u') :
    Snapped { y with shared := w', units := y.units.set i u' } := by
  have hmem := List.mem_of_getElem? hu
  obtain ⟨hdb, hrepins⟩ := hmove.snapshot
  refine ⟨fun u₁ hu₁ snapshot hsnap => ?_, fun r hr snapshot hsnap => hmove.current (h.readers r hr snapshot hsnap),
    fun r hr k hk => ?_, h.latest⟩
  · rcases List.mem_or_eq_of_mem_set hu₁ with hold | rfl
    · exact hmove.current (h.units u₁ hold snapshot hsnap)
    · rw [hdb]
      rcases hrepins with hsame | hnone | ⟨now, hnow⟩
      · exact hmove.current (h.units u hmem snapshot (hsame.symm.trans hsnap))
      · rw [hnone] at hsnap
        cases hsnap
      · obtain rfl := Option.some.inj (hnow.symm.trans hsnap)
        exact hmove.current (current_now y.shared u.db now)
  · obtain ⟨u₁, hu₁, hdb₁⟩ := h.txns r hr k hk
    by_cases hik : i = k
    · subst hik
      obtain rfl := Option.some.inj (hu.symm.trans hu₁)
      exact ⟨u', by simp [(List.getElem?_eq_some_iff.mp hu).1], hdb.trans hdb₁⟩
    · exact ⟨u₁, by simpa [List.getElem?_set_ne hik] using hu₁, hdb₁⟩

theorem Snapped.pinned (h : Snapped y) (r : Reader) (now : ℕ+) :
    Snapped { y with units := pinUnits y.shared y.units r now } := by
  refine ⟨fun u' hu' snapshot hsnap => ?_, h.readers, fun r₁ hr₁ k hk => ?_, h.latest⟩
  · obtain ⟨i, hi⟩ := List.mem_iff_getElem?.mp hu'
    rcases pinUnits_cases hi with hold | ⟨u, hu, -, rfl⟩
    · exact h.units u' (List.mem_of_getElem? hold) snapshot hsnap
    · rcases ensureSnapshot_cases u y.shared now with hpin | hpin
      all_goals rw [hpin] at hsnap ⊢
      · exact h.units u (List.mem_of_getElem? hu) snapshot hsnap
      · obtain rfl := Option.some.inj hsnap
        exact current_now y.shared u.db now
  · obtain ⟨u, hu, hdb⟩ := h.txns r₁ hr₁ k hk
    have hlt : k < (pinUnits y.shared y.units r now).length := by
      rw [pinUnits_length]
      exact (List.getElem?_eq_some_iff.mp hu).1
    obtain ⟨u', hu'⟩ : ∃ u', (pinUnits y.shared y.units r now)[k]? = some u' := ⟨_, List.getElem?_eq_getElem hlt⟩
    refine ⟨u', hu', ?_⟩
    rcases pinUnits_cases hu' with hold | ⟨u₀, hu₀, -, rfl⟩
    · obtain rfl := Option.some.inj (hu.symm.trans hold)
      exact hdb
    · obtain rfl := Option.some.inj (hu.symm.trans hu₀)
      exact (ensureSnapshot_db u y.shared now).trans hdb

theorem Snapped.congr {w' : Shared} (h : Snapped y) (hdata : w'.committed = y.shared.committed)
    (hseq : w'.sequence = y.shared.sequence) :
    Snapped { y with shared := w' } :=
  ⟨fun u hu snapshot hsnap => (h.units u hu snapshot hsnap).congr hseq hdata,
    fun r hr snapshot hsnap => (h.readers r hr snapshot hsnap).congr hseq hdata, h.txns, h.latest⟩

theorem Snapped.reader (h : Snapped y) {j : ℕ} {action : ReaderAction} {r r' : Reader} {w' : Shared}
    {us' : List WriteUnit} (hr : y.readers[j]? = some r)
    (hmove : ReaderMove cfg y.shared y.units r action w' us' r') :
    Snapped { shared := w', units := us', readers := y.readers.set j r' } := by
  obtain ⟨hdata, hseq, -, -⟩ := hmove.data
  have hpinned : Snapped { y with shared := w', units := us' } := by
    rcases hmove.units with rfl | ⟨now, rfl⟩
    · exact h.congr hdata hseq
    · exact (h.pinned r now).congr hdata hseq
  have hmem := List.mem_of_getElem? hr
  obtain ⟨hloc, htxn, -⟩ := hmove.seen
  refine ⟨hpinned.units, fun r₁ hr₁ snapshot hsnap => ?_, fun r₁ hr₁ k hk => ?_, fun r₁ hr₁ hnone => ?_⟩
  · rcases List.mem_or_eq_of_mem_set hr₁ with hold | rfl
    · exact hpinned.readers r₁ hold snapshot hsnap
    · rw [hloc]
      rcases hmove.snapshot with hsame | hunit
      · exact hpinned.readers r hmem snapshot (hsame.symm.trans hsnap)
      · obtain ⟨u, hu, hus⟩ := Option.bind_eq_some_iff.mp (hunit.symm.trans hsnap)
        obtain ⟨k, hk, hku⟩ := Option.bind_eq_some_iff.mp hu
        obtain ⟨u₀, hu₀, hdb⟩ := hpinned.txns r hmem k hk
        obtain rfl := Option.some.inj (hku.symm.trans hu₀)
        rw [← hdb]
        exact hpinned.units u (List.mem_of_getElem? hku) snapshot hus
  · rcases List.mem_or_eq_of_mem_set hr₁ with hold | rfl
    · exact hpinned.txns r₁ hold k hk
    · rw [hloc]
      exact hpinned.txns r hmem k (htxn.symm.trans hk)
  · rcases List.mem_or_eq_of_mem_set hr₁ with hold | rfl
    · exact h.latest r₁ hold hnone
    · have hnone' := htxn.symm.trans hnone
      rcases hmove.snapshot with hsame | hunit
      · exact hsame.trans (h.latest r hmem hnone')
      · rw [hunit, unitOf, hnone']
        rfl

theorem Snapped.begin (h : Snapped y) {u : WriteUnit} (hnone : u.snapshot = none) :
    Snapped { y with units := y.units ++ [u] } := by
  refine ⟨fun u₁ hu₁ snapshot hsnap => ?_, h.readers, fun r hr k hk => ?_, h.latest⟩
  · rcases List.mem_append.mp hu₁ with hold | hnew
    · exact h.units u₁ hold snapshot hsnap
    · obtain rfl := List.mem_singleton.mp hnew
      rw [hnone] at hsnap
      cases hsnap
  · obtain ⟨u₁, hu₁, hdb⟩ := h.txns r hr k hk
    exact ⟨u₁, by rw [List.getElem?_append_left (List.getElem?_eq_some_iff.mp hu₁).1]; exact hu₁, hdb⟩

theorem Snapped.call (h : Snapped y) {loc : Location} {path : ReadPath} {txn expected : Option ℕ} {wantsPopulate : Bool}
    (hreadable : y.readable loc txn = true) :
    Snapped { y with readers := y.readers ++ [{ loc, path, txn, expected, wantsPopulate }] } := by
  refine ⟨h.units, fun r hr snapshot hsnap => ?_, fun r hr k hk => ?_, fun r hr hnone => ?_⟩
  all_goals rcases List.mem_append.mp hr with hold | hnew
  · exact h.readers r hold snapshot hsnap
  · obtain rfl := List.mem_singleton.mp hnew
    cases hsnap
  · exact h.txns r hold k hk
  · obtain rfl := List.mem_singleton.mp hnew
    change txn = some k at hk
    subst hk
    rw [readable] at hreadable
    cases hu : y.units[k]? with
    | none =>
      rw [hu] at hreadable
      cases hreadable
    | some u =>
      rw [hu] at hreadable
      simp only [Bool.and_eq_true, decide_eq_true_eq] at hreadable
      exact ⟨u, rfl, hreadable.1.2.1⟩
  · exact h.latest r hold hnone
  · obtain rfl := List.mem_singleton.mp hnew
    rfl

theorem Snapped.clear (h : Snapped y) (db cf : ℕ) {w' : Shared} (hseq : w'.sequence = y.shared.sequence)
    (hdata : w'.committed = clearData db cf y.shared.committed) :
    Snapped { shared := w'
              units := y.units.map fun u => { u with snapshot := u.snapshot.map (Snapshot.clear db cf) }
              readers := y.readers.map fun r => { r with snapshot := r.snapshot.map (Snapshot.clear db cf) } } := by
  refine ⟨fun u hu snapshot hsnap => ?_, fun r hr snapshot hsnap => ?_, fun r hr k hk => ?_, fun r hr hnone => ?_⟩
  · obtain ⟨u₀, hu₀, rfl⟩ := List.mem_map.mp hu
    obtain ⟨sn, hsn, rfl⟩ := Option.map_eq_some_iff.mp hsnap
    exact (h.units u₀ hu₀ sn hsn).clear db cf hseq hdata
  · obtain ⟨r₀, hr₀, rfl⟩ := List.mem_map.mp hr
    obtain ⟨sn, hsn, rfl⟩ := Option.map_eq_some_iff.mp hsnap
    exact (h.readers r₀ hr₀ sn hsn).clear db cf hseq hdata
  · obtain ⟨r₀, hr₀, rfl⟩ := List.mem_map.mp hr
    obtain ⟨u, hu, hdb⟩ := h.txns r₀ hr₀ k hk
    exact ⟨{ u with snapshot := u.snapshot.map (Snapshot.clear db cf) }, by rw [List.getElem?_map, hu]; rfl, hdb⟩
  · obtain ⟨r₀, hr₀, rfl⟩ := List.mem_map.mp hr
    change r₀.snapshot.map _ = none
    rw [h.latest r₀ hr₀ hnone]
    rfl

end Access

end RocksdbJs
