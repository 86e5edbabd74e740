import RocksdbJs.Proofs.SlotHistory
import RocksdbJs.Spec.FreshChecks

/-! A slot that holds a version holds one that a populate has stored. The number of a caller is compared with the
whole word of the slot, so `FRESH` says that there is a version unless the number has the bits of a
settled-empty marker. -/

namespace RocksdbJs

section Words
variable {v p gen : ℕ}

theorem vtIsSettled_iff :
    vtIsSettled v = true ↔ VT_TAG_BIT + VT_SETTLED_BIT ≤ v := by rw [vtIsSettled, decide_eq_true_eq]

theorem vtIsVersion_iff : vtIsVersion v = true ↔ v ≠ 0 ∧ v < VT_TAG_BIT := by
  rw [vtIsVersion, Bool.and_eq_true, bne_iff_ne, decide_eq_true_eq]

theorem vtIsSettled_encode (gen : ℕ) : vtIsSettled (vtEncodeSettled gen) = true := by
  rw [vtIsSettled_iff, vtEncodeSettled]
  exact Nat.le_add_right _ _

/-- Every word but zero is a version, a lock or a settled-empty marker, and the lock and the marker are read back. -/
structure EncodingsApart : Prop where
  version : ∀ v, vtIsVersion v = true → vtIsLock v = false ∧ vtIsSettled v = false
  lock : ∀ v, vtIsLock v = true → vtIsVersion v = false ∧ vtIsSettled v = false
  settled : ∀ v, vtIsSettled v = true → vtIsVersion v = false ∧ vtIsLock v = false
  all : ∀ v, v ≠ 0 → vtIsVersion v = true ∨ vtIsLock v = true ∨ vtIsSettled v = true
  encodeLock : ∀ p gen, p < 2 ^ 48 → gen < 2 ^ 14 →
    vtIsLock (vtEncodeLock p gen) = true ∧ vtDecodeLock (vtEncodeLock p gen) = p ∧
      vtGenFromLock (vtEncodeLock p gen) = gen
  encodeSettled : ∀ gen, vtIsSettled (vtEncodeSettled gen) = true

theorem encodingsApart : EncodingsApart := by
  have htag : VT_TAG_BIT = 2 ^ 63 := rfl
  have hsettled : VT_SETTLED_BIT = 2 ^ 62 := rfl
  refine ⟨fun v hv => ?_, fun v hv => ?_, fun v hv => ?_, fun v hv => ?_, fun p gen hp hgen => ?_, vtIsSettled_encode⟩
  · rw [vtIsVersion_iff] at hv
    rw [not_vtIsLock_iff, ← Bool.not_eq_true, vtIsSettled_iff]
    omega
  · rw [vtIsLock_iff] at hv
    rw [← Bool.not_eq_true, ← Bool.not_eq_true, vtIsVersion_iff, vtIsSettled_iff]
    omega
  · rw [vtIsSettled_iff] at hv
    rw [not_vtIsLock_iff, ← Bool.not_eq_true, vtIsVersion_iff]
    omega
  · rw [vtIsVersion_iff, vtIsLock_iff, vtIsSettled_iff]
    omega
  · exact ⟨vtIsLock_encode p gen, vtDecodeLock_encode hp gen, vtGenFromLock_encode p hgen⟩

end Words

namespace TrackerTable
variable {y y' z z' : TrackerTable} {slot s v : ℕ} {a : TrackerAction}

/-- What a step puts into a slot, however often the counters have wrapped. -/
def Wrote (a : TrackerAction) (y y' : TrackerTable) (s : ℕ) : Prop :=
  y'.slots s = y.slots s ∨ vtIsLock (y'.slots s) = true ∨ vtIsSettled (y'.slots s) = true ∨
    (a.Populates s (y'.slots s) ∧ vtIsVersion (y'.slots s) = true)

/-- The sweeps go on with markers, and the populates with versions. -/
structure Tagged (y : TrackerTable) : Prop where
  sweeps : ∀ c ∈ y.sweeps, vtIsSettled c.settledValue = true
  populates : ∀ c ∈ y.populates, vtIsVersion c.newVersion = true

/-- A step that stores at most one word. -/
theorem wrote_store {w : ℕ} (hslots : ∀ s, y'.slots s = if s = slot then w else y.slots s)
    (hw : vtIsLock w = true ∨ vtIsSettled w = true ∨ (a.Populates slot w ∧ vtIsVersion w = true)) (s : ℕ) :
    Wrote a y y' s := by
  rw [Wrote, hslots]
  split_ifs with hs
  · subst hs
    exact .inr hw
  · exact .inl rfl

/-- What `cancelForDB` does up to some slot. -/
structure Cancelled (y z : TrackerTable) : Prop where
  sweeps : z.sweeps = y.sweeps
  populates : z.populates = y.populates
  slots : ∀ s, z.slots s = y.slots s ∨ vtIsSettled (z.slots s) = true

theorem Cancelled.cancelSlot {dbPtr i : ℕ} (h : Cancelled y z) (hs : cancelSlot dbPtr z i = some z') :
    Cancelled y z' := by
  obtain ⟨hsweeps, hpopulates, -, ⟨hslots, -⟩ | ⟨hslots, -⟩⟩ := cancelSlot_words hs
  · refine ⟨hsweeps.trans h.sweeps, hpopulates.trans h.populates, fun s => ?_⟩
    rw [hslots]
    exact h.slots s
  · refine ⟨hsweeps.trans h.sweeps, hpopulates.trans h.populates, fun s => ?_⟩
    rw [hslots, Function.update_apply]
    split_ifs
    · exact .inr (vtIsSettled_encode _)
    · exact h.slots s

theorem Cancelled.cancelForDB {dbPtr : ℕ} (hs : y.cancelForDB dbPtr = some y') : Cancelled y y' :=
  Runs.foldlM_preserves (fun _ _ _ h => h.cancelSlot) ⟨rfl, rfl, fun _ => .inl rfl⟩ hs

theorem wrote_release {p : ℕ} (hs : y.releaseWriteIntent slot p = some y') :
    y'.sweeps = y.sweeps ∧ y'.populates = y.populates ∧ ∀ s, Wrote a y y' s := by
  obtain ⟨t, -, rfl⟩ := Option.map_eq_some_iff.mp hs
  dsimp only
  split_ifs
  · set u := ({ y with intents := y.intents.erase (slot, p) }.casSettled slot (vtEncodeLock p t.generation)).put p
      { t with holders := fetchSub32 t.holders, woken := true } with hu
    obtain ⟨hsweeps, hpopulates, -, -⟩ := drop_calls u p { t with holders := fetchSub32 t.holders, woken := true }
    have husweeps : u.sweeps = y.sweeps := by rw [hu, casSettled_eq]; rfl
    have hupopulates : u.populates = y.populates := by rw [hu, casSettled_eq]; rfl
    refine ⟨hsweeps.trans husweeps, hpopulates.trans hupopulates, fun s => ?_⟩
    have hslots : u.slots s = if s = slot ∧ y.slots slot = vtEncodeLock p t.generation then y.settledWord
        else y.slots s :=
      casSettled_slots _ _ _ _
    rw [Wrote, drop_slots, hslots]
    split_ifs
    · exact .inr (.inr (.inl (vtIsSettled_encode _)))
    · exact .inl rfl
  · obtain ⟨hsweeps, hpopulates, -, -⟩ := drop_calls ({ y with intents := y.intents.erase (slot, p) }.put p
      { t with holders := fetchSub32 t.holders }) p { t with holders := fetchSub32 t.holders }
    refine ⟨hsweeps, hpopulates, fun s => .inl ?_⟩
    rw [drop_slots]
    rfl

theorem wrote_lock {dbPtr address : ℕ} (hs : y.lockSlotForWrite slot dbPtr address = some y') :
    y'.sweeps = y.sweeps ∧ y'.populates = y.populates ∧ ∀ s, Wrote a y y' s := by
  rw [lockSlotForWrite] at hs
  dsimp only at hs
  split_ifs at hs
  · obtain ⟨t, -, rfl⟩ := Option.map_eq_some_iff.mp hs
    exact ⟨rfl, rfl, fun s => .inl rfl⟩
  · obtain rfl := Option.some.inj hs
    exact ⟨rfl, rfl, wrote_store (fun s => Function.update_apply ..) (.inl (vtIsLock_encode _ _))⟩

theorem loaded_settled (c : SettleSweep) (v : ℕ) : (SettleSweep.loaded c v).settledValue = c.settledValue := by
  rw [SettleSweep.loaded]
  split_ifs
  · rfl
  · rfl

theorem Tagged.settleTurn (h : Tagged y) {c : SettleSweep} (hc : c ∈ y.sweeps) :
    Tagged (y.settleTurn c) ∧ ∀ s, Wrote a y (y.settleTurn c) s := by
  have hrest : ∀ c' : SettleSweep, c'.settledValue = c.settledValue →
      ∀ d ∈ c' :: y.sweeps.erase c, vtIsSettled d.settledValue = true := by
    intro c' hsame d hd
    rcases List.mem_cons.mp hd with rfl | hd
    · rw [hsame]
      exact h.sweeps c hc
    · exact h.sweeps d (List.mem_of_mem_erase hd)
  rw [TrackerTable.settleTurn]
  dsimp only
  split_ifs with hi
  · split
    next => exact ⟨⟨hrest _ (loaded_settled ..), h.populates⟩, fun s => .inl rfl⟩
    next v hv =>
      split_ifs
      · exact ⟨⟨hrest _ rfl, h.populates⟩, wrote_store (fun s => Function.update_apply ..)
          (.inr (.inl (h.sweeps c hc)))⟩
      · exact ⟨⟨hrest _ (loaded_settled ..), h.populates⟩, fun s => .inl rfl⟩
  · exact ⟨⟨fun d hd => h.sweeps d (List.mem_of_mem_erase hd), h.populates⟩, fun s => .inl rfl⟩

theorem Tagged.populateTurn (h : Tagged y) {c : PopulateCall} (hc : c ∈ y.populates) (spurious : Bool) :
    Tagged (y.populateTurn c spurious) ∧ ∀ s, Wrote (.populateTurn c spurious) y (y.populateTurn c spurious) s := by
  have hrest : ∀ d ∈ y.populates.erase c, vtIsVersion d.newVersion = true :=
    fun d hd => h.populates d (List.mem_of_mem_erase hd)
  rw [TrackerTable.populateTurn]
  split_ifs
  · exact ⟨⟨h.sweeps, hrest⟩, fun s => .inl rfl⟩
  · exact ⟨⟨h.sweeps, hrest⟩, wrote_store (fun s => Function.update_apply ..)
      (.inr (.inr ⟨⟨rfl, rfl⟩, h.populates c hc⟩))⟩
  · refine ⟨⟨h.sweeps, fun d hd => ?_⟩, fun s => .inl rfl⟩
    rcases List.mem_cons.mp hd with rfl | hd
    · exact h.populates c hc
    · exact hrest d hd

theorem wrote_populateIfUnchanged {observed newVersion : ℕ} :
    (y.populateVersionIfUnchanged slot observed newVersion).sweeps = y.sweeps ∧
      (y.populateVersionIfUnchanged slot observed newVersion).populates = y.populates ∧
      ∀ s, Wrote (.populateIfUnchanged slot observed newVersion) y
        (y.populateVersionIfUnchanged slot observed newVersion) s := by
  rw [populateVersionIfUnchanged]
  split_ifs with hskip
  · exact ⟨rfl, rfl, fun s => .inl rfl⟩
  · rw [Bool.or_eq_true, Bool.or_eq_true, not_or, not_or, Bool.not_eq_true, Bool.not_eq_false'] at hskip
    exact ⟨rfl, rfl, wrote_store (fun s => Function.update_apply ..) (.inr (.inr ⟨⟨rfl, rfl⟩, hskip.1.1⟩))⟩
  · exact ⟨rfl, rfl, fun s => .inl rfl⟩

/-- The calls that are under way are as they were. -/
theorem Tagged.keep (h : Tagged y) (hs : y'.sweeps = y.sweeps ∧ y'.populates = y.populates ∧ ∀ s, Wrote a y y' s) :
    Tagged y' ∧ ∀ s, Wrote a y y' s := by
  obtain ⟨hsweeps, hpopulates, hwrote⟩ := hs
  refine ⟨⟨?_, ?_⟩, hwrote⟩
  · rw [hsweeps]
    exact h.sweeps
  · rw [hpopulates]
    exact h.populates

theorem Tagged.step (h : Tagged y) (hs : y.step a = some y') : Tagged y' ∧ ∀ s, Wrote a y y' s := by
  cases a with
  | lock slot dbPtr address =>
    rw [TrackerTable.step] at hs
    split_ifs at hs
    exact h.keep (wrote_lock hs)
  | release slot p =>
    rw [TrackerTable.step] at hs
    split_ifs at hs
    exact h.keep (wrote_release hs)
  | ref slot =>
    rw [TrackerTable.step, refTrackerIfLocked] at hs
    split_ifs at hs
    · obtain ⟨t, -, rfl⟩ := Option.map_eq_some_iff.mp hs
      exact h.keep ⟨rfl, rfl, fun s => .inl rfl⟩
    · obtain rfl := Option.some.inj hs
      exact h.keep ⟨rfl, rfl, fun s => .inl rfl⟩
  | unref p =>
    rw [TrackerTable.step] at hs
    split_ifs at hs
    obtain ⟨t, -, rfl⟩ := Option.map_eq_some_iff.mp hs
    obtain ⟨hsweeps, hpopulates, -, -⟩ := drop_calls { y with refs := y.refs.erase p } p t
    exact h.keep ⟨hsweeps, hpopulates, fun s => .inl (by rw [drop_slots])⟩
  | cancel dbPtr =>
    have hc := Cancelled.cancelForDB hs
    refine h.keep ⟨hc.sweeps, hc.populates, fun s => ?_⟩
    rcases hc.slots s with hsame | hsettled
    · exact .inl hsame
    · exact .inr (.inr (.inl hsettled))
  | populate slot newVersion =>
    rw [TrackerTable.step] at hs
    split_ifs at hs
    obtain rfl := Option.some.inj hs
    rw [populateVersion]
    split_ifs with hversion
    · refine ⟨⟨h.sweeps, fun c hc => ?_⟩, fun s => .inl rfl⟩
      rcases List.mem_cons.mp hc with rfl | hc
      · exact hversion
      · exact h.populates c hc
    · exact ⟨h, fun s => .inl rfl⟩
  | populateTurn c spurious =>
    rw [TrackerTable.step] at hs
    split_ifs at hs with hc
    obtain rfl := Option.some.inj hs
    exact h.populateTurn hc spurious
  | populateIfUnchanged slot observed newVersion =>
    rw [TrackerTable.step] at hs
    split_ifs at hs
    obtain rfl := Option.some.inj hs
    exact h.keep wrote_populateIfUnchanged
  | settleAll =>
    obtain rfl := Option.some.inj hs
    refine ⟨⟨fun c hc => ?_, h.populates⟩, fun s => .inl rfl⟩
    rcases List.mem_cons.mp hc with rfl | hc
    · exact vtIsSettled_encode _
    · exact h.sweeps c hc
  | settleTurn c =>
    rw [TrackerTable.step] at hs
    split_ifs at hs with hc
    obtain rfl := Option.some.inj hs
    exact h.settleTurn hc

section Published
variable {start : TrackerTable} {acts : List TrackerAction}

/-- At some step of the run the CAS of a populate had stored `v` in the slot. -/
def Published (start : TrackerTable) (acts : List TrackerAction) (s v : ℕ) : Prop :=
  ∃ before a after y y', acts = before ++ a :: after ∧ Runs.exec step start before = some y ∧ y.step a = some y' ∧
    a.Populates s v ∧ y'.slots s = v

theorem Published.append {b : TrackerAction} (h : Published start acts s v) : Published start (acts ++ [b]) s v := by
  obtain ⟨before, a, after, y, y', hacts, hrest⟩ := h
  refine ⟨before, a, after ++ [b], y, y', ?_, hrest⟩
  rw [hacts, List.append_assoc, List.cons_append]

theorem exec_snoc (hrun : Runs.exec step start (acts ++ [a]) = some y') :
    ∃ y, Runs.exec step start acts = some y ∧ y.step a = some y' := by
  rw [Runs.exec_append] at hrun
  obtain ⟨y, hy, hlast⟩ := Option.bind_eq_some_iff.mp hrun
  obtain ⟨u, hu, hend⟩ := Runs.exec_cons.mp hlast
  rw [← Option.some.inj hend]
  exact ⟨y, hy, hu⟩

/-- A version that is in a slot was published there. -/
theorem version_published (htagged : Tagged start) (hslots : ∀ s, vtIsVersion (start.slots s) = false)
    (hrun : Runs.exec step start acts = some y) :
    Tagged y ∧ ∀ s, vtIsVersion (y.slots s) = true → Published start acts s (y.slots s) := by
  induction acts using List.reverseRecOn generalizing y with
  | nil =>
    obtain rfl := Option.some.inj hrun
    refine ⟨htagged, fun s hs => ?_⟩
    rw [hslots s] at hs
    cases hs
  | append_singleton acts a ih =>
    obtain ⟨z, hz, hstep⟩ := exec_snoc hrun
    obtain ⟨hz', hpublished⟩ := ih hz
    obtain ⟨hy, hwrote⟩ := hz'.step hstep
    refine ⟨hy, fun s hs => ?_⟩
    rcases hwrote s with hsame | hlock | hsettled | ⟨hpopulates, -⟩
    · rw [hsame] at hs ⊢
      exact (hpublished s hs).append
    · rw [(encodingsApart.version _ hs).1] at hlock
      cases hlock
    · rw [(encodingsApart.version _ hs).2] at hsettled
      cases hsettled
    · exact ⟨acts, a, [], z, y, rfl, hz, hstep, hpopulates, rfl⟩

end Published

section Fresh
variable {size gen settleGen : ℕ}

/-- `FRESH` is the answer to `version` only when the slot holds that version and a populate has published it. -/
def FreshSound (size gen settleGen slot version : ℕ) : Prop :=
  ∀ acts y, Runs.exec step { size, vtGlobalGen := gen, vtGlobalSettleGen := settleGen } acts = some y →
    ∀ c : FreshCheck,
    y.answersFresh none version c = false ∧
    (y.answersFresh (some slot) version c = true → vtIsVersion (y.slots slot) = true ∧
      Published { size, vtGlobalGen := gen, vtGlobalSettleGen := settleGen } acts slot (y.slots slot))

/-- `FRESH` says that the slot holds the number, which is neither zero nor a lock. -/
theorem answersFresh_iff (y : TrackerTable) (slot version : ℕ) (c : FreshCheck) :
    y.answersFresh (some slot) version c = true ↔ version ≠ 0 ∧ vtIsLock version = false ∧ y.slots slot = version := by
  have hparse : parseExpectedVersion version = if vtIsLock version || version == 0 then none else some version := rfl
  by_cases hbad : (vtIsLock version || version == 0) = true
  · rw [if_pos hbad] at hparse
    have hanswer : y.answersFresh (some slot) version c = false := by
      cases c with
      | verifyVersion => simp only [answersFresh, callVerifyVersion, hparse]
      | databaseGetSync wantsPopulate => simp [answersFresh, databaseGetSync, fastPath, hparse]
      | transactionGetSync wantsPopulate => simp [answersFresh, transactionGetSync, fastPath, hparse]
    rw [Bool.or_eq_true, beq_iff_eq] at hbad
    rw [hanswer]
    refine ⟨fun h => (nomatch h), fun h => ?_⟩
    rcases hbad with hlock | hzero
    · rw [h.2.1] at hlock
      cases hlock
    · exact absurd hzero h.1
  · rw [if_neg hbad] at hparse
    rw [Bool.or_eq_true, beq_iff_eq, not_or, Bool.not_eq_true] at hbad
    have hanswer : y.answersFresh (some slot) version c = (y.slots slot == version) := by
      cases c with
      | verifyVersion =>
        have hzero : (version == 0) = false := beq_false_of_ne hbad.2
        simp [answersFresh, callVerifyVersion, hparse, verifyVersion, hbad.1, hzero]
      | databaseGetSync wantsPopulate => simp [answersFresh, databaseGetSync, fastPath, hparse, eq_comm]
      | transactionGetSync wantsPopulate => simp [answersFresh, transactionGetSync, fastPath, hparse, eq_comm]
    rw [hanswer, beq_iff_eq]
    exact ⟨fun h => ⟨hbad.2, hbad.1, h⟩, fun h => h.2.2⟩

theorem answersFresh_none (y : TrackerTable) (version : ℕ) (c : FreshCheck) :
    y.answersFresh none version c = false := by
  cases c with
  | verifyVersion =>
    rw [answersFresh, callVerifyVersion]
    cases parseExpectedVersion version
    all_goals rfl
  | databaseGetSync wantsPopulate => simp [answersFresh, databaseGetSync, fastPath]
  | transactionGetSync wantsPopulate => simp [answersFresh, transactionGetSync, fastPath]

/-- The counter after `k` sweeps that are only begun. -/
theorem settleAlls (start : TrackerTable) (k : ℕ) :
    ∃ y, Runs.exec step start (List.replicate k .settleAll) = some y ∧ y.size = start.size ∧
      y.slots = start.slots ∧ y.heap = start.heap ∧
      y.vtGlobalSettleGen % 2 ^ 62 = (start.vtGlobalSettleGen + k) % 2 ^ 62 := by
  induction k generalizing start with
  | zero => exact ⟨start, rfl, rfl, rfl, rfl, rfl⟩
  | succ k ih =>
    obtain ⟨y, hrun, hsize, hslots, hheap, hgen⟩ := ih start.settleAllSlots
    have hnext : start.settleAllSlots.vtGlobalSettleGen = (start.vtGlobalSettleGen + 1) % 2 ^ 64 := rfl
    refine ⟨y, ?_, hsize, hslots, hheap, ?_⟩
    · rw [List.replicate_succ, Runs.exec_cons]
      exact ⟨start.settleAllSlots, rfl, hrun⟩
    · rw [hgen, hnext]
      omega

/-- A write cycle leaves the next marker in its slot. -/
theorem write_settles (hslot : slot < y.size) (hfree : vtIsLock (y.slots slot) = false) (hheap : y.heap 0 = none) :
    ∃ y', Runs.exec step y [.lock slot 0 0, .release slot 0] = some y' ∧
      y'.slots slot = vtEncodeSettled y.vtGlobalSettleGen := by
  set gen := y.vtGlobalGen % 2 ^ 14 with hgen
  set t : Tracker := { generation := gen, slotIndex := slot, dbPtr := 0, serial := y.made } with ht
  set locked : TrackerTable := { (y.put 0 t).store slot (vtEncodeLock 0 gen) with
    vtGlobalGen := (y.vtGlobalGen + 1) % 2 ^ 16, intents := (slot, 0) :: y.intents, made := y.made + 1 } with hlocked
  have hlock : y.step (.lock slot 0 0) = some locked := by
    rw [TrackerTable.step, if_pos hslot, lockSlotForWrite]
    dsimp only
    rw [hfree, if_neg Bool.false_ne_true, if_pos ⟨by norm_num, hheap⟩]
  have htracker : locked.heap 0 = some t := put_heap y 0 t
  obtain ⟨y', hrelease⟩ : ∃ y', locked.releaseWriteIntent slot 0 = some y' := by
    rw [releaseWriteIntent, htracker]
    exact ⟨_, rfl⟩
  refine ⟨y', ?_, ?_⟩
  · rw [Runs.exec_cons]
    refine ⟨locked, hlock, ?_⟩
    rw [Runs.exec_cons]
    refine ⟨y', ?_, rfl⟩
    rw [TrackerTable.step, if_pos List.mem_cons_self, hrelease]
  · rw [releaseWriteIntent, htracker, Option.map_some] at hrelease
    rw [← Option.some.inj hrelease]
    dsimp only
    have hword : locked.slots slot = vtEncodeLock 0 t.generation := Function.update_self ..
    rw [if_pos rfl, drop_slots]
    refine (casSettled_slots _ _ _ _).trans ?_
    rw [if_pos ⟨rfl, hword⟩]
    rfl

/-- Any settled-empty marker can be in a slot. -/
theorem settled_reachable (gen settleGen : ℕ) (hslot : slot < size) (g : ℕ) :
    ∃ acts y, Runs.exec step { size, vtGlobalGen := gen, vtGlobalSettleGen := settleGen } acts = some y ∧
      y.slots slot = vtEncodeSettled g := by
  obtain ⟨y, hrun, hsize, hslots, hheap, hgen⟩ :=
    settleAlls { size, vtGlobalGen := gen, vtGlobalSettleGen := settleGen } (g + (2 ^ 62 - settleGen % 2 ^ 62))
  have hfree : vtIsLock (y.slots slot) = false := by
    rw [hslots]
    exact (by decide : vtIsLock 0 = false)
  obtain ⟨y', hcycle, hword⟩ := write_settles (by rw [hsize]; exact hslot) hfree (by rw [hheap])
  refine ⟨List.replicate (g + (2 ^ 62 - settleGen % 2 ^ 62)) .settleAll ++ [.lock slot 0 0, .release slot 0], y', ?_,
    ?_⟩
  · rw [Runs.exec_append, hrun]
    exact hcycle
  · have hnext : y.vtGlobalSettleGen % VT_SETTLED_BIT = g % VT_SETTLED_BIT := by
      rw [VT_SETTLED_BIT, hgen]
      dsimp only
      omega
    rw [hword, vtEncodeSettled, vtEncodeSettled, hnext]

/-- `FRESH` says that there is a published version to every number but those with the bits of a settled-empty marker. -/
theorem fresh_sound_iff (hslot : slot < size) {version : ℕ} (hversion : version < 2 ^ 64) :
    FreshSound size gen settleGen slot version ∧ EncodingsApart ↔ vtIsSettled version = false := by
  constructor
  · rintro ⟨hsound, -⟩
    by_contra hmarker
    rw [Bool.not_eq_false] at hmarker
    have hbits := vtIsSettled_iff.mp hmarker
    have htag : VT_TAG_BIT = 2 ^ 63 := rfl
    have hbit : VT_SETTLED_BIT = 2 ^ 62 := rfl
    have hgen : version - (VT_TAG_BIT + VT_SETTLED_BIT) < VT_SETTLED_BIT := by omega
    obtain ⟨acts, y, hrun, hword⟩ := settled_reachable gen settleGen hslot (version - (VT_TAG_BIT + VT_SETTLED_BIT))
    have hheld : y.slots slot = version := by
      rw [hword, vtEncodeSettled, Nat.mod_eq_of_lt hgen]
      omega
    have hfresh : y.answersFresh (some slot) version .verifyVersion = true :=
      (answersFresh_iff ..).mpr ⟨by omega, (encodingsApart.settled _ hmarker).2, hheld⟩
    have hclaimed := ((hsound acts y hrun .verifyVersion).2 hfresh).1
    rw [hheld, (encodingsApart.settled _ hmarker).1] at hclaimed
    cases hclaimed
  · intro hmarker
    refine ⟨fun acts y hrun c => ⟨answersFresh_none y version c, fun hfresh => ?_⟩, encodingsApart⟩
    obtain ⟨hzero, hlock, hheld⟩ := (answersFresh_iff ..).mp hfresh
    have hreal : vtIsVersion (y.slots slot) = true := by
      rw [hheld]
      rcases encodingsApart.all version hzero with hv | hv | hv
      · exact hv
      · rw [hlock] at hv
        cases hv
      · rw [hmarker] at hv
        cases hv
    exact ⟨hreal, (version_published ⟨fun _ hc => absurd hc List.not_mem_nil, fun _ hc => absurd hc List.not_mem_nil⟩
      (fun _ => rfl) hrun).2 slot hreal⟩

/-- The number -2.0000000000000004 has the bits of the marker that the first write leaves. -/
theorem fresh_without_version :
    (Runs.final step { size := 1 } [.lock 0 7 64, .release 0 64]).slots 0 = 0xC000000000000001 ∧
      (Runs.final step { size := 1 } [.lock 0 7 64, .release 0 64]).answersFresh (some 0) 0xC000000000000001
        .verifyVersion = true ∧
      vtIsVersion 0xC000000000000001 = false ∧ ¬ FreshSound 1 0 1 0 0xC000000000000001 := by
  refine ⟨by decide +kernel, by decide +kernel, by decide +kernel, fun hsound => ?_⟩
  have hclaimed := ((hsound _ _ (Runs.exec_final step { size := 1 } [.lock 0 7 64, .release 0 64] (by decide +kernel))
    .verifyVersion).2
    (by decide +kernel)).1
  revert hclaimed
  decide +kernel

theorem fresh_sound_positive : FreshSound 4 0 1 3 0x4000000000000000 ∧ EncodingsApart :=
  (fresh_sound_iff (by decide) (by decide)).mpr (by decide)

end Fresh

end TrackerTable

end RocksdbJs
