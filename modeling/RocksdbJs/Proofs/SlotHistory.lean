import RocksdbJs.Proofs.TrackerLifecycle

/-! The words that a slot has held. A settled word is made once, from a counter that only rises, and
goes into one slot, or into each slot once by the sweep that made it. So a word that a reader has
loaded, if it is no version, is not in its slot again after the slot was locked, swept or
cancelled, and a version is there again only by another populate of it. -/

namespace RocksdbJs

/-- The action is the CAS of a populate of the slot with that version. -/
def TrackerAction.Populates (slot version : ℕ) : TrackerAction → Prop
  | .populateTurn c _ => c.slot = slot ∧ c.newVersion = version
  | .populateIfUnchanged s _ v => s = slot ∧ v = version
  | _ => False

namespace TrackerTable
variable {y y' z z' : TrackerTable} {slot o : ℕ} {a : TrackerAction}

/-- The settle counter has not wrapped after the step. -/
def SettleGenLasts (y : TrackerTable) (a : TrackerAction) : Prop :=
  ∀ y', y.step a = some y' → y'.vtGlobalSettleGen < 2 ^ 62

instance (y : TrackerTable) (a : TrackerAction) : Decidable (y.SettleGenLasts a) :=
  inferInstanceAs (Decidable (∀ y' ∈ y.step a, y'.vtGlobalSettleGen < 2 ^ 62))

/-- What a step can put into a slot without a sweep. -/
def Puts (y : TrackerTable) (a : TrackerAction) (y' : TrackerTable) (s : ℕ) : Prop :=
  y'.slots s = y.slots s ∨ vtIsLock (y'.slots s) = true ∨ (y.settledWord ≤ y'.slots s ∧ y'.slots s < y'.settledWord) ∨
    (a.Populates s (y'.slots s) ∧ vtIsVersion (y'.slots s) = true)

/-- What a step does to the slots and to the sweeps. -/
inductive Effect (y : TrackerTable) (a : TrackerAction) (y' : TrackerTable) : Prop
  | words (sweeps : y'.sweeps = y.sweeps) (puts : ∀ s, Puts y a y' s)
  | begins (sweeps : y'.sweeps = ⟨y.settledWord, 0, none⟩ :: y.sweeps) (slots : y'.slots =
      y.slots) (fresh : y.settledWord < y'.settledWord)
  | ends (c : SettleSweep) (sweeps : y'.sweeps = y.sweeps.erase c) (slots : y'.slots = y.slots)
  | turns (c c' : SettleSweep) (mem : c ∈ y.sweeps) (sweeps : y'.sweeps = c' :: y.sweeps.erase c)
      (same : c'.settledValue = c.settledValue)
      (i : c.i ≤ c'.i) (slots : y'.slots = y.slots ∨ c'.i = c.i + 1 ∧
        y'.slots = Function.update y.slots c.i c.settledValue)

/-- The words that were made are below the next one, and a sweep's word is in no slot that the sweep
has still to come to. -/
structure Minted (y : TrackerTable) : Prop where
  size : y.size ≤ 2 ^ 62
  gen : y.vtGlobalSettleGen < 2 ^ 62
  slots : ∀ s, y.slots s < y.settledWord
  sweeps : ∀ c ∈ y.sweeps, VT_TAG_BIT + VT_SETTLED_BIT ≤ c.settledValue ∧ c.settledValue < y.settledWord
  versions : ∀ c ∈ y.populates, vtIsVersion c.newVersion = true
  distinct : (y.sweeps.map SettleSweep.settledValue).Nodup
  ahead : ∀ c ∈ y.sweeps, ∀ s, c.i ≤ s → y.slots s ≠ c.settledValue

theorem settledWord_eq (h : y.vtGlobalSettleGen < 2 ^ 62) :
    y.settledWord = VT_TAG_BIT + VT_SETTLED_BIT + y.vtGlobalSettleGen := by
  rw [settledWord, vtEncodeSettled, VT_SETTLED_BIT, Nat.mod_eq_of_lt h]

theorem settledWord_le (h : y.vtGlobalSettleGen ≤ y'.vtGlobalSettleGen)
    (hlt : y'.vtGlobalSettleGen < 2 ^ 62) : y.settledWord ≤ y'.settledWord := by
  rw [settledWord_eq hlt, settledWord_eq (h.trans_lt hlt)]
  omega

theorem settledWord_lt (h : y.vtGlobalSettleGen < y'.vtGlobalSettleGen)
    (hlt : y'.vtGlobalSettleGen < 2 ^ 62) : y.settledWord < y'.settledWord := by
  rw [settledWord_eq hlt, settledWord_eq (h.trans hlt)]
  omega

section Effects

theorem casSettled_gen (y : TrackerTable) (slot v : ℕ) :
    (y.casSettled slot v).vtGlobalSettleGen = (y.vtGlobalSettleGen + 1) % 2 ^ 64 := by
  rw [casSettled_eq]

theorem drop_calls (y : TrackerTable) (p : ℕ) (t : Tracker) :
    (y.drop p t).sweeps = y.sweeps ∧ (y.drop p t).populates = y.populates ∧
    (y.drop p t).vtGlobalSettleGen = y.vtGlobalSettleGen ∧ (y.drop p t).size = y.size := by
  rw [drop]
  split_ifs
  · exact ⟨rfl, rfl, rfl, rfl⟩
  · exact ⟨rfl, rfl, rfl, rfl⟩

/-- What `cancelForDB` does with one slot. -/
theorem cancelSlot_words {dbPtr i : ℕ} (hs : cancelSlot dbPtr z i = some z') :
    z'.sweeps = z.sweeps ∧ z'.populates = z.populates ∧ z'.size = z.size ∧
      ((z'.slots = z.slots ∧ z'.vtGlobalSettleGen = z.vtGlobalSettleGen) ∨
        (z'.slots = Function.update z.slots i z.settledWord ∧ z'.vtGlobalSettleGen =
          (z.vtGlobalSettleGen + 1) % 2 ^ 64)) := by
  rw [cancelSlot] at hs
  split_ifs at hs with hlock
  · obtain ⟨t, -, rfl⟩ := Option.map_eq_some_iff.mp hs
    split_ifs
    · rw [vtEncodeLock_decode hlock, casSettled, if_pos rfl]
      exact ⟨rfl, rfl, rfl, Or.inr ⟨rfl, rfl⟩⟩
    · exact ⟨rfl, rfl, rfl, Or.inl ⟨rfl, rfl⟩⟩
  · obtain rfl := Option.some.inj hs
    exact ⟨rfl, rfl, rfl, Or.inl ⟨rfl, rfl⟩⟩

theorem cancelSlots_gen {dbPtr : ℕ} {is : List ℕ} (hlast : z.vtGlobalSettleGen + is.length < 2 ^ 64)
    (hs : is.foldlM (cancelSlot dbPtr) z = some z') :
    z.vtGlobalSettleGen ≤ z'.vtGlobalSettleGen ∧ z'.vtGlobalSettleGen ≤ z.vtGlobalSettleGen + is.length := by
  induction is generalizing z with
  | nil =>
    obtain rfl := Option.some.inj hs
    exact ⟨le_rfl, le_rfl⟩
  | cons i is ih =>
    rw [List.foldlM_cons] at hs
    obtain ⟨u, hu, hrest⟩ := Option.bind_eq_some_iff.mp hs
    rw [List.length_cons] at hlast ⊢
    rcases (cancelSlot_words hu).2.2.2 with ⟨-, hgen⟩ | ⟨-, hgen⟩
    · have := ih (by omega) hrest
      omega
    · rw [Nat.mod_eq_of_lt (by omega)] at hgen
      have := ih (by omega) hrest
      omega

theorem cancelSlots_puts {dbPtr : ℕ} {is : List ℕ} (hgen : y.vtGlobalSettleGen ≤ z.vtGlobalSettleGen)
    (hlt : z'.vtGlobalSettleGen < 2 ^ 62) (hlast : z.vtGlobalSettleGen + is.length < 2 ^ 64)
    (hputs : ∀ s, Puts y a z s) (hs : is.foldlM (cancelSlot dbPtr) z = some z') :
    z'.sweeps = z.sweeps ∧ z'.populates = z.populates ∧ z'.size = z.size ∧ ∀ s, Puts y a z' s := by
  induction is generalizing z with
  | nil =>
    obtain rfl := Option.some.inj hs
    exact ⟨rfl, rfl, rfl, hputs⟩
  | cons i is ih =>
    have hrise := cancelSlots_gen hlast hs
    rw [List.foldlM_cons] at hs
    obtain ⟨u, hu, hrest⟩ := Option.bind_eq_some_iff.mp hs
    rw [List.length_cons] at hlast
    obtain ⟨hsweeps, hpopulates, hsize, hwords⟩ := cancelSlot_words hu
    rw [← hsweeps, ← hpopulates, ← hsize]
    rcases hwords with ⟨hslots, hgen'⟩ | ⟨hslots, hgen'⟩
    · refine ih (by omega) (by omega) (fun s => ?_) hrest
      have hs := hputs s
      rw [Puts, settledWord] at hs ⊢
      rw [settledWord, hslots, hgen']
      exact hs
    · rw [Nat.mod_eq_of_lt (by omega)] at hgen'
      have hu' := (cancelSlots_gen (by omega) hrest).1
      have hlow : y.settledWord ≤ z.settledWord := settledWord_le hgen (by omega)
      have hhigh : z.settledWord < u.settledWord := settledWord_lt (by omega) (by omega)
      refine ih (by omega) (by omega) (fun s => ?_) hrest
      by_cases hi : s = i
      · subst hi
        refine Or.inr (Or.inr (Or.inl ?_))
        rw [hslots, Function.update_self]
        exact ⟨hlow, hhigh⟩
      · have hs := hputs s
        rw [Puts] at hs ⊢
        rw [hslots, Function.update_of_ne hi]
        rcases hs with h | h | ⟨h1, h2⟩ | h
        · exact Or.inl h
        · exact Or.inr (Or.inl h)
        · exact Or.inr (Or.inr (Or.inl ⟨h1, h2.trans hhigh⟩))
        · exact Or.inr (Or.inr (Or.inr h))

/-- A step with its effect: the counter does not fall, and only versions are to be populated. -/
structure Stepped (y : TrackerTable) (a : TrackerAction) (y' : TrackerTable) : Prop where
  size : y'.size = y.size
  rises : y.vtGlobalSettleGen ≤ y'.vtGlobalSettleGen
  versions : (∀ c ∈ y.populates, vtIsVersion c.newVersion = true) → ∀ c ∈ y'.populates, vtIsVersion c.newVersion = true
  effect : Effect y a y'

/-- A step that takes no word from the counter. -/
theorem stepped_of_same (hsize : y'.size = y.size) (hgen : y'.vtGlobalSettleGen = y.vtGlobalSettleGen)
    (hpopulates : y'.populates = y.populates) (effect : Effect y a y') : Stepped y a y' := by
  refine ⟨hsize, hgen.ge, fun h => ?_, effect⟩
  rw [hpopulates]
  exact h

theorem puts_kept (h : y'.slots = y.slots) (s : ℕ) : Puts y a y' s := Or.inl (by rw [h])

theorem stepped_lock {dbPtr address : ℕ} (hs : y.lockSlotForWrite slot dbPtr address = some y') :
    Stepped y (.lock slot dbPtr address) y' := by
  rw [lockSlotForWrite] at hs
  dsimp only at hs
  split_ifs at hs
  · obtain ⟨t, -, rfl⟩ := Option.map_eq_some_iff.mp hs
    exact stepped_of_same rfl rfl rfl (.words rfl (puts_kept rfl))
  · obtain rfl := Option.some.inj hs
    refine stepped_of_same rfl rfl rfl (.words rfl fun s => ?_)
    by_cases hslot : s = slot
    · subst hslot
      refine Or.inr (Or.inl ?_)
      simp only [store, Function.update_self]
      exact vtIsLock_encode _ _
    · exact Or.inl (Function.update_of_ne hslot ..)

theorem stepped_release {p : ℕ} (hm : Minted y) (hlast : y'.vtGlobalSettleGen < 2 ^ 62)
    (hs : y.releaseWriteIntent slot p = some y') :
    Stepped y (.release slot p) y' := by
  obtain ⟨t, -, rfl⟩ := Option.map_eq_some_iff.mp hs
  dsimp only at hlast ⊢
  split_ifs at hlast ⊢
  · set u := ({ y with intents := y.intents.erase (slot, p) }.casSettled slot (vtEncodeLock p t.generation)).put p
      { t with holders := fetchSub32 t.holders, woken := true } with hu
    obtain ⟨hsweeps, hpopulates, hgen, hsize⟩ :=
      drop_calls u p { t with holders := fetchSub32 t.holders, woken := true }
    have hugen : u.vtGlobalSettleGen = y.vtGlobalSettleGen + 1 := by
      have hlt := hm.gen
      refine (casSettled_gen _ _ _).trans (Nat.mod_eq_of_lt ?_)
      change y.vtGlobalSettleGen + 1 < 2 ^ 64
      omega
    have husweeps : u.sweeps = y.sweeps := by rw [hu, casSettled_eq]; rfl
    have hupopulates : u.populates = y.populates := by rw [hu, casSettled_eq]; rfl
    have husize : u.size = y.size := by rw [hu, casSettled_eq]; rfl
    refine ⟨hsize.trans husize, ?_, ?_, .words (hsweeps.trans husweeps) fun s => ?_⟩
    · rw [hgen, hugen]
      exact Nat.le_succ _
    · rw [hpopulates, hupopulates]
      exact id
    · have hslots : u.slots s = if s = slot ∧ y.slots slot = vtEncodeLock p t.generation then y.settledWord
          else y.slots s :=
        casSettled_slots _ _ _ _
      have hfresh : y.settledWord < (u.drop p { t with holders := fetchSub32 t.holders, woken := true }).settledWord :=
        settledWord_lt (by rw [hgen, hugen]; exact Nat.lt_succ_self _) hlast
      rw [Puts, drop_slots, hslots]
      split_ifs
      · exact Or.inr (Or.inr (Or.inl ⟨le_rfl, hfresh⟩))
      · exact Or.inl rfl
  · obtain ⟨hsweeps, hpopulates, hgen, hsize⟩ := drop_calls ({ y with intents := y.intents.erase (slot, p) }.put p
      { t with holders := fetchSub32 t.holders }) p { t with holders := fetchSub32 t.holders }
    exact stepped_of_same hsize hgen hpopulates (.words hsweeps (puts_kept (drop_slots _ _ _)))

theorem stepped_unref {p : ℕ} (hs : y.unrefTracker p = some y') : Stepped y (.unref p) y' := by
  obtain ⟨t, -, rfl⟩ := Option.map_eq_some_iff.mp hs
  obtain ⟨hsweeps, hpopulates, hgen, hsize⟩ := drop_calls { y with refs := y.refs.erase p } p t
  exact stepped_of_same hsize hgen hpopulates (.words hsweeps (puts_kept (drop_slots _ _ _)))

theorem stepped_ref (hs : y.refTrackerIfLocked slot = some y') : Stepped y (.ref slot) y' := by
  rw [refTrackerIfLocked] at hs
  split_ifs at hs
  · obtain ⟨t, -, rfl⟩ := Option.map_eq_some_iff.mp hs
    exact stepped_of_same rfl rfl rfl (.words rfl (puts_kept rfl))
  · obtain rfl := Option.some.inj hs
    exact stepped_of_same rfl rfl rfl (.words rfl (puts_kept rfl))

theorem stepped_cancel {dbPtr : ℕ} (hm : Minted y) (hlast : y'.vtGlobalSettleGen < 2 ^ 62)
    (hs : y.cancelForDB dbPtr = some y') :
    Stepped y (.cancel dbPtr) y' := by
  have hroom : y.vtGlobalSettleGen + (List.range y.size).length < 2 ^ 64 := by
    have hgen := hm.gen
    have hsize := hm.size
    rw [List.length_range]
    omega
  obtain ⟨hsweeps, hpopulates, hsize, hputs⟩ := cancelSlots_puts le_rfl hlast hroom (fun s => Or.inl rfl) hs
  refine ⟨hsize, (cancelSlots_gen hroom hs).1, ?_, .words hsweeps hputs⟩
  rw [hpopulates]
  exact id

theorem stepped_populateTurn {c : PopulateCall} {spurious : Bool} (hm : Minted y) (hc : c ∈ y.populates) :
    Stepped y (.populateTurn c spurious) (y.populateTurn c spurious) := by
  have hversion := hm.versions c hc
  rw [populateTurn]
  split_ifs with hskip hcas
  · exact ⟨rfl, le_rfl, fun h c' hc' => h c' (List.mem_of_mem_erase hc'), .words rfl (puts_kept rfl)⟩
  · refine ⟨rfl, le_rfl, fun h c' hc' => h c' (List.mem_of_mem_erase hc'), .words rfl fun s => ?_⟩
    by_cases hslot : s = c.slot
    · subst hslot
      refine Or.inr (Or.inr (Or.inr ?_))
      simp only [store, Function.update_self]
      exact ⟨⟨rfl, rfl⟩, hversion⟩
    · exact Or.inl (Function.update_of_ne hslot ..)
  · refine ⟨rfl, le_rfl, fun h c' hc' => ?_, .words rfl (puts_kept rfl)⟩
    rcases List.mem_cons.mp hc' with rfl | hc'
    · exact hversion
    · exact h c' (List.mem_of_mem_erase hc')

theorem stepped_populateIfUnchanged {observed newVersion : ℕ} :
    Stepped y (.populateIfUnchanged slot observed newVersion)
    (y.populateVersionIfUnchanged slot observed newVersion) := by
  rw [populateVersionIfUnchanged]
  split_ifs with hskip hcas
  · exact stepped_of_same rfl rfl rfl (.words rfl (puts_kept rfl))
  · refine stepped_of_same rfl rfl rfl (.words rfl fun s => ?_)
    rw [Bool.or_eq_true, Bool.or_eq_true, not_or, not_or, Bool.not_eq_true, Bool.not_eq_false'] at hskip
    by_cases hslot : s = slot
    · subst hslot
      refine Or.inr (Or.inr (Or.inr ?_))
      simp only [store, Function.update_self]
      exact ⟨⟨rfl, rfl⟩, hskip.1.1⟩
    · exact Or.inl (Function.update_of_ne hslot ..)
  · exact stepped_of_same rfl rfl rfl (.words rfl (puts_kept rfl))

theorem loaded_same (c : SettleSweep) (v : ℕ) :
    (SettleSweep.loaded c v).settledValue = c.settledValue ∧ c.i ≤ (SettleSweep.loaded c v).i := by
  rw [SettleSweep.loaded]
  split_ifs
  · exact ⟨rfl, Nat.le_succ _⟩
  · exact ⟨rfl, le_rfl⟩

theorem stepped_settleTurn {c : SettleSweep} (hc : c ∈ y.sweeps) : Stepped y (.settleTurn c) (y.settleTurn c) := by
  rw [settleTurn]
  dsimp only
  split_ifs with hi
  · split
    next =>
      obtain ⟨hsame, hle⟩ := loaded_same c (y.slots c.i)
      exact stepped_of_same rfl rfl rfl (.turns c _ hc rfl hsame hle (Or.inl rfl))
    next v hv =>
      split_ifs
      · exact stepped_of_same rfl rfl rfl (.turns c _ hc rfl rfl (Nat.le_succ _) (Or.inr ⟨rfl, rfl⟩))
      · obtain ⟨hsame, hle⟩ := loaded_same c (y.slots c.i)
        exact stepped_of_same rfl rfl rfl (.turns c _ hc rfl hsame hle (Or.inl rfl))
  · exact stepped_of_same rfl rfl rfl (.ends c rfl rfl)

/-- What any step does. -/
theorem stepped_step (hm : Minted y) (hlast : y'.vtGlobalSettleGen < 2 ^ 62) (hs : y.step a = some y') :
    Stepped y a y' := by
  cases a with
  | lock slot dbPtr address =>
    rw [step] at hs
    split_ifs at hs
    exact stepped_lock hs
  | release slot p =>
    rw [step] at hs
    split_ifs at hs
    exact stepped_release hm hlast hs
  | ref slot =>
    rw [step] at hs
    split_ifs at hs
    exact stepped_ref hs
  | unref p =>
    rw [step] at hs
    split_ifs at hs
    exact stepped_unref hs
  | cancel dbPtr => exact stepped_cancel hm hlast hs
  | populate slot newVersion =>
    rw [step] at hs
    split_ifs at hs
    obtain rfl := Option.some.inj hs
    rw [populateVersion]
    split_ifs with hversion
    · refine ⟨rfl, le_rfl, fun h c hc => ?_, .words rfl (puts_kept rfl)⟩
      rcases List.mem_cons.mp hc with rfl | hc
      · exact hversion
      · exact h c hc
    · exact stepped_of_same rfl rfl rfl (.words rfl (puts_kept rfl))
  | populateTurn c spurious =>
    rw [step] at hs
    split_ifs at hs with hc
    obtain rfl := Option.some.inj hs
    exact stepped_populateTurn hm hc
  | populateIfUnchanged slot observed newVersion =>
    rw [step] at hs
    split_ifs at hs
    obtain rfl := Option.some.inj hs
    exact stepped_populateIfUnchanged
  | settleAll =>
    obtain rfl := Option.some.inj hs
    have hgen := hm.gen
    have hnext : y.settleAllSlots.vtGlobalSettleGen = y.vtGlobalSettleGen + 1 := Nat.mod_eq_of_lt (by omega)
    exact ⟨rfl, by omega, id, .begins rfl rfl (settledWord_lt (by omega) hlast)⟩
  | settleTurn c =>
    rw [step] at hs
    split_ifs at hs with hc
    obtain rfl := Option.some.inj hs
    exact stepped_settleTurn hc

end Effects

section Invariant

theorem lt_settled_of_lock {v : ℕ} (h : vtIsLock v = true) : v < VT_TAG_BIT + VT_SETTLED_BIT := (vtIsLock_iff.mp h).2

theorem lt_settled_of_version {v : ℕ} (h : vtIsVersion v = true) : v < VT_TAG_BIT + VT_SETTLED_BIT := by
  rw [vtIsVersion, Bool.and_eq_true, decide_eq_true_iff] at h
  exact h.2.trans_le (Nat.le_add_right _ _)

theorem Puts.lt (h : Puts y a y' slot) (hm : Minted y) (hle : y.settledWord ≤ y'.settledWord)
    (hlast : y'.vtGlobalSettleGen < 2 ^ 62) :
    y'.slots slot < y'.settledWord := by
  have hbase : VT_TAG_BIT + VT_SETTLED_BIT ≤ y'.settledWord := by
    rw [settledWord_eq hlast]
    exact Nat.le_add_right _ _
  rcases h with h | h | h | h
  · rw [h]
    exact (hm.slots slot).trans_le hle
  · exact (lt_settled_of_lock h).trans_le hbase
  · exact h.2
  · exact (lt_settled_of_version h.2).trans_le hbase

/-- A word made earlier comes into a slot by a sweep or not at all. -/
theorem Puts.ne (h : Puts y a y' slot) {w : ℕ} (hw : w < y.settledWord) (hlock : vtIsLock w = false)
    (hne : y.slots slot ≠ w) :
    y'.slots slot ≠ w ∨ a.Populates slot w ∧ vtIsVersion w = true := by
  rcases h with h | h | h | h
  · exact Or.inl (h ▸ hne)
  · refine Or.inl ?_
    rintro rfl
    exact absurd (hlock.symm.trans h) Bool.false_ne_true
  · exact Or.inl (by omega)
  · by_cases heq : y'.slots slot = w
    · exact Or.inr (heq ▸ h)
    · exact Or.inl heq

/-- A settled word is neither a lock nor a version. -/
theorem settled_not {w : ℕ} (h : VT_TAG_BIT + VT_SETTLED_BIT ≤ w) : vtIsLock w = false ∧ vtIsVersion w = false := by
  refine ⟨not_vtIsLock_iff.mpr fun hlock => absurd hlock.2 (not_lt.mpr h), ?_⟩
  rw [vtIsVersion, Bool.and_eq_false_iff, decide_eq_false_iff_not, not_lt]
  exact Or.inr ((Nat.le_add_right _ _).trans h)

/-- A step keeps what the sweeps have still to do out of the slots. -/
theorem Minted.ahead_step (hm : Minted y) (hs : Effect y a y') :
    ∀ c ∈ y'.sweeps, ∀ s, c.i ≤ s → y'.slots s ≠ c.settledValue := by
  intro c hc s hi
  cases hs with
  | words sweeps puts =>
    rw [sweeps] at hc
    obtain ⟨hbase, hlt⟩ := hm.sweeps c hc
    obtain ⟨hlock, hversion⟩ := settled_not hbase
    rcases (puts s).ne hlt hlock (hm.ahead c hc s hi) with h | ⟨-, h⟩
    · exact h
    · exact absurd (hversion.symm.trans h) Bool.false_ne_true
  | begins sweeps slots fresh =>
    rw [slots]
    rw [sweeps] at hc
    rcases List.mem_cons.mp hc with rfl | hc
    · exact (hm.slots s).ne
    · exact hm.ahead c hc s hi
  | ends d sweeps slots =>
    rw [slots]
    rw [sweeps] at hc
    exact hm.ahead c (List.mem_of_mem_erase hc) s hi
  | turns d d' mem sweeps same i slots =>
    rw [sweeps] at hc
    rcases slots with slots | ⟨hnext, slots⟩
    · rw [slots]
      rcases List.mem_cons.mp hc with rfl | hc
      · rw [same]
        exact hm.ahead d mem s (i.trans hi)
      · exact hm.ahead c (List.mem_of_mem_erase hc) s hi
    · rw [slots]
      rcases List.mem_cons.mp hc with rfl | hc
      · -- the sweep has left its slot
        rw [Function.update_of_ne (by omega), same]
        exact hm.ahead d mem s (i.trans hi)
      · by_cases hslot : s = d.i
        · subst hslot
          rw [Function.update_self]
          intro heq
          -- two sweeps with one word would be one sweep
          have hperm := (List.perm_cons_erase mem).map SettleSweep.settledValue
          have hnodup := hperm.nodup_iff.mp hm.distinct
          rw [List.map_cons, List.nodup_cons] at hnodup
          exact hnodup.1 (heq ▸ List.mem_map_of_mem hc)
        · rw [Function.update_of_ne hslot]
          exact hm.ahead c (List.mem_of_mem_erase hc) s hi

theorem Minted.step (hm : Minted y) (hok : y.SettleGenLasts a) (hs : y.step a = some y') : Minted y' := by
  have hlast := hok y' hs
  have hstep := stepped_step hm hlast hs
  have hle : y.settledWord ≤ y'.settledWord := settledWord_le hstep.rises hlast
  have hahead := hm.ahead_step hstep.effect
  refine ⟨by rw [hstep.size]; exact hm.size, hlast, fun s => ?_, fun c hc => ?_, hstep.versions hm.versions, ?_, hahead⟩
  · cases hstep.effect with
    | words sweeps puts => exact (puts s).lt hm hle hlast
    | begins sweeps slots fresh =>
      rw [slots]
      exact (hm.slots s).trans_le hle
    | ends c sweeps slots =>
      rw [slots]
      exact (hm.slots s).trans_le hle
    | turns c c' mem sweeps same i slots =>
      rcases slots with slots | ⟨-, slots⟩
      · rw [slots]
        exact (hm.slots s).trans_le hle
      · rw [slots]
        by_cases hslot : s = c.i
        · subst hslot
          rw [Function.update_self]
          exact (hm.sweeps c mem).2.trans_le hle
        · rw [Function.update_of_ne hslot]
          exact (hm.slots s).trans_le hle
  · cases hstep.effect with
    | words sweeps puts =>
      rw [sweeps] at hc
      exact ⟨(hm.sweeps c hc).1, (hm.sweeps c hc).2.trans_le hle⟩
    | begins sweeps slots fresh =>
      rw [sweeps] at hc
      rcases List.mem_cons.mp hc with rfl | hc
      · refine ⟨?_, fresh⟩
        change _ ≤ y.settledWord
        rw [settledWord_eq hm.gen]
        exact Nat.le_add_right _ _
      · exact ⟨(hm.sweeps c hc).1, (hm.sweeps c hc).2.trans_le hle⟩
    | ends d sweeps slots =>
      rw [sweeps] at hc
      have hd := hm.sweeps c (List.mem_of_mem_erase hc)
      exact ⟨hd.1, hd.2.trans_le hle⟩
    | turns d d' mem sweeps same i slots =>
      rw [sweeps] at hc
      rcases List.mem_cons.mp hc with rfl | hc
      · rw [same]
        exact ⟨(hm.sweeps d mem).1, (hm.sweeps d mem).2.trans_le hle⟩
      · have hd := hm.sweeps c (List.mem_of_mem_erase hc)
        exact ⟨hd.1, hd.2.trans_le hle⟩
  · cases hstep.effect with
    | words sweeps puts =>
      rw [sweeps]
      exact hm.distinct
    | begins sweeps slots fresh =>
      rw [sweeps, List.map_cons, List.nodup_cons]
      refine ⟨fun hmem => ?_, hm.distinct⟩
      obtain ⟨c, hc, heq⟩ := List.mem_map.mp hmem
      exact absurd heq (hm.sweeps c hc).2.ne
    | ends c sweeps slots =>
      rw [sweeps]
      exact hm.distinct.sublist (List.erase_sublist.map _)
    | turns c c' mem sweeps same i slots =>
      have hperm := (List.perm_cons_erase mem).map SettleSweep.settledValue
      rw [sweeps, List.map_cons, same, ← List.map_cons]
      exact hperm.nodup_iff.mp hm.distinct

/-- A word that was in the slot: it is not made again, and a sweep with it has passed the slot. -/
structure Seen (slot o : ℕ) (y : TrackerTable) : Prop where
  made : o < y.settledWord
  behind : ∀ c ∈ y.sweeps, c.settledValue = o → slot < c.i

theorem Minted.seen (hm : Minted y) (slot : ℕ) : Seen slot (y.slots slot) y := by
  refine ⟨hm.slots slot, fun c hc heq => ?_⟩
  by_contra hle
  exact hm.ahead c hc slot (not_lt.mp hle) heq.symm

theorem Seen.step (h : Seen slot o y) (hm : Minted y) (hok : y.SettleGenLasts a) (hs : y.step a = some y') :
    Seen slot o y' := by
  have hlast := hok y' hs
  have hstep := stepped_step hm hlast hs
  refine ⟨h.made.trans_le (settledWord_le hstep.rises hlast), fun c hc heq => ?_⟩
  cases hstep.effect with
  | words sweeps puts =>
    rw [sweeps] at hc
    exact h.behind c hc heq
  | begins sweeps slots fresh =>
    rw [sweeps] at hc
    rcases List.mem_cons.mp hc with rfl | hc
    · exact absurd heq h.made.ne'
    · exact h.behind c hc heq
  | ends d sweeps slots =>
    rw [sweeps] at hc
    exact h.behind c (List.mem_of_mem_erase hc) heq
  | turns d d' mem sweeps same i slots =>
    rw [sweeps] at hc
    rcases List.mem_cons.mp hc with rfl | hc
    · exact (h.behind d mem (same.symm.trans heq)).trans_le i
    · exact h.behind c (List.mem_of_mem_erase hc) heq

/-- A word that has gone from its slot comes back with a populate of it or not at all. -/
theorem Seen.gone (h : Seen slot o y) (hm : Minted y) (hok : y.SettleGenLasts a) (hs : y.step a = some y')
    (hlock : vtIsLock o = false) (hne : y.slots slot ≠ o) :
    y'.slots slot ≠ o ∨ a.Populates slot o ∧ vtIsVersion o = true := by
  have hstep := stepped_step hm (hok y' hs) hs
  cases hstep.effect with
  | words sweeps puts => exact (puts slot).ne h.made hlock hne
  | begins sweeps slots fresh => exact Or.inl (slots ▸ hne)
  | ends c sweeps slots => exact Or.inl (slots ▸ hne)
  | turns c c' mem sweeps same i slots =>
    refine Or.inl ?_
    rcases slots with slots | ⟨-, slots⟩
    · rw [slots]
      exact hne
    · rw [slots]
      by_cases hslot : slot = c.i
      · subst hslot
        rw [Function.update_self]
        exact fun heq => absurd (h.behind c mem heq) (lt_irrefl _)
      · rw [Function.update_of_ne hslot]
        exact hne

end Invariant

/-- The step locks the slot, or releases a write intent while the slot is locked, or takes a sweep past it,
or is a cancel that finds the slot locked by its database. So it may be any step of a write cycle, the last
release too. -/
def Passes (slot : ℕ) (y : TrackerTable) : TrackerAction → Prop
  | .lock s _ _ => s = slot
  | .release s _ => s = slot ∧ vtIsLock (y.slots slot) = true
  | .settleTurn c => c.i = slot ∧ slot < y.size ∧ (vtIsLock (y.slots slot) = true ∨ c.v = some (y.slots slot))
  | .cancel dbPtr =>
    vtIsLock (y.slots slot) = true ∧ ∃ t, y.heap (vtDecodeLock (y.slots slot)) = some t ∧ t.dbPtr = dbPtr
  | _ => False

/-- After such a step the word is not in the slot. -/
theorem Seen.passed (h : Seen slot o y) (hm : Minted y) (hok : y.SettleGenLasts a)
    (hs : y.step a = some y') (hlock : vtIsLock o = false) (hpass : y.Passes slot a) : y'.slots slot ≠ o := by
  -- from a locked slot the word has gone already
  have hlocked : vtIsLock (y.slots slot) = true → (∀ v, ¬ a.Populates slot v) → y'.slots slot ≠ o := by
    intro hl hno
    have hne : y.slots slot ≠ o := by
      rintro rfl
      exact absurd (hlock.symm.trans hl) Bool.false_ne_true
    exact (h.gone hm hok hs hlock hne).resolve_right fun hp => hno o hp.1
  cases a with
  | lock s dbPtr address =>
    obtain rfl : s = slot := hpass
    by_cases hl : vtIsLock (y.slots s) = true
    · exact hlocked hl fun _ hp => hp
    · rw [TrackerTable.step] at hs
      split_ifs at hs
      rw [lockSlotForWrite] at hs
      dsimp only at hs
      rw [if_neg hl] at hs
      split_ifs at hs
      obtain rfl := Option.some.inj hs
      simp only [store, Function.update_self]
      rintro rfl
      rw [vtIsLock_encode] at hlock
      cases hlock
  | settleTurn c =>
    obtain ⟨rfl, hi, hcase⟩ := hpass
    by_cases hl : vtIsLock (y.slots c.i) = true
    · exact hlocked hl fun _ hp => hp
    · have hv := hcase.resolve_left hl
      rw [TrackerTable.step] at hs
      split_ifs at hs with hc
      obtain rfl := Option.some.inj hs
      rw [settleTurn, if_pos hi, hv]
      dsimp only
      rw [if_pos rfl]
      simp only [store, Function.update_self]
      exact fun heq => absurd (h.behind c hc heq) (lt_irrefl _)
  | cancel dbPtr => exact hlocked hpass.1 fun _ hp => hp
  | release s p => exact hlocked hpass.2 fun _ hp => hp
  | ref s => exact hpass.elim
  | unref p => exact hpass.elim
  | populate s v => exact hpass.elim
  | populateTurn c spurious => exact hpass.elim
  | populateIfUnchanged s o' v => exact hpass.elim
  | settleAll => exact hpass.elim

theorem minted_new {size settleGen : ℕ} (gen : ℕ) (hsize : size ≤ 2 ^ 62) (hgen : settleGen < 2 ^ 62) :
    Minted { size, vtGlobalGen := gen, vtGlobalSettleGen := settleGen } := by
  refine ⟨hsize, hgen, fun s => ?_, fun c hc => ?_, fun c hc => ?_, List.nodup_nil, fun c hc => ?_⟩
  · rw [settledWord_eq hgen]
    exact Nat.add_pos_left (by decide) _
  · cases hc
  · cases hc
  · cases hc

/-- In the run a populate puts the version into the slot, where it is not at that time. -/
def Reinstalled (slot version : ℕ) (y : TrackerTable) (acts : List TrackerAction) : Prop :=
  ∃ front a back z z', acts = front ++ a :: back ∧ Runs.exec step y front = some z ∧ z.step a = some z' ∧
    a.Populates slot version ∧ z.slots slot ≠ version ∧ z'.slots slot = version

theorem Minted.run (hm : Minted y) {acts : List TrackerAction}
    (hok : Runs.Along TrackerTable.step SettleGenLasts y acts)
    (hrun : Runs.exec TrackerTable.step y acts = some y') : Minted y' :=
  Runs.exec_invariant (fun _ _ _ h hg hs => h.step hg hs) hm hok hrun

theorem Seen.run (h : Seen slot o y) (hm : Minted y) {acts : List TrackerAction}
    (hok : Runs.Along TrackerTable.step SettleGenLasts y acts)
    (hrun : Runs.exec TrackerTable.step y acts = some y') : Seen slot o y' := by
  have hstep : ∀ z a z', Minted z ∧ Seen slot o z → z.SettleGenLasts a → z.step a = some z' →
      Minted z' ∧ Seen slot o z' :=
    fun z a z' h hg hs => ⟨h.1.step hg hs, h.2.step h.1 hg hs⟩
  exact (Runs.exec_invariant hstep ⟨hm, h⟩ hok hrun).2

/-- Over a whole run, too. -/
theorem Seen.gone_run (h : Seen slot o y) (hm : Minted y) {acts : List TrackerAction}
    (hok : Runs.Along TrackerTable.step SettleGenLasts y acts)
    (hrun : Runs.exec TrackerTable.step y acts = some y') (hlock : vtIsLock o = false)
    (hne : y.slots slot ≠ o) :
    y'.slots slot ≠ o ∨ Reinstalled slot o y acts ∧ vtIsVersion o = true := by
  induction acts generalizing y with
  | nil =>
    obtain rfl := Option.some.inj hrun
    exact Or.inl hne
  | cons a acts ih =>
    obtain ⟨z, hz, hrest⟩ := Runs.exec_cons.mp hrun
    by_cases heq : z.slots slot = o
    · obtain ⟨hpopulates, hversion⟩ := (h.gone hm hok.1 hz hlock hne).resolve_left fun hne' => hne' heq
      exact Or.inr ⟨⟨[], a, acts, y, z, rfl, rfl, hz, hpopulates, hne, heq⟩, hversion⟩
    · rcases ih (h.step hm hok.1 hz) (hm.step hok.1 hz) (hok.2 z hz) hrest heq with hgone | ⟨⟨front, b, back, u, u',
        rfl, hu, hub⟩, hversion⟩
      · exact Or.inl hgone
      · exact Or.inr ⟨⟨a :: front, b, back, u, u', rfl, Runs.exec_cons.mpr ⟨z, hz, hu⟩, hub⟩, hversion⟩

/-- The CAS of the populate changes the slot only if the observed word is there. -/
theorem observed_of_changes {observed newVersion : ℕ}
    (h : (y.populateVersionIfUnchanged slot observed newVersion).slots slot ≠ y.slots slot) :
    y.slots slot = observed := by
  rw [populateVersionIfUnchanged] at h
  split_ifs at h with hskip hcas
  · exact absurd rfl h
  · exact hcas
  · exact absurd rfl h

/-- A reader loads a word that is no lock. If its slot is locked, released, swept or cancelled afterwards, the
reader's populate does not change the slot, unless the word is a version that a populate has put there
again after that step. -/
theorem populate_after_cycle {size gen settleGen slot newVersion : ℕ}
    {before front back : List TrackerAction} {e : TrackerAction} {loaded passing passed y : TrackerTable}
    (hsize : size ≤ 2 ^ 62) (hgen : settleGen < 2 ^ 62)
    (hok : Runs.Along step SettleGenLasts { size, vtGlobalGen := gen, vtGlobalSettleGen := settleGen } (before ++
      (front ++ e :: back)))
    (hload : Runs.exec step { size, vtGlobalGen := gen, vtGlobalSettleGen := settleGen } before = some loaded)
    (hlock : vtIsLock (loaded.slots slot) = false) (hfront : Runs.exec step loaded front = some passing)
    (hpass : passing.Passes slot e) (hstep : passing.step e = some passed)
    (hback : Runs.exec step passed back = some y) :
    (vtIsVersion (loaded.slots slot) = false →
      (y.populateVersionIfUnchanged slot (loaded.slots slot) newVersion).slots slot = y.slots slot) ∧
    ((y.populateVersionIfUnchanged slot (loaded.slots slot) newVersion).slots slot ≠ y.slots slot →
      Reinstalled slot (loaded.slots slot) passed back) := by
  obtain ⟨hok1, hok2⟩ := hok.append hload
  obtain ⟨hok3, hok4⟩ := hok2.append hfront
  have hm := (minted_new gen hsize hgen).run hok1 hload
  have hm' := hm.run hok3 hfront
  have hseen := (hm.seen slot).run hm hok3 hfront
  have hgone := hseen.passed hm' hok4.1 hstep hlock hpass
  have hend := (hseen.step hm' hok4.1 hstep).gone_run (hm'.step hok4.1 hstep) (hok4.2 passed hstep) hback hlock hgone
  constructor
  · intro hversion
    by_contra hchange
    rcases hend with hne | ⟨-, hv⟩
    · exact hne (observed_of_changes hchange)
    · exact absurd (hversion.symm.trans hv) Bool.false_ne_true
  · intro hchange
    exact (hend.resolve_left fun hne => hne (observed_of_changes hchange)).1

/-- A write cycle on a slot that the reader saw empty leaves it settled, and the reader's populate comes after
the last release. -/
theorem populate_after_cycle_emptySlot : ∃ y, Runs.exec step { size := 1 } [.lock 0 7 64, .release 0 64] = some y ∧
    y.slots 0 = vtEncodeSettled 1 ∧ (y.populateVersionIfUnchanged 0 0 9).slots 0 = y.slots 0 := by
  have hrun := Runs.exec_final step { size := 1 } [.lock 0 7 64, .release 0 64] (by decide +kernel)
  have hlocked := Runs.exec_final step { size := 1 } [.lock 0 7 64] (by decide +kernel)
  have hreleased := Runs.step_final step (Runs.final step { size := 1 } [.lock 0 7 64])
    (.release 0 64) (by decide +kernel)
  refine ⟨_, hrun, by decide +kernel, ?_⟩
  exact (@populate_after_cycle 1 0 1 0 9 [] [.lock 0 7 64] [] (.release 0 64) { size := 1 } _ _ _ (by decide)
    (by decide)
    (by decide +kernel) rfl rfl hlocked ⟨rfl, by decide +kernel⟩ hreleased rfl).1 rfl

end TrackerTable

end RocksdbJs
