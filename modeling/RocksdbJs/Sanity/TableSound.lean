import RocksdbJs.Sanity.TableData

/-! The invariant of every run whose steps meet `Guarded`, and the steps that keep it. -/

namespace RocksdbJs

namespace Held
variable {w w' : Shared} {us us' : List WriteUnit}

/-- What `Held` reads of a unit. -/
def claim (u : WriteUnit) : List (ℕ × ℕ) × Bool := (u.intents, u.releases)

theorem congr (h : Held w us) (hclaims : us'.map claim = us.map claim) : Held w us' := by
  have hmem : ∀ u' ∈ us', ∃ u ∈ us, u.intents = u'.intents ∧ u.releases = u'.releases := by
    intro u' hu'
    have hclaim : claim u' ∈ us.map claim := hclaims ▸ List.mem_map_of_mem hu'
    obtain ⟨u, hu, heq⟩ := List.mem_map.mp hclaim
    exact ⟨u, hu, congrArg Prod.fst heq, congrArg Prod.snd heq⟩
  have hcount : ∀ t, us'.map (WriteUnit.holds t) = us.map (WriteUnit.holds t) := by
    intro t
    have hcomp : ∀ l : List WriteUnit, l.map (WriteUnit.holds t) = (l.map claim).map fun p =>
        (p.1.map Prod.snd).count t := by
      intro l
      rw [List.map_map]
      rfl
    rw [hcomp, hcomp, hclaims]
  refine ⟨fun t => by rw [hcount]; exact h.count t, fun u' hu' p hp => ?_, h.locks, fun u' hu' hrel p hp => ?_⟩
  · obtain ⟨u, hu, hint, -⟩ := hmem u' hu'
    exact h.intents u hu p (hint ▸ hp)
  · obtain ⟨u, hu, hint, hr⟩ := hmem u' hu'
    exact h.live u hu (hr.trans hrel) p (hint ▸ hp)

theorem pin (h : Held w us) (r : Reader) (now : ℕ+) : Held w (pinUnits w us r now) := by
  apply h.congr
  rw [pinUnits]
  split
  · rfl
  next _ i _ =>
    refine List.ext_getElem? fun k => ?_
    simp only [List.getElem?_map, List.getElem?_modify]
    cases us[k]? with
    | none => rfl
    | some u =>
      split_ifs
      · change some (claim (u.ensureSnapshot w now)) = some (claim u)
        rcases ensureSnapshot_cases u w now with hpin | hpin
        all_goals rw [hpin]
        rfl
      · rfl

theorem clear (h : Held w us) (db cf : ℕ) :
    Held w (us.map fun u => { u with snapshot := u.snapshot.map (Snapshot.clear db cf) }) := by
  apply h.congr
  rw [List.map_map]
  rfl

/-- A unit that has just begun. -/
theorem append (h : Held w us) {u : WriteUnit} (hint : u.intents = []) : Held w (us ++ [u]) := by
  have hcount : ∀ t, u.holds t = 0 := by
    intro t
    rw [WriteUnit.holds, hint]
    rfl
  refine ⟨fun t => ?_, fun u₁ hu₁ p hp => ?_, h.locks, fun u₁ hu₁ hrel p hp => ?_⟩
  · rw [List.map_append, List.sum_append, h.count t]
    simp [hcount t]
  · rcases List.mem_append.mp hu₁ with hold | hnew
    · exact h.intents u₁ hold p hp
    · obtain rfl := List.mem_singleton.mp hnew
      rw [hint] at hp
      cases hp
  · rcases List.mem_append.mp hu₁ with hold | hnew
    · exact h.live u₁ hold hrel p hp
    · obtain rfl := List.mem_singleton.mp hnew
      rw [hint] at hp
      cases hp

theorem vt (h : Held w us) (hvt : w'.vt = w.vt) : Held w' us := by
  refine h.word (by rw [hvt]) (by rw [hvt]) (fun s t hs => ?_) fun u hu hrel p hp hlock => ?_
  · rw [← hvt]
    exact hs
  · rw [hvt]
    exact hlock

theorem populate (h : Held w us) (cfg : TableConfig) (r : Reader) (v : ℕ) : Held (r.populate cfg w v) us := by
  rcases populate_cases cfg w r v with heq | ⟨seen, o, -, -, -, -, hslot, heq⟩
  · rw [heq]
    exact h
  rw [heq]
  refine h.word rfl rfl (fun s t hs => ?_) fun u hu hrel p hp hlock => ?_
  · by_cases hsame : s = cfg.slotFor r.loc
    · subst hsame
      simp at hs
    · simpa [Function.update_of_ne hsame] using hs
  · have hne : p.1 ≠ cfg.slotFor r.loc := by
      intro heq
      rw [heq, hslot] at hlock
      cases hlock
    simpa [Function.update_of_ne hne] using hlock

/-- A slot is settled that no unit between its commit and its releases has locked. -/
theorem settle (h : Held w us) {s gen : ℕ} (hvt : w'.vt = w.vt.settle s gen)
    (hfree : ∀ u ∈ us, u.releases = true → ∀ p ∈ u.intents, p.1 = s → w.vt.slots s ≠ .lock p.2) : Held w' us := by
  refine h.word (by rw [hvt]; rfl) (by rw [hvt]; rfl) (fun s' t hs => ?_) fun u hu hrel p hp hlock => ?_
  · rw [hvt, VerificationTable.settle] at hs
    by_cases hsame : s' = s
    · subst hsame
      simp at hs
    · simpa [Function.update_of_ne hsame] using hs
  · have hne : p.1 ≠ s := by
      intro heq
      exact hfree u hu hrel p hp heq (heq ▸ hlock)
    rw [hvt, VerificationTable.settle]
    simpa [Function.update_of_ne hne] using hlock

end Held

/-- Writers publish nothing. -/
theorem UnitMove.unpublished {cfg : TableConfig} {w w' : Shared} {u u' : WriteUnit} {a : UnitAction}
    (h : UnitMove cfg w u a w' u') :
    VerificationTable.Unpublished w.vt w'.vt := by
  cases h with
  | stay _ hdb hint hsnap hphase => exact .congr rfl rfl rfl
  | lock _ slot hfree hdb hint hsnap hphase => exact VerificationTable.lockSlotForWrite_unpublished _ _ _
  | commit ha hphase => exact .congr rfl rfl rfl
  | release slot t rest hint hfree => exact VerificationTable.releaseWriteIntent_unpublished _ _ _ _

/-- Writes, commits, aborts, reads and verifications: what is left is `clear` and `cancelForDB`. -/
def AccessAction.isAccess : AccessAction → Bool
  | .clear _ _ _ | .sweep _ | .cancelForDB _ | .cancelSlot => false
  | _ => true

namespace Access
variable {cfg : TableConfig} {y y' : Access} {a : AccessAction}

/-- What holds in every state of a run whose steps meet `Guarded`. -/
structure Sound (cfg : TableConfig) (y : Access) : Prop where
  turned : Turned cfg y
  snapped : Snapped y
  held : Held y.shared y.units
  carries : ∀ r ∈ y.readers, r.Carries cfg y.shared
  published : Published cfg y.shared

/-- A step after which the readers are the same. -/
theorem Sound.same_readers (h : Sound cfg y) (hbound : y.shared.settleGen < VT_SETTLED_BIT)
    (hs : y.step cfg a = some y') (hreaders : y'.readers = y.readers) (hsnapped : Snapped y')
    (hheld : Held y'.shared y'.units) (hun : VerificationTable.Unpublished y.shared.vt y'.shared.vt)
    (hkeeps : y.shared.materialized = true → Keeps cfg y.shared y'.shared) : Sound cfg y' := by
  obtain ⟨hturn, hturned⟩ := h.turned.step hbound hs
  refine ⟨hturned, hsnapped, hheld, fun r hr => ?_, h.published.step hun hturn.materialized hkeeps⟩
  have hr' : r ∈ y.readers := hreaders ▸ hr
  exact (h.carries r hr').turn (h.turned.watched r hr') hturn fun hsome => hkeeps (h.turned.materialized r hr' hsome)

/-- A step of a unit. -/
theorem Sound.unit (h : Sound cfg y) {i : ℕ} {action : UnitAction} (hg : Guarded cfg y (.unit i action))
    (hs : y.step cfg (.unit i action) = some y') : Sound cfg y' := by
  have hstep := hs
  obtain ⟨u, hu, hs⟩ := Option.bind_eq_some_iff.mp hs
  split_ifs at hs
  obtain ⟨⟨w', u'⟩, hunit, rfl⟩ := Option.map_eq_some_iff.mp hs
  have hmove := stepUnit_move hunit
  have hgu := hg.2 u hu
  refine h.same_readers hg.1 hstep rfl (h.snapped.unit hu hmove) (h.held.move hu hmove ?_) hmove.unpublished
    fun hmat => hmove.keeps hmat hgu
  rintro rfl
  exact hgu

/-- The publication of a read. -/
theorem Sound.populate (h : Sound cfg y) {j : ℕ} {r : Reader} {v : ℕ} (hr : y.readers[j]? = some r)
    (hg : Unreturned cfg y.shared r) (hpc : r.pc = .gated v ∨ r.pc = .executed v) :
    Published cfg (r.populate cfg y.shared v) := by
  have hmem := List.mem_of_getElem? hr
  refine h.published.populate (h.turned.materialized r hmem) (h.turned.watched r hmem) hg fun hun => ?_
  refine (h.carries r hmem hun).imp_right fun hholds => ?_
  rw [Reader.Holds] at hholds
  rcases hpc with hpc | hpc
  all_goals rw [hpc] at hholds
  all_goals exact hholds

theorem Sound.reader (h : Sound cfg y) {j : ℕ} {action : ReaderAction} (hg : Guarded cfg y (.reader j action))
    (hs : y.step cfg (.reader j action) = some y') : Sound cfg y' := by
  obtain ⟨hturn, hturned⟩ := h.turned.step hg.1 hs
  obtain ⟨r, hr, hs⟩ := Option.bind_eq_some_iff.mp hs
  obtain ⟨⟨w', us', r'⟩, hstep, rfl⟩ := Option.map_eq_some_iff.mp hs
  have hmove := stepReader_move hstep
  have hmem := List.mem_of_getElem? hr
  have hgr := hg.2 r hr
  obtain ⟨hdata, -, hclears, -⟩ := hmove.data
  have hkeeps : Keeps cfg y.shared w' := Keeps.congr hdata hclears
  refine ⟨hturned, h.snapped.reader hr hmove, ?_, fun r₁ hr₁ => ?_, ?_⟩
  · have hpinned : Held y.shared us' := by
      rcases hmove.units with rfl | ⟨now, rfl⟩
      · exact h.held
      · exact h.held.pin r now
    cases hmove with
    | load hpc => exact hpinned.vt (load_vt cfg y.shared r)
    | hit hsync hpc hhits => exact hpinned.vt (load_vt cfg y.shared r)
    | publish v ha hpc => exact hpinned.populate cfg r v
    | resolve v ha hpc hseen => exact hpinned.populate cfg r v
    | _ => exact hpinned
  · rcases List.mem_or_eq_of_mem_set hr₁ with hold | rfl
    · exact (h.carries r₁ hold).turn (h.turned.watched r₁ hold) hturn fun _ => hkeeps
    · exact hmove.carries hgr (h.turned.watched r hmem) (h.snapped.readers r hmem)
        (h.snapped.latest r hmem) (h.carries r hmem)
  · have hload : Published cfg (r.load cfg y.shared).1 := by
      refine h.published.step (.congr ?_ ?_ ?_) (load_unswept cfg y.shared r).materialized fun _ => ?_
      all_goals rcases load_shared cfg y.shared r with heq | heq
      all_goals rw [heq]
      all_goals exact Keeps.congr rfl rfl
    cases hmove with
    | load hpc => exact hload
    | hit hsync hpc hhits => exact hload
    | publish v ha hpc =>
      subst ha
      exact h.populate hr hgr (Or.inl hpc)
    | resolve v ha hpc hseen =>
      subst ha
      exact h.populate hr hgr (Or.inr hpc)
    | _ => exact h.published

/-- A pass of `cancelForDB` over a slot. -/
theorem Sound.cancelSlot (h : Sound cfg y) (hg : Guarded cfg y .cancelSlot)
    (hs : y.step cfg .cancelSlot = some y') : Sound cfg y' := by
  have hstep := hs
  obtain ⟨w', hw, rfl⟩ := Option.map_eq_some_iff.mp hs
  rw [Shared.cancelSlot] at hw
  split at hw
  · cases hw
  next _ db next hcancelling =>
    split_ifs at hw with hlt
    · split at hw
      · obtain rfl := Option.some.inj hw
        exact h.same_readers hg.1 hstep rfl (h.snapped.congr rfl rfl) (h.held.vt rfl) (.congr rfl rfl rfl)
          fun _ => Keeps.congr rfl rfl
      next _ t hcancels =>
        obtain rfl := Option.some.inj hw
        refine h.same_readers hg.1 hstep rfl (h.snapped.congr rfl rfl)
          (h.held.settle rfl fun u hu hrel p hp hslot hlock => ?_)
          (VerificationTable.settle_unpublished _ _ _) fun _ => Keeps.congr rfl rfl
        -- the lock is the tracker's that the pass takes away
        have ht : p.2 = t := by
          rw [VerificationTable.cancels, hlock] at hcancels
          dsimp only at hcancels
          split_ifs at hcancels
          exact Option.some.inj hcancels
        exact hg.2 (db, next) hcancelling t hcancels u hu hrel (ht ▸ hslot ▸ hp)
    · obtain rfl := Option.some.inj hw
      exact h.same_readers hg.1 hstep rfl (h.snapped.congr rfl rfl) (h.held.vt rfl) (.congr rfl rfl rfl)
        fun _ => Keeps.congr rfl rfl

/-- A step of a sweep. -/
theorem Sound.sweep (h : Sound cfg y) {c : ℕ} (hg : Guarded cfg y (.sweep c))
    (hs : y.step cfg (.sweep c) = some y') : Sound cfg y' := by
  have hstep := hs
  obtain ⟨call, hcall, hs⟩ := Option.bind_eq_some_iff.mp hs
  obtain ⟨p, hp, rfl⟩ := Option.map_eq_some_iff.mp hs
  have hkeeps := fun hmat => sweep_keeps hcall hp hmat (hg.2 call hcall)
  rcases sweep_cases hp with ⟨-, -, rfl⟩ | ⟨-, -, rfl⟩ | ⟨gen, next, -, rfl | ⟨-, rfl⟩⟩
  · exact h.same_readers hg.1 hstep rfl (h.snapped.congr rfl rfl) (h.held.vt rfl) (.congr rfl rfl rfl) hkeeps
  · exact h.same_readers hg.1 hstep rfl (h.snapped.congr rfl rfl) (h.held.vt rfl) (.congr rfl rfl rfl) hkeeps
  · refine h.same_readers hg.1 hstep rfl (h.snapped.congr rfl rfl) ?_
      (VerificationTable.settleSlot_unpublished _ _ _) hkeeps
    cases hlock : (y.shared.vt.slots next).isLock with
    | true => exact h.held.vt (by rw [VerificationTable.settleSlot, if_pos hlock])
    | false =>
      refine h.held.settle (s := next) (by rw [VerificationTable.settleSlot, hlock]; rfl)
        fun u hu hrel p hp hslot heq => ?_
      rw [heq] at hlock
      cases hlock
  · exact h.same_readers hg.1 hstep rfl (h.snapped.congr rfl rfl) (h.held.vt rfl) (.congr rfl rfl rfl) hkeeps

theorem Sound.step (h : Sound cfg y) (hg : Guarded cfg y a) (hs : y.step cfg a = some y') : Sound cfg y' := by
  have hstep := hs
  cases a with
  | transaction db cf disableSnapshot pessimistic =>
    obtain rfl := Option.some.inj hs
    refine h.same_readers hg.1 hstep rfl ?_ (h.held.append rfl) (.congr rfl rfl rfl) fun _ => Keeps.congr rfl rfl
    exact h.snapped.begin rfl
  | direct db enabled =>
    obtain rfl := Option.some.inj hs
    refine h.same_readers hg.1 hstep rfl ?_ (h.held.append rfl) (.congr rfl rfl rfl) fun _ => Keeps.congr rfl rfl
    exact h.snapped.begin rfl
  | unit i action => exact h.unit hg hs
  | call loc path txn expected wantsPopulate =>
    obtain ⟨-, hturned⟩ := h.turned.step hg.1 hs
    rw [Access.step] at hs
    split_ifs at hs with hreadable
    obtain rfl := Option.some.inj hs
    refine ⟨hturned, h.snapped.call hreadable, h.held, fun r hr => ?_, h.published⟩
    rcases List.mem_append.mp hr with hold | hnew
    · exact h.carries r hold
    · obtain rfl := List.mem_singleton.mp hnew
      exact fun _ => Or.inr trivial
  | reader j action => exact h.reader hg hs
  | materialize =>
    obtain rfl := Option.some.inj hs
    exact h.same_readers hg.1 hstep rfl (h.snapped.congr rfl rfl) (h.held.vt rfl) (.congr rfl rfl rfl)
      fun _ => Keeps.congr rfl rfl
  | clear db cf enabled =>
    obtain ⟨hturn, hturned⟩ := h.turned.step hg.1 hs
    obtain rfl := Option.some.inj hs
    refine ⟨hturned, h.snapped.clear db cf rfl rfl, (h.held.clear db cf).vt rfl, fun r hr => ?_,
      h.published.step (.congr rfl rfl rfl) id fun _ => clear_keeps db cf enabled rfl rfl⟩
    obtain ⟨r₀, hr₀, rfl⟩ := List.mem_map.mp hr
    exact (h.carries r₀ hr₀).clear db cf enabled rfl rfl rfl
  | sweep c => exact h.sweep hg hs
  | cancelForDB db =>
    rw [Access.step] at hs
    split_ifs at hs
    obtain rfl := Option.some.inj hs
    exact h.same_readers hg.1 hstep rfl (h.snapped.congr rfl rfl) (h.held.vt rfl) (.congr rfl rfl rfl)
      fun _ => Keeps.congr rfl rfl
  | cancelSlot => exact h.cancelSlot hg hs

/-- Any data, no table, and nobody at work. -/
structure Initial (y : Access) : Prop where
  table : y.shared.vt = {}
  materialized : y.shared.materialized = false
  clears : y.shared.clears = []
  units : y.units = []
  readers : y.readers = []

theorem Initial.sound (h : Initial y) : Sound cfg y := by
  refine ⟨⟨⟨fun s v hs hv => ?_, ?_, ?_⟩, ?_, ?_⟩, ⟨?_, ?_, ?_, ?_⟩, ⟨fun t => ?_, ?_, fun s t hs => ?_, ?_⟩, ?_,
    ⟨fun s v hs hv => ?_, fun _ s v hs => ?_⟩⟩
  · rw [h.table] at hs ⊢
    exact Or.inl ⟨(SlotValue.word.inj hs).symm, rfl⟩
  · rw [h.clears]
    exact fun c hc => absurd hc List.not_mem_nil
  · rw [h.clears]
    exact fun _ _ _ _ _ _ _ hc => absurd hc (by simp)
  · rw [h.readers]
    exact fun r hr => absurd hr List.not_mem_nil
  · rw [h.readers]
    exact fun r hr => absurd hr List.not_mem_nil
  · rw [h.units]
    exact fun r hr => absurd hr List.not_mem_nil
  · rw [h.readers]
    exact fun r hr => absurd hr List.not_mem_nil
  · rw [h.readers]
    exact fun r hr => absurd hr List.not_mem_nil
  · rw [h.readers]
    exact fun r hr => absurd hr List.not_mem_nil
  · rw [h.units, h.table]
    rfl
  · rw [h.units]
    exact fun r hr => absurd hr List.not_mem_nil
  · rw [h.table] at hs
    cases hs
  · rw [h.units]
    exact fun r hr => absurd hr List.not_mem_nil
  · rw [h.readers]
    exact fun r hr => absurd hr List.not_mem_nil
  · rw [h.table] at hs
    obtain rfl := SlotValue.word.inj hs
    cases hv
  · rw [h.table] at hs
    obtain rfl := SlotValue.word.inj hs
    rfl

/-- Every run whose steps meet the conditions. -/
theorem Sound.run {y₀ : Access} {acts : List AccessAction} (h0 : Initial y₀)
    (hok : Runs.Along (Access.step cfg) (Guarded cfg) y₀ acts)
    (hrun : Runs.exec (Access.step cfg) y₀ acts = some y) : Sound cfg y :=
  Runs.exec_invariant (fun _ _ _ h hg hs => h.step hg hs) h0.sound hok hrun

section Accesses

theorem step_clears (ha : a.isAccess = true) (hs : y.step cfg a = some y') : y'.shared.clears = y.shared.clears := by
  cases a with
  | transaction db cf disableSnapshot pessimistic =>
    obtain rfl := Option.some.inj hs
    rfl
  | direct db enabled =>
    obtain rfl := Option.some.inj hs
    rfl
  | unit i action =>
    obtain ⟨u, hu, hs⟩ := Option.bind_eq_some_iff.mp hs
    split_ifs at hs
    obtain ⟨⟨w', u'⟩, hstep, rfl⟩ := Option.map_eq_some_iff.mp hs
    exact (stepUnit_move hstep).unswept.clears
  | call loc path txn expected wantsPopulate =>
    rw [Access.step] at hs
    split_ifs at hs
    obtain rfl := Option.some.inj hs
    rfl
  | reader j action =>
    obtain ⟨r, hr, hs⟩ := Option.bind_eq_some_iff.mp hs
    obtain ⟨⟨w', us', r'⟩, hstep, rfl⟩ := Option.map_eq_some_iff.mp hs
    exact (stepReader_move hstep).unswept.clears
  | materialize =>
    obtain rfl := Option.some.inj hs
    rfl
  | clear db cf enabled => cases ha
  | sweep c => cases ha
  | cancelForDB db => cases ha
  | cancelSlot => cases ha

theorem not_clearing (h : y.shared.clears = []) (loc : Location) : ¬ y.shared.Clearing cfg loc := by
  rintro ⟨c, hc, -⟩
  rw [h] at hc
  cases hc

/-- The steps of a run of accesses that meet the conditions. -/
def AccessGuarded (cfg : TableConfig) (y : Access) (a : AccessAction) : Prop := a.isAccess = true ∧ Guarded cfg y a

instance (cfg : TableConfig) (y : Access) (a : AccessAction) : Decidable (AccessGuarded cfg y a) :=
  inferInstanceAs (Decidable (_ ∧ _))

theorem clears_run {y₀ : Access} {acts : List AccessAction} (h0 : Initial y₀)
    (hok : Runs.Along (step cfg) (AccessGuarded cfg) y₀ acts)
    (hrun : Runs.exec (step cfg) y₀ acts = some y) : y.shared.clears = [] := by
  have hstep : ∀ z b z', z.shared.clears = [] → AccessGuarded cfg z b → step cfg z b = some z' →
      z'.shared.clears = [] :=
    fun _ _ _ h hg hs => (step_clears hg.1 hs).trans h
  exact Runs.exec_invariant hstep h0.clears hok hrun

end Accesses

end Access

end RocksdbJs
