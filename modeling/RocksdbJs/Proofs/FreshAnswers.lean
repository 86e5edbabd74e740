import RocksdbJs.Proofs.PublishedLatest
import RocksdbJs.Sanity.TableAnswers

/-! `FRESH` inside a transaction. The fast path answers from the slot alone, so it rests on two
things: what is in the slot is what every open snapshot sees, which the two gates of
`vtPopulateIfSettled` ensure and `resolveGetResult`, which has none, does not; and it was published
for the key that is asked for. The other paths answer from the value they read, and are right as
long as the transaction is the same when the answer comes. -/

namespace RocksdbJs

/-- The fast path of a read in a transaction: the expected version was published for its key, and the
transaction has not written that. -/
def HitGuarded (cfg : TableConfig) (y : Access) (r : Reader) : Prop :=
  r.async = false → r.txn.isSome = true → ∀ e ∈ r.expected, y.shared.vt.slots (cfg.slotFor r.loc) = .word e →
    vtIsVersion e = true ∧ y.shared.vt.publisher (cfg.slotFor r.loc) = some r.loc ∧ ownWrites y.units r = false

instance (cfg : TableConfig) (y : Access) (r : Reader) : Decidable (HitGuarded cfg y r) :=
  inferInstanceAs (Decidable (_ → _ → ∀ e ∈ r.expected, _ → _ ∧ _ ∧ _))

namespace Access
variable {cfg : TableConfig} {y y' : Access} {a : AccessAction}

def AnswerGuarded (cfg : TableConfig) (y : Access) : AccessAction → Prop
  | .unit i action => ∀ u ∈ y.units[i]?, ∀ r ∈ y.readers, r.txn = some i → Calm u r action
  | .reader j .load => ∀ r ∈ y.readers[j]?, HitGuarded cfg y r
  | .reader j .resolve => ∀ r ∈ y.readers[j]?, ResolveGuarded cfg y r
  | _ => True

instance (cfg : TableConfig) (y : Access) : ∀ a : AccessAction, Decidable (AnswerGuarded cfg y a)
  | .unit i action => inferInstanceAs (Decidable (∀ u ∈ y.units[i]?, ∀ r ∈ y.readers, r.txn = some i → Calm u r action))
  | .reader j .load => inferInstanceAs (Decidable (∀ r ∈ y.readers[j]?, HitGuarded cfg y r))
  | .reader j .resolve => inferInstanceAs (Decidable (∀ r ∈ y.readers[j]?, ResolveGuarded cfg y r))
  | .reader _ (.pin _) | .reader _ (.read _ _) | .reader _ .choose | .reader _ .reread | .reader _ .gateTime
  | .reader _ .latestSequence | .reader _ .gateSequence | .reader _ .populate | .reader _ .queue
  | .reader _ (.execute _)
  | .transaction _ _ _ _ | .direct _ _ | .call _ _ _ _ _ | .materialize | .clear _ _ _ | .sweep _ | .cancelForDB _
  | .cancelSlot =>
    inferInstanceAs (Decidable True)

/-- The conditions on the steps of a run of accesses. -/
def FreshGuarded (cfg : TableConfig) (y : Access) (a : AccessAction) : Prop :=
  AccessGuarded cfg y a ∧ AnswerGuarded cfg y a

instance (cfg : TableConfig) (y : Access) (a : AccessAction) : Decidable (FreshGuarded cfg y a) :=
  inferInstanceAs (Decidable (_ ∧ _))

/-- The step gives no read of a transaction a `FRESH` that is wrong for what the transaction sees. -/
def FreshAgrees (cfg : TableConfig) (y : Access) (a : AccessAction) : Prop :=
  ∀ y', y.step cfg a = some y' → ∀ (j : ℕ) (r r' : Reader), y.readers[j]? = some r → y'.readers[j]? = some r' →
    r.pc ≠ .done → r'.pc = .done → ∀ (i : ℕ) (u : WriteUnit), r'.txn = some i → y'.units[i]? = some u → r'.Agrees u

/-- All reads and their transactions. -/
def Answering (y : Access) : Prop :=
  ∀ r ∈ y.readers, ∀ (i : ℕ) (u : WriteUnit), r.txn = some i → y.units[i]? = some u → Answers u r

/-- What holds in every state of a run whose steps meet `FreshGuarded`. -/
structure Coherent (cfg : TableConfig) (y : Access) : Prop where
  sound : Sound cfg y
  clears : y.shared.clears = []
  viewed : Viewed cfg y
  answering : Answering y

/-- The fast path finds the expected version in the slot. -/
theorem Sound.slot_of_hits (h : Sound cfg y) {r : Reader} (hr : r ∈ y.readers)
    (hhits : (r.load cfg y.shared).2.hits = true) {e : ℕ} (he : r.expected = some e) :
    y.shared.vt.slots (cfg.slotFor r.loc) = .word e := by
  rcases load_seen cfg y.shared r with heq | ⟨-, heq⟩
  · -- a read that loads nothing has loaded nothing before, or there would be a table
    rw [heq, Reader.hits, he] at hhits
    dsimp only at hhits
    split at hhits
    next seen e' hseen hexp =>
      obtain rfl := Option.some.inj hexp
      have hmat := h.turned.materialized r hr (by rw [hseen]; rfl)
      have hload : (r.load cfg y.shared).2.seen = some ⟨y.shared.vt.slots (cfg.slotFor r.loc),
          y.shared.vt.turns (cfg.slotFor r.loc)⟩ := by
        by_cases hpath : r.path = .databaseGetSync
        all_goals simp [Reader.load, he, hmat, hpath]
      rw [heq] at hload
      obtain rfl := Option.some.inj (hseen.symm.trans hload)
      exact of_decide_eq_true hhits
    · cases hhits
  · rw [heq, Reader.hits, he] at hhits
    exact of_decide_eq_true hhits

/-- A version on the fast path is what the transaction sees. -/
theorem Coherent.hit (h : Coherent cfg y) {r : Reader} (hr : r ∈ y.readers) (hg : HitGuarded cfg y r)
    (hsync : r.async = false) (hhits : (r.load cfg y.shared).2.hits = true) {i : ℕ} {u : WriteUnit}
    (htxn : r.txn = some i) (hu : y.units[i]? = some u) {snapshot : Snapshot}
    (hsnap : u.snapshot = some snapshot) {e : ℕ} (he : r.expected = some e) :
    versionOf (u.sees snapshot r.loc) = e := by
  have hslot := h.sound.slot_of_hits hr hhits he
  obtain ⟨hv, hpub, hown⟩ := hg hsync (by rw [htxn]; rfl) e he hslot
  have hview : versionOf (snapshot.view r.loc) = e := by
    obtain ⟨u₀, hu₀, hdb⟩ := h.sound.snapped.txns r hr i htxn
    obtain rfl := Option.some.inj (hu.symm.trans hu₀)
    exact h.viewed.slots _ e r.loc hslot hv hpub u (List.mem_of_getElem? hu) hdb snapshot hsnap (Nat.zero_le _)
  have hnone : u.ownWrite r.loc = none := by
    rw [ownWrites, unitOf, htxn] at hown
    simpa [hu] using hown
  rw [WriteUnit.sees, hnone]
  exact hview

/-- The read that a step moves, with its transaction after it. -/
theorem Coherent.answers (h : Coherent cfg y) {j i : ℕ} {action : ReaderAction} {r r' : Reader}
    {w' : Shared} {us' : List WriteUnit} {u' : WriteUnit} (hr : y.readers[j]? = some r)
    (hg : FreshGuarded cfg y (.reader j action))
    (hstep : stepReader cfg y.shared y.units r action = some (w', us', r')) (htxn : r.txn = some i)
    (hu' : us'[i]? = some u') :
    Answers u' r' ∧ (r.pc ≠ .done → r'.pc = .done → r'.Agrees u') := by
  have hmem := List.mem_of_getElem? hr
  obtain ⟨u, hu, -⟩ := h.sound.snapped.txns r hmem i htxn
  refine (stepReader_move hstep).answers htxn hu hu' (h.answering r hmem i u htxn hu) (fun ha => ?_)
    fun ha hsync hhits snapshot hsnap e he => ?_
  · subst ha
    exact (hg.1.2.2 r hr).2
  · subst ha
    exact h.hit hmem (hg.2 r hr) hsync hhits htxn hu hsnap he

theorem Coherent.freshAgrees (h : Coherent cfg y) (hg : FreshGuarded cfg y a) : FreshAgrees cfg y a := by
  intro y' hs j r r' hr hr' hpc hdone i u htxn hu
  have hsame : y'.readers[j]? = y.readers[j]? → r'.Agrees u := by
    intro heq
    obtain rfl := Option.some.inj (hr.symm.trans (heq.symm.trans hr'))
    exact absurd hdone hpc
  cases a with
  | transaction db cf disableSnapshot pessimistic =>
    obtain rfl := Option.some.inj hs
    exact hsame rfl
  | direct db enabled =>
    obtain rfl := Option.some.inj hs
    exact hsame rfl
  | unit k action =>
    obtain ⟨u₀, hu₀, hs⟩ := Option.bind_eq_some_iff.mp hs
    split_ifs at hs
    obtain ⟨p, hp, rfl⟩ := Option.map_eq_some_iff.mp hs
    exact hsame rfl
  | call loc path txn expected wantsPopulate =>
    rw [Access.step] at hs
    split_ifs at hs
    obtain rfl := Option.some.inj hs
    exact hsame (List.getElem?_append_left (List.getElem?_eq_some_iff.mp hr).1)
  | reader k action =>
    obtain ⟨r₀, hr₀, hs⟩ := Option.bind_eq_some_iff.mp hs
    obtain ⟨⟨w', us', r₁⟩, hstep, rfl⟩ := Option.map_eq_some_iff.mp hs
    by_cases hkj : k = j
    · subst hkj
      obtain rfl := Option.some.inj (hr.symm.trans hr₀)
      rw [List.getElem?_set_self (List.getElem?_eq_some_iff.mp hr).1] at hr'
      obtain rfl := Option.some.inj hr'
      have htxn₀ := (stepReader_move hstep).seen.2.1.symm.trans htxn
      exact (h.answers hr hg hstep htxn₀ hu).2 hpc hdone
    · exact hsame (List.getElem?_set_ne hkj)
  | materialize =>
    obtain rfl := Option.some.inj hs
    exact hsame rfl
  | clear db cf enabled => cases hg.1.1
  | sweep c => cases hg.1.1
  | cancelForDB db => cases hg.1.1
  | cancelSlot => cases hg.1.1

/-- Nobody's transaction changes by a step that only adds one. -/
theorem Coherent.begin (h : Coherent cfg y) (u₁ : WriteUnit) : Answering { y with units := y.units ++ [u₁] } := by
  intro r hr i u htxn hu
  obtain ⟨u₀, hu₀, -⟩ := h.sound.snapped.txns r hr i htxn
  change (y.units ++ [u₁])[i]? = some u at hu
  rw [List.getElem?_append_left (List.getElem?_eq_some_iff.mp hu₀).1] at hu
  exact h.answering r hr i u htxn hu

theorem Coherent.unit (h : Coherent cfg y) {k : ℕ} {action : UnitAction} (hg : AnswerGuarded cfg y (.unit k action))
    (hs : y.step cfg (.unit k action) = some y') : Answering y' := by
  obtain ⟨u₀, hu₀, hs⟩ := Option.bind_eq_some_iff.mp hs
  split_ifs at hs with hbusy
  obtain ⟨⟨w', u'⟩, hstep, rfl⟩ := Option.map_eq_some_iff.mp hs
  intro r hr i u htxn hu
  by_cases hki : k = i
  · subst hki
    change (y.units.set k u')[k]? = some u at hu
    rw [List.getElem?_set_self (List.getElem?_eq_some_iff.mp hu₀).1] at hu
    obtain rfl := Option.some.inj hu
    refine (h.answering r hr k u₀ htxn hu₀).unit (fun hthread => ?_) (hg u₀ hu₀ r hr htxn) hstep
    -- a call on the thread has no read of the transaction beside it
    have hreading : y.reading k = true := List.any_eq_true.mpr ⟨r, hr, by simp [htxn, hthread]⟩
    rw [hreading, Bool.and_true] at hbusy
    simpa using hbusy
  · change (y.units.set k u')[i]? = some u at hu
    rw [List.getElem?_set_ne hki] at hu
    exact h.answering r hr i u htxn hu

/-- The other reads, when one gives its transaction a snapshot. -/
theorem Coherent.pinned (h : Coherent cfg y) {r₀ : Reader} (hr₀ : r₀ ∈ y.readers)
    (hthread : r₀.onThread = true) (now : ℕ+) :
    Answering { y with units := pinUnits y.shared y.units r₀ now } := by
  intro r hr i u htxn hu
  rcases pinUnits_cases hu with hold | ⟨u₁, hu₁, htxn₀, rfl⟩
  · exact h.answering r hr i u htxn hold
  · have hopen := ((h.answering r₀ hr₀ i u₁ htxn₀ hu₁).live hthread).1
    exact (h.answering r hr i u₁ htxn hu₁).pin hopen y.shared now

theorem Coherent.reader (h : Coherent cfg y) {k : ℕ} {action : ReaderAction}
    (hg : FreshGuarded cfg y (.reader k action)) (hs : y.step cfg (.reader k action) = some y') :
    Answering y' := by
  obtain ⟨r₀, hr₀, hs⟩ := Option.bind_eq_some_iff.mp hs
  obtain ⟨⟨w', us', r₁⟩, hstep, rfl⟩ := Option.map_eq_some_iff.mp hs
  have hmove := stepReader_move hstep
  have hmem := List.mem_of_getElem? hr₀
  intro r hr i u htxn hu
  rcases List.mem_or_eq_of_mem_set hr with hold | rfl
  · rcases hmove.pins with rfl | ⟨now, hthread, rfl⟩
    · exact h.answering r hold i u htxn hu
    · exact h.pinned hmem hthread now r hold i u htxn hu
  · exact (h.answers hr₀ hg hstep (hmove.seen.2.1.symm.trans htxn) hu).1

theorem Coherent.call (h : Coherent cfg y) {loc : Location} {path : ReadPath} {txn expected : Option ℕ}
    {wantsPopulate : Bool} (hreadable : y.readable loc txn = true) :
    Answering { y with readers := y.readers ++ [{ loc, path, txn, expected, wantsPopulate }] } := by
  intro r hr i u htxn hu
  rcases List.mem_append.mp hr with hold | hnew
  · exact h.answering r hold i u htxn hu
  · obtain rfl := List.mem_singleton.mp hnew
    change txn = some i at htxn
    subst htxn
    change y.units[i]? = some u at hu
    rw [readable, hu] at hreadable
    simp only [Bool.and_eq_true, decide_eq_true_eq] at hreadable
    exact .unread hreadable.1.1 hreadable.1.2.2 rfl rfl

theorem Coherent.step (h : Coherent cfg y) (hg : FreshGuarded cfg y a) (hs : y.step cfg a = some y') :
    Coherent cfg y' := by
  have hres : Resolves cfg y a := by
    cases a with
    | reader j action =>
      cases action with
      | resolve => exact hg.2
      | _ => trivial
    | _ => trivial
  refine ⟨h.sound.step hg.1.2 hs, (step_clears hg.1.1 hs).trans h.clears, h.viewed.step h.sound h.clears hg.1 hres hs,
    ?_⟩
  cases a with
  | transaction db cf disableSnapshot pessimistic =>
    obtain rfl := Option.some.inj hs
    exact h.begin _
  | direct db enabled =>
    obtain rfl := Option.some.inj hs
    exact h.begin _
  | unit i action => exact h.unit hg.2 hs
  | call loc path txn expected wantsPopulate =>
    rw [Access.step] at hs
    split_ifs at hs with hreadable
    obtain rfl := Option.some.inj hs
    exact h.call hreadable
  | reader j action => exact h.reader hg hs
  | materialize =>
    obtain rfl := Option.some.inj hs
    exact h.answering
  | clear db cf enabled => cases hg.1.1
  | sweep c => cases hg.1.1
  | cancelForDB db => cases hg.1.1
  | cancelSlot => cases hg.1.1

theorem Initial.coherent (h : Initial y) : Coherent cfg y := by
  refine ⟨h.sound, h.clears, h.viewed, fun r hr => ?_⟩
  rw [h.readers] at hr
  cases hr

/-- In every run of accesses whose steps meet the conditions, every `FRESH` that a read in a
transaction answers is right for the value the transaction sees. -/
theorem fresh_agrees {y₀ : Access} {acts : List AccessAction} (h0 : Initial y₀)
    (hok : Runs.Along (step cfg) (FreshGuarded cfg) y₀ acts) : Runs.Along (step cfg) (FreshAgrees cfg) y₀ acts :=
  hok.of_invariant (fun _ _ _ h hg hs => Coherent.step h hg hs) (fun _ _ h hg => Coherent.freshAgrees h hg) h0.coherent

section Sample

/-- The `getSync` of a key in the transaction `i` as the read `j`, up to the load of its slot. -/
def askKey (i j : ℕ) (loc : Location) (version : ℕ) : List AccessAction :=
  [.call loc .transactionGetSync (some i) (some version) false, .reader j (.pin sampleTime), .reader j .load]

/-- A transaction reads another key and so takes its snapshot, the key gets the version 7 after 5,
an asynchronous read publishes 7. -/
def ungated : List AccessAction :=
  .materialize :: putKey 0 keyA 5 ++ [.transaction 1 0 false false] ++ askKey 1 0 keyB 1 ++
    [.reader 0 (.read .ok sampleTime)] ++ putKey 2 keyA 7 ++
    [.call keyA .get none (some 7) false, .reader 1 .load, .reader 1 .queue,
      .reader 1 (.execute false), .reader 1 .resolve,
      .call keyA .transactionGetSync (some 1) (some 7) false, .reader 2 (.pin sampleTime)]

/-- A read publishes the version 5, and the `getSync` in a transaction is answered from the slot. -/
def gatedFresh : List AccessAction :=
  .materialize :: putKey 0 keyA 5 ++ readKey 0 keyA ++ [.reader 0 .populate, .transaction 1 0 false false] ++
    askKey 1 1 keyA 5

end Sample

theorem fresh_agrees_gated : Runs.Along (step oneSlot) (FreshAgrees oneSlot) {} gatedFresh :=
  fresh_agrees initial_empty (by decide +kernel)

/-- The answer of that run is `FRESH`. -/
example : ((Runs.final (step oneSlot) {} gatedFresh).readers[1]?).map Reader.fresh = some true := by decide +kernel

/-- The transaction gets `FRESH` for the version 7 of a key whose version at its snapshot is 5. -/
theorem ungated_fresh :
    ¬ ∀ (cfg : TableConfig) (y₀ : Access) (acts : List AccessAction), Initial y₀ → (∀ a ∈ acts, a.isAccess = true) →
      Runs.Along (step cfg) (FreshAgrees cfg) y₀ acts := by
  intro h
  have hrun := Runs.exec_final (step oneSlot) {} ungated (by decide +kernel)
  obtain ⟨-, hlast, -⟩ := (h oneSlot {} (ungated ++ [.reader 2 .load]) initial_empty (by decide)).append hrun
  have hstep := Runs.step_final (step oneSlot) (Runs.final (step oneSlot) {} ungated)
    (.reader 2 .load) (by decide +kernel)
  obtain ⟨r, hr, hpc⟩ := Option.map_eq_some_iff.mp
    (show ((Runs.final (step oneSlot) {} ungated).readers[2]?).map Reader.pc = some .pinned by decide +kernel)
  obtain ⟨r', hr', hanswer⟩ := Option.map_eq_some_iff.mp
    (show ((Runs.final (step oneSlot) (Runs.final (step oneSlot) {} ungated) [.reader 2 .load]).readers[2]?).map
      (fun r => (r.pc, r.txn, r.fresh, r.expected, r.loc)) = some (.done, some 1, true, some 7, keyA) by decide +kernel)
  obtain ⟨u, hu, hsees⟩ := Option.bind_eq_some_iff.mp
    (show ((Runs.final (step oneSlot) (Runs.final (step oneSlot) {} ungated) [.reader 2 .load]).units[1]?).bind
      (fun u => u.snapshot.map fun snapshot => versionOf (u.sees snapshot keyA)) = some 5 by decide +kernel)
  obtain ⟨snapshot, hsnap, hfive⟩ := Option.map_eq_some_iff.mp hsees
  simp only [Prod.mk.injEq] at hanswer
  obtain ⟨hdone, htxn, hfresh, hexp, hloc⟩ := hanswer
  have hseven := hlast _ hstep 2 r r' hr hr' (by rw [hpc]; exact fun hc => ReaderPc.noConfusion hc) hdone 1 u htxn hu
    hfresh snapshot hsnap 7 hexp
  rw [hloc, hfive] at hseven
  cases hseven

end Access

end RocksdbJs
