import RocksdbJs.Lib.ListUpdates
import RocksdbJs.Spec.Locks

/-! Who is at work on a lock. A thread on its way to a section, or a callback that is to complete, is
a token of its key: what holds of the tokens in every state of an orderly run is what makes
`isRunning` a lock. -/

namespace RocksdbJs

/-- The callback is still to complete its lock. -/
def LockRun.outstanding (r : LockRun) : Bool :=
  r.completion && match r.pc with
    | .done _ => false
    | _ => true

namespace Locks
variable {y y' : Locks} {k : Bytes} {n : ℕ}

/-- The tokens of a lock that is running. -/
def busy (y : Locks) (k : Bytes) : ℕ :=
  y.tasks.countP (fun t => decide (t = .complete k)) + y.runs.countP fun r => decide (r.key = k) && r.outstanding

/-- The tokens of a lock that is about to run. -/
def idle (y : Locks) (k : Bytes) : ℕ := y.tasks.countP fun t => decide (t = .acquire k ∨ t = .fire k)

def heldAt (y : Locks) (k : Bytes) : List (Bytes × ℕ) := y.held.filter fun p => decide (p.1 = k)

/-- A key: its lock is held by a `tryLock` and nobody is at work on it, or it has at most one token,
and at least `n`. -/
def KeyOk (n : ℕ) (y : Locks) (k : Bytes) : Prop :=
  match y.locks.lookup k with
  | none => y.heldAt k = [] ∧ y.busy k = 0 ∧ y.idle k = 0
  | some l =>
    (y.heldAt k = [(k, l.owner)] ∧ l.isRunning = false ∧ y.busy k = 0 ∧ y.idle k = 0) ∨
      y.heldAt k = [] ∧ (n ≤ y.busy k + y.idle k ∧ y.busy k + y.idle k ≤ 1) ∧ (l.isRunning = true → y.idle k = 0) ∧
        (l.isRunning = false → y.busy k = 0)

theorem keyOk_none (h : y.locks.lookup k = none) : KeyOk n y k ↔ y.heldAt k = [] ∧ y.busy k = 0 ∧ y.idle k = 0 := by
  rw [KeyOk, h]

theorem keyOk_some {l : LockHandle} (h : y.locks.lookup k = some l) :
    KeyOk n y k ↔ (y.heldAt k = [(k, l.owner)] ∧ l.isRunning = false ∧ y.busy k = 0 ∧ y.idle k = 0) ∨
      y.heldAt k = [] ∧ (n ≤ y.busy k + y.idle k ∧ y.busy k + y.idle k ≤ 1) ∧ (l.isRunning = true → y.idle k = 0) ∧
        (l.isRunning = false → y.busy k = 0) := by
  rw [KeyOk, h]

/-- A lock that no `tryLock` holds. -/
theorem KeyOk.free {l : LockHandle} {b i : ℕ} (hl : y.locks.lookup k = some l) (hheld : y.heldAt k = [])
    (hb : y.busy k = b) (hi : y.idle k = i) (hle : n ≤ b + i ∧ b + i ≤ 1)
    (hrun : l.isRunning = true → i = 0) (hstop : l.isRunning = false → b = 0) :
    KeyOk n y k := by
  subst hb hi
  exact (keyOk_some hl).mpr (Or.inr ⟨hheld, hle, hrun, hstop⟩)

/-- Nothing that concerns the key has changed. -/
theorem KeyOk.congr (h : KeyOk n y k) (hlock : y'.locks.lookup k = y.locks.lookup k) (hheld : y'.heldAt k = y.heldAt k)
    (hbusy : y'.busy k = y.busy k) (hidle : y'.idle k = y.idle k) : KeyOk n y' k := by
  rw [KeyOk, hlock, hheld, hbusy, hidle]
  exact h

/-- What a task that is done was. -/
theorem busy_erase {t : LockTask} (h : t ∈ y.tasks) :
    ({ y with tasks := y.tasks.erase t } : Locks).busy k + (if t = .complete k then 1 else 0) = y.busy k := by
  have hcount := List.countP_erase_add (fun t => decide (t = .complete k)) h
  simp only [decide_eq_true_eq] at hcount
  simp only [busy]
  omega

theorem idle_erase {t : LockTask} (h : t ∈ y.tasks) :
    ({ y with tasks := y.tasks.erase t } : Locks).idle k + (if t = .acquire k ∨ t = .fire k then 1
      else 0) = y.idle k := by
  have hcount := List.countP_erase_add (fun t => decide (t = .acquire k ∨ t = .fire k)) h
  simp only [decide_eq_true_eq] at hcount
  exact hcount

theorem busy_task (y : Locks) (t : LockTask) (k : Bytes) :
    ({ y with tasks := y.tasks ++ [t] } : Locks).busy k = y.busy k + if t = .complete k then 1 else 0 := by
  simp only [busy, List.countP_append, List.countP_singleton, decide_eq_true_eq]
  omega

theorem idle_task (y : Locks) (t : LockTask) (k : Bytes) :
    ({ y with tasks := y.tasks ++ [t] } : Locks).idle k = y.idle k + if t = .acquire k ∨ t = .fire k then 1 else 0 := by
  simp only [idle, List.countP_append, List.countP_singleton, decide_eq_true_eq]

theorem busy_run (y : Locks) (r : LockRun) (k : Bytes) :
    ({ y with runs := y.runs ++ [r] } : Locks).busy k = y.busy k + if r.key = k ∧ r.outstanding = true then 1
      else 0 := by
  simp only [busy, List.countP_append, List.countP_singleton, Bool.and_eq_true, decide_eq_true_eq]
  omega

theorem busy_set {i : ℕ} {r : LockRun} (h : y.runs[i]? = some r) (r' : LockRun) :
    ({ y with runs := y.runs.set i r' } : Locks).busy k + (if r.key = k ∧ r.outstanding = true then 1 else 0) =
      y.busy k + if r'.key = k ∧ r'.outstanding = true then 1 else 0 := by
  have hcount := List.countP_set_add (fun r => decide (r.key = k) && r.outstanding) h r'
  simp only [Bool.and_eq_true, decide_eq_true_eq] at hcount
  simp only [busy]
  omega

theorem busy_pos {r : LockRun} (hr : r ∈ y.runs) (hout : r.outstanding = true) : 0 < y.busy r.key := by
  have hcount : 0 < y.runs.countP fun r' => decide (r'.key = r.key) && r'.outstanding :=
    List.countP_pos_iff.mpr ⟨r, hr, by simp [hout]⟩
  rw [busy]
  omega

/-- A lock that is running is held by no `tryLock`. -/
theorem KeyOk.not_held (h : KeyOk n y k) (hbusy : 0 < y.busy k) : y.heldAt k = [] := by
  rw [KeyOk] at h
  split at h
  · exact h.1
  · rcases h with ⟨-, -, hb, -⟩ | ⟨hheld, -⟩
    · omega
    · exact hheld

/-- Calls without completion data are no tokens. -/
theorem busy_callAll (y : Locks) (calls : List (Bytes × LockCallback)) (closing : List ℕ) (k : Bytes) :
    (y.callAll calls closing).busy k = y.busy k := by
  have hnone : ((calls.filter fun c => decide (c.2.id ∉ closing)).map fun c =>
    (⟨c.1, c.2, false, .called⟩ : LockRun)).countP
      (fun r => decide (r.key = k) && r.outstanding) = 0 := by
    rw [List.countP_eq_zero]
    intro r hr
    obtain ⟨c, -, rfl⟩ := List.mem_map.mp hr
    simp [LockRun.outstanding]
  rw [busy, callAll, List.countP_append, hnone]
  rfl

/-- What the end of a callback leaves: nothing but promises, and the way to `onCallbackComplete`. -/
theorem callJsCallback_cases (y : Locks) (r : LockRun) (outcome : CallbackOutcome) :
    ∃ settled tasks freed, y.callJsCallback r outcome =
      { y with settled := settled, tasks := tasks, freedTwice := freed } ∧
      (tasks = y.tasks ∨ r.completion = true ∧ tasks = y.tasks ++ [.complete r.key]) ∧
        (r.completion = true → y.handles ≠ [] → tasks = y.tasks ++ [.complete r.key]) := by
  have hcomplete : r.completion = true → ∀ settled, ∃ tasks,
      ({ y with settled := settled } : Locks).onCallbackComplete r.key = { y with settled := settled, tasks := tasks } ∧
        (tasks = y.tasks ∨ r.completion = true ∧ tasks = y.tasks ++ [.complete r.key]) ∧
          (r.completion = true → y.handles ≠ [] → tasks = y.tasks ++ [.complete r.key]) := by
    intro hcompletion settled
    rw [onCallbackComplete]
    split_ifs with hclosed
    · exact ⟨y.tasks, rfl, Or.inl rfl, fun _ hopen => absurd (List.isEmpty_iff.mp hclosed) hopen⟩
    · exact ⟨y.tasks ++ [.complete r.key], rfl, Or.inr ⟨hcompletion, rfl⟩, fun _ _ => rfl⟩
  have hsettle : ∀ s, ∃ settled, y.settle r.callback s = { y with settled := settled } := by
    intro s
    rw [settle]
    split_ifs
    · exact ⟨_, rfl⟩
    · exact ⟨y.settled, rfl⟩
  have hboth : r.completion = true → ∀ s, ∃ settled tasks freed, (y.settle r.callback s).onCallbackComplete r.key =
      { y with settled := settled, tasks := tasks, freedTwice := freed } ∧
        (tasks = y.tasks ∨ r.completion = true ∧ tasks = y.tasks ++ [.complete r.key]) ∧
          (r.completion = true → y.handles ≠ [] → tasks = y.tasks ++ [.complete r.key]) := by
    intro hcompletion s
    obtain ⟨settled, hs⟩ := hsettle s
    obtain ⟨tasks, heq, hor, hopen⟩ := hcomplete hcompletion settled
    rw [hs]
    exact ⟨settled, tasks, y.freedTwice, heq, hor, hopen⟩
  have hskip : (r.completion = true → y.handles = []) → ∃ settled tasks freed,
      y = { y with settled := settled, tasks := tasks, freedTwice := freed } ∧
        (tasks = y.tasks ∨ r.completion = true ∧ tasks = y.tasks ++ [.complete r.key]) ∧
          (r.completion = true → y.handles ≠ [] → tasks = y.tasks ++ [.complete r.key]) :=
    fun hnone => ⟨y.settled, y.tasks, y.freedTwice, rfl, Or.inl rfl, fun hc hopen => absurd (hnone hc) hopen⟩
  cases outcome with
  | returns =>
    rw [callJsCallback]
    split_ifs with hcompletion
    · exact hboth hcompletion _
    · exact hskip fun hc => absurd hc hcompletion
  | throws =>
    rw [callJsCallback]
    split_ifs with hcompletion
    · obtain ⟨tasks, heq, hor, hopen⟩ := hcomplete hcompletion y.settled
      exact ⟨y.settled, tasks, true, congrArg (fun z : Locks => { z with freedTwice := true }) heq, hor, hopen⟩
    · exact hskip fun hc => absurd hc hcompletion
  | resolves =>
    rw [callJsCallback]
    split_ifs with hboth'
    · exact hboth (Bool.and_eq_true_iff.mp hboth').1 _
    · exact hskip fun hc => by simpa [hc] using hboth'
  | rejects =>
    rw [callJsCallback]
    split_ifs with hboth'
    · exact hboth (Bool.and_eq_true_iff.mp hboth').1 _
    · exact hskip fun hc => by simpa [hc] using hboth'

/-- Only the completion data of a callback that throws is freed twice. -/
theorem callJsCallback_freed (y : Locks) (r : LockRun) (outcome : CallbackOutcome) :
    (y.callJsCallback r outcome).freedTwice = y.freedTwice ∨ outcome = .throws ∧ r.completion = true := by
  have hcomplete : ∀ z : Locks, (z.onCallbackComplete r.key).freedTwice = z.freedTwice := by
    intro z
    rw [onCallbackComplete]
    split_ifs
    all_goals rfl
  have hsettle : ∀ s, (y.settle r.callback s).freedTwice = y.freedTwice := by
    intro s
    rw [settle]
    split_ifs
    all_goals rfl
  cases outcome with
  | throws =>
    rw [callJsCallback]
    split_ifs with hcompletion
    · exact Or.inr ⟨rfl, hcompletion⟩
    · exact Or.inl rfl
  | _ =>
    rw [callJsCallback]
    split_ifs
    · exact Or.inl ((hcomplete _).trans (hsettle _))
    · exact Or.inl rfl

theorem lockCall_runs (y : Locks) (key : Bytes) (owner address : ℕ) : (y.lockCall key owner address).runs = y.runs := by
  rw [lockCall]
  split
  all_goals rfl

theorem tryLock_runs (y : Locks) (key : Bytes) (owner : ℕ) (callback : Option ℕ) :
    (y.tryLock key owner callback).runs = y.runs := by
  unfold tryLock
  split
  all_goals rfl

/-- A section calls at most one callback, with completion data. -/
theorem runTask_runs (y : Locks) (t : LockTask) (status : CallStatus) :
    (y.runTask t status).runs = y.runs ∨ ∃ callback, (y.runTask t status).runs =
      y.runs ++ [⟨t.key, callback, true, .called⟩] := by
  have hfire : ∀ (z : Locks) (l : LockHandle), z.runs = y.runs → (z.fireNext t.key l status).runs = y.runs ∨
      ∃ callback, (z.fireNext t.key l status).runs = y.runs ++ [⟨t.key, callback, true, .called⟩] := by
    intro z l hz
    rw [fireNext]
    split_ifs
    · exact Or.inl hz
    split
    · exact Or.inl hz
    next callback rest _ =>
      cases status with
      | ok => exact Or.inr ⟨callback, by rw [← hz]⟩
      | closing => exact Or.inl hz
      | failed => exact Or.inl hz
  rw [runTask]
  split
  · exact Or.inl rfl
  · cases t with
    | acquire key => exact hfire _ _ rfl
    | fire key => exact hfire _ _ rfl
    | complete key => exact Or.inl rfl

theorem silent_callAll {calls : List (Bytes × LockCallback)} {closing : List ℕ}
    (h : ∀ r ∈ y.runs, r.completion = false → r.callback.deferred = false)
    (hcalls : ∀ c ∈ calls, c.2.deferred = false) :
    ∀ r ∈ (y.callAll calls closing).runs, r.completion = false → r.callback.deferred = false := by
  intro r hr hcompletion
  rcases List.mem_append.mp hr with hold | hnew
  · exact h r hold hcompletion
  · obtain ⟨c, hc, rfl⟩ := List.mem_map.mp hnew
    exact hcalls c (List.mem_filter.mp hc).1

theorem silent_set {i : ℕ} {r : LockRun} (h : ∀ r ∈ y.runs, r.completion = false → r.callback.deferred = false)
    (hr : y.runs[i]? = some r) (pc : RunPc) :
    ∀ r' ∈ y.runs.set i { r with pc := pc }, r'.completion = false → r'.callback.deferred = false := by
  intro r' hr' hcompletion
  rcases List.mem_or_eq_of_mem_set hr' with hold | rfl
  · exact h r' hold hcompletion
  · exact h r (List.mem_of_getElem? hr) hcompletion

/-- A lock that is given back by its holder, or with the handle that holds it, has no callback of
`withLock` in its queue. -/
def HandsOver (y : Locks) : LockAction → Prop
  | .unlock key handle _ =>
    (key, handle) ∈ y.held ∧ ∀ l ∈ y.locks.lookup key, ∀ c ∈ l.threadsafeCallbacks, c.deferred = false
  | .close handle _ =>
    ∀ e ∈ y.locks.entries, e.2.owner = handle → (e.1, handle) ∈ y.held ∧
      ∀ c ∈ e.2.threadsafeCallbacks, c.deferred = false
  | _ => True

instance (y : Locks) : ∀ a : LockAction, Decidable (y.HandsOver a)
  | .unlock key handle _ =>
    inferInstanceAs (Decidable ((key, handle) ∈ y.held ∧ ∀ l ∈ y.locks.lookup key,
      ∀ c ∈ l.threadsafeCallbacks, c.deferred = false))
  | .close handle _ =>
    inferInstanceAs (Decidable (∀ e ∈ y.locks.entries, e.2.owner = handle →
      (e.1, handle) ∈ y.held ∧ ∀ c ∈ e.2.threadsafeCallbacks, c.deferred = false))
  | .withLock _ _ _ | .tryLock _ _ _ | .task _ _ | .start _ | .finish _ _ | .abort => inferInstanceAs (Decidable True)

/-- What holds in every state of a run whose steps meet `HandsOver`. -/
structure Orderly (n : ℕ) (y : Locks) : Prop where
  keys : ∀ k, KeyOk n y k
  silent : ∀ r ∈ y.runs, r.completion = false → r.callback.deferred = false

/-- Another queue. -/
theorem KeyOk.enqueue {l : LockHandle} (h : KeyOk n y k) {key : Bytes} (hl : y.locks.lookup key = some l)
    (c : LockCallback) :
    KeyOk n (y.enqueue key l c) k := by
  by_cases hk : k = key
  · subst hk
    have hnew : (y.enqueue k l c).locks.lookup k =
        some { l with threadsafeCallbacks := l.threadsafeCallbacks ++ [c] } :=
      AList.lookup_insert _
    exact (keyOk_some hnew).mpr ((keyOk_some hl).mp h)
  · exact h.congr (AList.lookup_insert_ne hk) rfl rfl rfl

theorem KeyOk.lockCall (hn : n ≤ 1) (h : ∀ k, KeyOk n y k) (key : Bytes) (owner address : ℕ) (k : Bytes) :
    KeyOk n (y.lockCall key owner address) k := by
  have hbusy := busy_task y (.acquire key) k
  have hidle := idle_task y (.acquire key) k
  rw [Locks.lockCall]
  split
  next hnone =>
    by_cases hk : k = key
    · subst hk
      obtain ⟨hheld, hbusy₀, hidle₀⟩ := (keyOk_none (y := y) hnone).mp (h k)
      simp only [hbusy₀, hidle₀, reduceCtorEq, if_false, true_or, if_true] at hbusy hidle
      exact .free (AList.lookup_insert _) hheld hbusy hidle ⟨hn, le_rfl⟩ (fun hrun => by cases hrun) fun _ => rfl
    · refine (h k).congr (AList.lookup_insert_ne hk) rfl (hbusy.trans ?_) (hidle.trans ?_)
      · simp
      · simp [Ne.symm hk]
  next l hl =>
    exact (h k).enqueue (y := { y with arrivals := y.arrivals ++ [(key, y.nextId)] }) hl _

theorem KeyOk.tryLock (h : ∀ k, KeyOk n y k) (key : Bytes) (owner : ℕ) (callback : Option ℕ) (k : Bytes) :
    KeyOk n (y.tryLock key owner callback) k := by
  unfold Locks.tryLock
  split
  next hnone =>
    by_cases hk : k = key
    · subst hk
      obtain ⟨hheld, hbusy, hidle⟩ := (keyOk_none hnone).mp (h k)
      refine (keyOk_some (AList.lookup_insert _)).mpr (Or.inl ⟨?_, rfl, hbusy, hidle⟩)
      rw [heldAt] at hheld ⊢
      rw [List.filter_append, hheld]
      simp
    · refine (h k).congr (AList.lookup_insert_ne hk) ?_ rfl rfl
      rw [heldAt, heldAt, List.filter_append]
      simp [Ne.symm hk]
  · exact h k
  next l address hl => exact (h k).enqueue hl _

/-- The lock of a key that is given back. -/
theorem KeyOk.unlock (h : ∀ k, KeyOk n y k) {key : Bytes} {handle : ℕ} {closing : List ℕ}
    (hheld : (key, handle) ∈ y.held) (k : Bytes) :
    KeyOk n { y.lockReleaseByKey key closing with held := y.held.filter fun p => decide (p ≠ (key, handle)) } k := by
  have hmem : (key, handle) ∈ y.heldAt key := List.mem_filter.mpr ⟨hheld, by simp⟩
  rw [lockReleaseByKey]
  split
  next hnone =>
    rw [((keyOk_none hnone).mp (h key)).1] at hmem
    cases hmem
  next l hl =>
    have hbusy := busy_callAll { y with locks := y.locks.erase key }
      (l.threadsafeCallbacks.map fun c => (key, c)) closing k
    by_cases hk : k = key
    · subst hk
      rcases (keyOk_some hl).mp (h k) with ⟨hown, -, hb, hi⟩ | ⟨hnone, -⟩
      · refine (keyOk_none (AList.lookup_erase _ _)).mpr ⟨?_, hbusy.trans hb, hi⟩
        rw [hown, List.mem_singleton] at hmem
        obtain ⟨-, rfl⟩ := Prod.mk.inj hmem
        change (y.held.filter _).filter _ = []
        rw [List.filter_filter, List.filter_eq_nil_iff]
        intro p hp hboth
        rw [Bool.and_eq_true, decide_eq_true_eq, decide_eq_true_eq] at hboth
        have hin : p ∈ y.heldAt k := List.mem_filter.mpr ⟨hp, by simpa using hboth.1⟩
        rw [hown, List.mem_singleton] at hin
        exact hboth.2 hin
      · rw [hnone] at hmem
        cases hmem
    · refine (h k).congr (AList.lookup_erase_ne hk) ?_ hbusy rfl
      change (y.held.filter _).filter _ = y.held.filter _
      rw [List.filter_filter]
      refine List.filter_congr fun p hp => ?_
      by_cases hpk : p.1 = k
      · have hne : p ≠ (key, handle) := by
          rintro rfl
          exact hk hpk.symm
        simp [hpk, hne]
      · simp [hpk]

theorem lookup_without (locks : AList fun _ : Bytes => LockHandle) (owner : ℕ) (k : Bytes) :
    (without locks owner).lookup k = (locks.lookup k).filter fun l => decide (l.owner ≠ owner) := by
  ext l
  rw [← Option.mem_def, AList.mem_lookup_iff, without, List.mem_filter, Option.mem_def.symm, Option.mem_filter_iff,
    AList.mem_lookup_iff]

/-- The locks of a handle that is closed. -/
theorem KeyOk.close (h : ∀ k, KeyOk n y k) {handle : ℕ} {closing : List ℕ} {handles : List ℕ}
    (howned : ∀ k l, y.locks.lookup k = some l → l.owner = handle → (k, handle) ∈ y.held) (k : Bytes) :
    KeyOk n { y.lockReleaseByOwner handle closing with
      handles := handles
      held := y.held.filter fun p => decide (p.2 ≠ handle) } k := by
  have hbusy := busy_callAll { y with locks := without y.locks handle }
    ((queuedBy y.locks handle).mergeSort fun a b => decide (a.2.address ≤ b.2.address)) closing k
  have hlookup := lookup_without y.locks handle k
  have hheld : ∀ l : List (Bytes × ℕ), y.heldAt k = l →
      (y.held.filter fun p => decide (p.2 ≠ handle)).filter (fun p => decide (p.1 = k)) = l.filter fun p =>
        decide (p.2 ≠ handle) := by
    rintro l rfl
    rw [heldAt, List.filter_filter, List.filter_filter]
    exact List.filter_congr fun p _ => Bool.and_comm _ _
  cases hl : y.locks.lookup k with
  | none =>
    rw [hl] at hlookup
    obtain ⟨hnone, hb, hi⟩ := (keyOk_none hl).mp (h k)
    exact (keyOk_none hlookup).mpr ⟨hheld _ hnone, hbusy.trans hb, hi⟩
  | some l =>
    rw [hl] at hlookup
    by_cases hown : l.owner = handle
    · have hnone : (some l).filter (fun l => decide (l.owner ≠ handle)) = none := by simp [hown]
      rcases (keyOk_some hl).mp (h k) with ⟨hat, -, hb, hi⟩ | ⟨hempty, -⟩
      · refine (keyOk_none (hlookup.trans hnone)).mpr ⟨(hheld _ hat).trans ?_, hbusy.trans hb, hi⟩
        simp [hown]
      · have hmem : (k, handle) ∈ y.heldAt k := List.mem_filter.mpr ⟨howned k l hl hown, by simp⟩
        rw [hempty] at hmem
        cases hmem
    · have hkept : (some l).filter (fun l => decide (l.owner ≠ handle)) = some l := by simp [hown]
      rcases (keyOk_some hl).mp (h k) with ⟨hat, hrun, hb, hi⟩ | ⟨hempty, hrest⟩
      · refine (keyOk_some (hlookup.trans hkept)).mpr (Or.inl ⟨(hheld _ hat).trans ?_, hrun, hbusy.trans hb, hi⟩)
        simp [hown]
      · exact .free (hlookup.trans hkept) (hheld _ hempty) hbusy rfl hrest.1 hrest.2.1 hrest.2.2

/-- A thread in its section is the one token of its key. -/
theorem KeyOk.token {t : LockTask} (h : KeyOk n y t.key) (ht : t ∈ y.tasks) :
    ∃ l, y.locks.lookup t.key = some l ∧ y.heldAt t.key = [] ∧
      ({ y with tasks := y.tasks.erase t } : Locks).busy t.key = 0 ∧
      ({ y with tasks := y.tasks.erase t } : Locks).idle t.key = 0 ∧
        l.isRunning = decide (t = .complete t.key) := by
  have hbusy := busy_erase (k := t.key) ht
  have hidle := idle_erase (k := t.key) ht
  have hkind : t = .complete t.key ∨ (t = .acquire t.key ∨ t = .fire t.key) ∧ t ≠ .complete t.key := by
    cases t
    all_goals simp [LockTask.key]
  cases hl : y.locks.lookup t.key with
  | none =>
    obtain ⟨-, hb, hi⟩ := (keyOk_none hl).mp h
    rcases hkind with hc | ⟨ha, -⟩
    · rw [if_pos hc] at hbusy
      omega
    · rw [if_pos ha] at hidle
      omega
  | some l =>
    rcases (keyOk_some hl).mp h with ⟨-, -, hb, hi⟩ | ⟨hheld, hle, hrun, hstop⟩
    · rcases hkind with hc | ⟨ha, -⟩
      · rw [if_pos hc] at hbusy
        omega
      · rw [if_pos ha] at hidle
        omega
    · refine ⟨l, rfl, hheld, ?_⟩
      rcases hkind with hc | ⟨ha, hnc⟩
      · rw [if_pos hc] at hbusy
        refine ⟨by omega, by omega, ?_⟩
        rw [decide_eq_true hc]
        cases hr : l.isRunning with
        | true => rfl
        | false => exact absurd (hstop hr) (by omega)
      · rw [if_pos ha] at hidle
        refine ⟨by omega, by omega, ?_⟩
        rw [decide_eq_false hnc]
        cases hr : l.isRunning with
        | true => exact absurd (hrun hr) (by omega)
        | false => rfl

theorem KeyOk.fireNext (hn : n ≤ 1) {key : Bytes} {l : LockHandle} (hheld : y.heldAt key = [])
    (hbusy : y.busy key = 0) (hidle : y.idle key = 0) (hrun : l.isRunning = false) {status : CallStatus}
    (hclosing : status = .closing → n ≤ 0) : KeyOk n (y.fireNext key l status) key := by
  rw [Locks.fireNext, hrun, if_neg Bool.false_ne_true]
  split
  · exact (keyOk_none (AList.lookup_erase _ _)).mpr ⟨hheld, hbusy, hidle⟩
  next callback rest _ =>
    cases status with
    | ok =>
      have hnew := busy_run y ⟨key, callback, true, .called⟩ key
      rw [if_pos ⟨rfl, rfl⟩, hbusy] at hnew
      exact .free (AList.lookup_insert _) hheld hnew hidle ⟨hn, le_rfl⟩ (fun _ => rfl) fun hstop => by cases hstop
    | closing =>
      exact .free (AList.lookup_insert _) hheld hbusy hidle ⟨hclosing rfl,
      Nat.zero_le _⟩ (fun _ => rfl) fun hstop => by cases hstop
    | failed =>
      have hnew := busy_task y (.complete key) key
      have hsame := idle_task y (.complete key) key
      rw [if_pos rfl, hbusy] at hnew
      rw [if_neg (by simp), hidle] at hsame
      exact .free (AList.lookup_insert _) hheld hnew hsame ⟨hn, le_rfl⟩ (fun _ => rfl) fun hstop => by cases hstop

/-- What a section leaves of the other keys. -/
theorem fireNext_other {key : Bytes} (y : Locks) (l : LockHandle) (status : CallStatus) (hk : k ≠ key) :
    (y.fireNext key l status).locks.lookup k = y.locks.lookup k ∧ (y.fireNext key l status).heldAt k = y.heldAt k ∧
      (y.fireNext key l status).busy k = y.busy k ∧ (y.fireNext key l status).idle k = y.idle k := by
  rw [Locks.fireNext]
  split_ifs
  · exact ⟨rfl, rfl, rfl, rfl⟩
  split
  · exact ⟨AList.lookup_erase_ne hk, rfl, rfl, rfl⟩
  next callback rest _ =>
    cases status with
    | ok =>
      refine ⟨AList.lookup_insert_ne hk, rfl, (busy_run y ⟨key, callback, true, .called⟩ k).trans ?_, rfl⟩
      simp [Ne.symm hk]
    | closing => exact ⟨AList.lookup_insert_ne hk, rfl, rfl, rfl⟩
    | failed =>
      refine ⟨AList.lookup_insert_ne hk, rfl, (busy_task y (.complete key) k).trans ?_,
        (idle_task y (.complete key) k).trans ?_⟩
      · simp [Ne.symm hk]
      · simp

theorem KeyOk.runTask (hn : n ≤ 1) (h : ∀ k, KeyOk n y k) {t : LockTask} (ht : t ∈ y.tasks) {status : CallStatus}
    (hclosing : status = .closing → n ≤ 0) (k : Bytes) :
    KeyOk n (y.runTask t status) k := by
  obtain ⟨l, hl, hheld, hbusy, hidle, hrun⟩ := (h t.key).token ht
  have herased : k ≠ t.key → ({ y with tasks := y.tasks.erase t } : Locks).busy k = y.busy k ∧
      ({ y with tasks := y.tasks.erase t } : Locks).idle k = y.idle k := by
    intro hk
    have hb := busy_erase (k := k) ht
    have hi := idle_erase (k := k) ht
    rw [if_neg (by rintro rfl; exact hk rfl)] at hb
    rw [if_neg (by rintro (rfl | rfl) <;> exact hk rfl)] at hi
    exact ⟨hb, hi⟩
  have hfire : ∀ key, t.key = key → l.isRunning = false →
      KeyOk n ({ y with tasks := y.tasks.erase t }.fireNext key l status) k := by
    rintro key rfl hstop
    by_cases hk : k = t.key
    · subst hk
      exact KeyOk.fireNext (y := { y with tasks := y.tasks.erase t }) hn hheld hbusy hidle hstop hclosing
    · obtain ⟨h1, h2, h3, h4⟩ := fireNext_other { y with tasks := y.tasks.erase t } l status hk
      exact (h k).congr h1 h2 (h3.trans (herased hk).1) (h4.trans (herased hk).2)
  rw [Locks.runTask, show ({ y with tasks := y.tasks.erase t } : Locks).locks.lookup t.key = some l from hl]
  cases t with
  | acquire key => exact hfire key rfl hrun
  | fire key => exact hfire key rfl hrun
  | complete key =>
    simp only [LockTask.key] at hheld hbusy hidle
    have hb := busy_task { y with tasks := y.tasks.erase (.complete key) } (.fire key) k
    have hi := idle_task { y with tasks := y.tasks.erase (.complete key) } (.fire key) k
    by_cases hk : k = key
    · subst hk
      rw [hbusy, if_neg (by simp)] at hb
      rw [hidle, if_pos (Or.inr rfl)] at hi
      exact .free (AList.lookup_insert _) hheld hb hi ⟨hn, le_rfl⟩ (fun hr => by cases hr) fun _ => rfl
    · rw [if_neg (by simp)] at hb
      rw [if_neg (by simp [Ne.symm hk])] at hi
      exact (h k).congr (AList.lookup_insert_ne hk) rfl (hb.trans (herased hk).1) (hi.trans (herased hk).2)

/-- A token less. -/
theorem KeyOk.fewer (h : KeyOk 0 y k) (hlock : y'.locks = y.locks) (hheld : y'.held = y.held)
    (hbusy : y'.busy k ≤ y.busy k) (hidle : y'.idle k = y.idle k) : KeyOk 0 y' k := by
  have hat : y'.heldAt k = y.heldAt k := by rw [heldAt, heldAt, hheld]
  rw [KeyOk, hlock, hat, hidle]
  rw [KeyOk] at h
  split at h
  · exact ⟨h.1, by omega, h.2.2⟩
  · rcases h with ⟨h1, h2, h3, h4⟩ | ⟨h1, ⟨-, h2⟩, h3, h4⟩
    · exact Or.inl ⟨h1, h2, by omega, h4⟩
    · exact Or.inr ⟨h1, ⟨Nat.zero_le _, by omega⟩, h3, fun hr => by have := h4 hr; omega⟩

theorem KeyOk.finish (h : KeyOk n y k) {i : ℕ} {r : LockRun} (hr : y.runs[i]? = some r) (hpc : r.pc = .running)
    {outcome : CallbackOutcome} (hopen : n = 0 ∨ (r.outstanding = true → y.handles ≠ [])) :
    KeyOk n ({ y with runs := y.runs.set i { r with pc := .done outcome } }.callJsCallback r outcome) k := by
  have hset := busy_set (k := k) hr { r with pc := .done outcome }
  rw [if_neg (show ¬ (_ ∧ LockRun.outstanding { r with pc := .done outcome } =
    true) by simp [LockRun.outstanding])] at hset
  obtain ⟨settled, tasks, freed, heq, hor, hcompletes⟩ :=
    callJsCallback_cases { y with runs := y.runs.set i { r with pc := .done outcome } } r outcome
  rw [heq]
  by_cases hcompletion : r.completion = true
  · have hadd : tasks = y.tasks ++ [.complete r.key] → KeyOk n { y with
        runs := y.runs.set i { r with pc := .done outcome }, settled := settled, tasks :=
          tasks, freedTwice := freed } k := by
      rintro rfl
      have hb := busy_task { y with runs := y.runs.set i { r with pc := .done outcome } } (.complete r.key) k
      have hi := idle_task { y with runs := y.runs.set i { r with pc := .done outcome } } (.complete r.key) k
      have hout : r.outstanding = true := by simp [LockRun.outstanding, hcompletion, hpc]
      refine h.congr rfl rfl (hb.trans ?_) (hi.trans (by simp; rfl))
      by_cases hk : r.key = k
      · rw [if_pos ⟨hk, hout⟩] at hset
        rw [if_pos (by rw [hk])]
        omega
      · rw [if_neg (fun hc => hk hc.1)] at hset
        rw [if_neg (by simpa using hk)]
        omega
    rcases hopen with rfl | hopen
    · rcases hor with rfl | ⟨-, htasks⟩
      · have hle : ({ y with runs := y.runs.set i { r with pc := .done outcome } } : Locks).busy k ≤ y.busy k := by
          omega
        exact h.fewer rfl rfl hle rfl
      · exact hadd htasks
    · exact hadd (hcompletes hcompletion (hopen (by simp [LockRun.outstanding, hcompletion, hpc])))
  · obtain rfl := hor.resolve_right fun hc => hcompletion hc.1
    rw [if_neg (by simp [LockRun.outstanding, hcompletion])] at hset
    exact h.congr rfl rfl hset rfl

/-- Nobody holds a lock, and nobody is at work. -/
theorem Orderly.of_empty (hlocks : y.locks = ∅) (htasks : y.tasks = []) (hruns : y.runs = [])
    (hheld : y.held = []) : Orderly n y := by
  refine ⟨fun k => ?_, fun r hr => ?_⟩
  · have hnone : y.locks.lookup k = none := by
      rw [hlocks]
      exact AList.lookup_empty k
    refine (keyOk_none hnone).mpr ⟨?_, ?_, ?_⟩
    · rw [heldAt, hheld]
      rfl
    · rw [busy, htasks, hruns]
      rfl
    · rw [idle, htasks]
      rfl
  · rw [hruns] at hr
    cases hr

/-- A closing thread may lose the token of a lock, and the last handle that is closed. -/
theorem Orderly.step {a : LockAction} (hn : n ≤ 1) (h : Orderly n y) (hg : y.HandsOver a)
    (hlost : n = 0 ∨ (∀ t, a ≠ .task t .closing) ∧ ∀ r ∈ y.runs, r.outstanding = true → y.handles ≠ [])
    (hs : y.step a = some y') :
    Orderly n y' := by
  cases a with
  | withLock key handle address =>
    rw [Locks.step] at hs
    split_ifs at hs
    obtain rfl := Option.some.inj hs
    exact ⟨KeyOk.lockCall hn h.keys key handle address, by rw [lockCall_runs]; exact h.silent⟩
  | tryLock key handle callback =>
    rw [Locks.step] at hs
    split_ifs at hs
    obtain rfl := Option.some.inj hs
    exact ⟨KeyOk.tryLock h.keys key handle callback, by rw [tryLock_runs]; exact h.silent⟩
  | unlock key handle closing =>
    rw [Locks.step] at hs
    split_ifs at hs
    obtain rfl := Option.some.inj hs
    refine ⟨KeyOk.unlock h.keys hg.1, ?_⟩
    change ∀ r ∈ (y.lockReleaseByKey key closing).runs, _
    rw [lockReleaseByKey]
    split
    · exact h.silent
    next l hl =>
      refine silent_callAll h.silent fun c hc => ?_
      obtain ⟨c', hc', rfl⟩ := List.mem_map.mp hc
      exact hg.2 l hl c' hc'
  | close handle closing =>
    rw [Locks.step] at hs
    split_ifs at hs
    obtain rfl := Option.some.inj hs
    refine ⟨KeyOk.close h.keys fun k l hl howner => ?_, ?_⟩
    · exact (hg ⟨k, l⟩ (AList.mem_lookup_iff.mp hl) howner).1
    · refine silent_callAll h.silent fun c hc => ?_
      obtain ⟨e, he, hce⟩ := List.mem_flatMap.mp ((List.mergeSort_perm _ _).mem_iff.mp hc)
      obtain ⟨c', hc', rfl⟩ := List.mem_map.mp hce
      obtain ⟨hin, howner⟩ := List.mem_filter.mp he
      exact (hg e hin (of_decide_eq_true howner)).2 c' hc'
  | task t status =>
    rw [Locks.step] at hs
    split_ifs at hs with ht
    obtain rfl := Option.some.inj hs
    have hclosing : status = .closing → n ≤ 0 := by
      rintro rfl
      rcases hlost with rfl | ⟨hnot, -⟩
      · exact le_rfl
      · exact absurd rfl (hnot t)
    refine ⟨KeyOk.runTask hn h.keys ht hclosing, fun r hr hcompletion => ?_⟩
    rcases runTask_runs y t status with heq | ⟨callback, heq⟩
    · exact h.silent r (heq ▸ hr) hcompletion
    · rw [heq] at hr
      rcases List.mem_append.mp hr with hold | hnew
      · exact h.silent r hold hcompletion
      · obtain rfl := List.mem_singleton.mp hnew
        cases hcompletion
  | start i =>
    obtain ⟨r, hr, hs⟩ := Option.bind_eq_some_iff.mp hs
    split_ifs at hs with hpc
    obtain rfl := Option.some.inj hs
    refine ⟨fun k => ?_, silent_set h.silent hr _⟩
    have hset := busy_set (k := k) hr { r with pc := .running }
    have hout : LockRun.outstanding { r with pc := .running } = r.outstanding := by simp [LockRun.outstanding, hpc]
    rw [hout] at hset
    exact (h.keys k).congr rfl rfl (Nat.add_right_cancel hset) rfl
  | finish i outcome =>
    obtain ⟨r, hr, hs⟩ := Option.bind_eq_some_iff.mp hs
    split_ifs at hs with hpc
    obtain rfl := Option.some.inj hs
    refine ⟨fun k => (h.keys k).finish hr hpc (hlost.imp_right fun hl => hl.2 r (List.mem_of_getElem? hr)), ?_⟩
    obtain ⟨settled, tasks, freed, heq, -, -⟩ :=
      callJsCallback_cases { y with runs := y.runs.set i { r with pc := .done outcome } } r outcome
    rw [heq]
    exact silent_set h.silent hr _
  | abort =>
    rw [Locks.step] at hs
    split_ifs at hs
    obtain rfl := Option.some.inj hs
    exact .of_empty rfl rfl rfl rfl

/-- A callback of `withLock` has completion data. -/
theorem Orderly.completion (h : Orderly n y) {r : LockRun} (hr : r ∈ y.runs)
    (hdeferred : r.callback.deferred = true) : r.completion = true := by
  cases hc : r.completion with
  | true => rfl
  | false => exact absurd ((h.silent r hr hc).symm.trans hdeferred) Bool.false_ne_true

/-- Nobody is at work, and nothing is broken. -/
structure Initial (y : Locks) : Prop where
  intact : y.freedTwice = false
  locks : y.locks = ∅
  tasks : y.tasks = []
  runs : y.runs = []
  held : y.held = []
  arrivals : y.arrivals = []
  settled : y.settled = []

theorem Initial.orderly (h : Initial y) : Orderly n y := .of_empty h.locks h.tasks h.runs h.held

end Locks

end RocksdbJs
