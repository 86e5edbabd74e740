import RocksdbJs.Proofs.LockExclusion

/-! The order of `withLock`. In a run whose steps meet `HandsOver`, in which the threads of the
callbacks are not closing and no callback of a queue throws before it returns, the callbacks of a
key run one after the other in the order of their calls, each promise is settled when its callback
has ended, and a lock that a callback waits for is never without someone at work on it. A callback
that throws completes its lock, leaves its promise as it is and has its completion data freed twice;
the callbacks that a released lock's queue is left to leave their promises as they are too. -/

namespace RocksdbJs

/-- The callback has ended. -/
def LockRun.ended (r : LockRun) : Bool :=
  match r.pc with
  | .done _ => true
  | _ => false

/-- What a callback that is called or running has left to do. -/
def RunPc.weight : RunPc → ℕ
  | .called => 4
  | .running => 3
  | .done _ => 0

/-- What a thread on its way to a section has. -/
def LockTask.weight : LockTask → ℕ
  | .complete _ => 2
  | .acquire _ | .fire _ => 1

def LockRun.work (k : Bytes) (r : LockRun) : ℕ := if r.key = k then r.pc.weight else 0

def LockTask.work (k : Bytes) (t : LockTask) : ℕ := if t.key = k then t.weight else 0

namespace Locks
variable {y y' : Locks} {a : LockAction} {k : Bytes}

section Order

/-- The numbers of the calls with the key. -/
def ofKey (k : Bytes) (l : List (Bytes × ℕ)) : List ℕ := (l.filter fun p => decide (p.1 = k)).map Prod.snd

/-- The `withLock` callbacks in the order in which they came out of the queues. -/
def dequeued (y : Locks) : List (Bytes × ℕ) :=
  (y.runs.filter fun r => r.callback.deferred).map fun r => (r.key, r.callback.id)

def deferredIds (callbacks : List LockCallback) : List ℕ := (callbacks.filter LockCallback.deferred).map LockCallback.id

/-- The `withLock` callbacks that wait for the lock. -/
def waiting (y : Locks) (k : Bytes) : List ℕ :=
  ((y.locks.lookup k).map LockHandle.threadsafeCallbacks).elim [] deferredIds

theorem ofKey_append (k : Bytes) (l l' : List (Bytes × ℕ)) : ofKey k (l ++ l') = ofKey k l ++ ofKey k l' := by
  rw [ofKey, List.filter_append, List.map_append]
  rfl

/-- What a step does to the order of the calls: nothing, or one comes, or one is served. -/
inductive Moves (y y' : Locks) : Prop
  | keep (harrivals : y'.arrivals = y.arrivals) (hdequeued : y'.dequeued = y.dequeued) (hwaiting : ∀ k,
      y'.waiting k = y.waiting k)
      (hnext : y.nextId ≤ y'.nextId)
  | arrive (key : Bytes) (harrivals : y'.arrivals = y.arrivals ++ [(key, y.nextId)])
      (hdequeued : y'.dequeued = y.dequeued)
      (hwaiting : ∀ k, y'.waiting k = y.waiting k ++ ofKey k [(key, y.nextId)]) (hnext : y'.nextId = y.nextId + 1)
  | serve (key : Bytes) (id : ℕ) (harrivals : y'.arrivals = y.arrivals) (hdequeued : y'.dequeued =
      y.dequeued ++ [(key, id)])
      (hwaiting : ∀ k, y.waiting k = ofKey k [(key, id)] ++ y'.waiting k) (hnext : y'.nextId = y.nextId)

theorem waiting_of_lookup {l : LockHandle} (h : y.locks.lookup k = some l) :
    y.waiting k = deferredIds l.threadsafeCallbacks := by
  rw [waiting, h]
  rfl

theorem waiting_of_none (h : y.locks.lookup k = none) : y.waiting k = [] := by
  rw [waiting, h]
  rfl

theorem waiting_congr (h : y'.locks.lookup k = y.locks.lookup k) : y'.waiting k = y.waiting k := by
  rw [waiting, waiting, h]

/-- The lock of one key is replaced. -/
theorem waiting_insert {key : Bytes} {l : LockHandle} (hlocks : y'.locks = y.locks.insert key l) {tail : List ℕ}
    (hkey : deferredIds l.threadsafeCallbacks = y.waiting key ++ tail) (k : Bytes) :
    y'.waiting k = y.waiting k ++ if k = key then tail else [] := by
  by_cases hk : k = key
  · subst hk
    rw [if_pos rfl, waiting_of_lookup (l := l) (by rw [hlocks]; exact AList.lookup_insert _)]
    exact hkey
  · rw [if_neg hk, List.append_nil]
    exact waiting_congr (by rw [hlocks]; exact AList.lookup_insert_ne hk)

theorem waiting_insert_same {key : Bytes} {l : LockHandle} (hlocks : y'.locks = y.locks.insert key l)
    (hkey : deferredIds l.threadsafeCallbacks = y.waiting key) (k : Bytes) : y'.waiting k = y.waiting k := by
  have hsame := waiting_insert hlocks (hkey.trans (List.append_nil _).symm) k
  rwa [ite_self, List.append_nil] at hsame

theorem waiting_erase {key : Bytes} (hlocks : y'.locks = y.locks.erase key) (hkey : y.waiting key = []) (k : Bytes) :
    y'.waiting k = y.waiting k := by
  by_cases hk : k = key
  · subst hk
    rw [hkey]
    exact waiting_of_none (by rw [hlocks]; exact AList.lookup_erase _ _)
  · exact waiting_congr (by rw [hlocks]; exact AList.lookup_erase_ne hk)

theorem deferredIds_append (l l' : List LockCallback) : deferredIds (l ++ l') = deferredIds l ++ deferredIds l' := by
  rw [deferredIds, List.filter_append, List.map_append]
  rfl

theorem deferredIds_nil {l : List LockCallback} (h : ∀ c ∈ l, c.deferred = false) : deferredIds l = [] := by
  rw [deferredIds, List.filter_eq_nil_iff.mpr fun c hc hd => absurd ((h c hc).symm.trans hd) Bool.false_ne_true]
  rfl

theorem Moves.lockCall (y : Locks) (key : Bytes) (owner address : ℕ) : Moves y (y.lockCall key owner address) := by
  have hone : ∀ k, (if k = key then deferredIds [⟨y.nextId, address, true⟩] else []) = ofKey k [(key, y.nextId)] := by
    intro k
    by_cases hk : k = key
    · subst hk
      simp [deferredIds, ofKey]
    · simp [ofKey, hk, Ne.symm hk]
  rw [Locks.lockCall]
  split
  next hnone =>
    refine .arrive key rfl rfl (fun k => ?_) rfl
    rw [← hone k]
    refine waiting_insert rfl ?_ k
    rw [waiting_of_none (y := y) hnone]
    rfl
  next l hl =>
    refine .arrive key rfl rfl (fun k => ?_) rfl
    rw [← hone k]
    refine waiting_insert rfl ?_ k
    rw [waiting_of_lookup (y := y) hl, ← deferredIds_append]

theorem Moves.tryLock (y : Locks) (key : Bytes) (owner : ℕ) (callback : Option ℕ) :
    Moves y (y.tryLock key owner callback) := by
  unfold Locks.tryLock
  split
  next hnone =>
    exact .keep rfl rfl (fun k => waiting_insert_same rfl (by rw [waiting_of_none hnone]; rfl) k) le_rfl
  · exact .keep rfl rfl (fun _ => rfl) le_rfl
  next l address hl =>
    refine .keep rfl rfl (fun k => waiting_insert_same rfl ?_ k) (Nat.le_succ _)
    rw [waiting_of_lookup hl, deferredIds_append]
    exact List.append_nil _

theorem dequeued_callAll {calls : List (Bytes × LockCallback)} {closing : List ℕ}
    (h : ∀ c ∈ calls, c.2.deferred = false) :
    (y.callAll calls closing).dequeued = y.dequeued := by
  have hnone : ((calls.filter fun c => decide (c.2.id ∉ closing)).map fun c =>
    (⟨c.1, c.2, false, .called⟩ : LockRun)).filter
      (fun r => r.callback.deferred) = [] := by
    rw [List.filter_eq_nil_iff]
    intro r hr hd
    obtain ⟨c, hc, rfl⟩ := List.mem_map.mp hr
    exact absurd ((h c (List.mem_filter.mp hc).1).symm.trans hd) Bool.false_ne_true
  rw [dequeued, callAll, List.filter_append, hnone, List.append_nil]
  rfl

theorem Moves.unlock {key : Bytes} {handle : ℕ} {closing : List ℕ} (hg : y.HandsOver (.unlock key handle closing)) :
    Moves y { y.lockReleaseByKey key closing with held := y.held.filter fun p => decide (p ≠ (key, handle)) } := by
  rw [lockReleaseByKey]
  split
  · exact .keep rfl rfl (fun _ => rfl) le_rfl
  next l hl =>
    have hnone := hg.2 l hl
    refine .keep rfl (dequeued_callAll (y := { y with locks := y.locks.erase key }) fun c hc => ?_) (fun k => ?_) le_rfl
    · obtain ⟨c', hc', rfl⟩ := List.mem_map.mp hc
      exact hnone c' hc'
    · exact waiting_erase rfl (by rw [waiting_of_lookup hl, deferredIds_nil hnone]) k

theorem Moves.close {handle : ℕ} {closing : List ℕ} (hg : y.HandsOver (.close handle closing))
    {handles : List ℕ} {held : List (Bytes × ℕ)} :
    Moves y { y.lockReleaseByOwner handle closing with handles := handles, held := held } := by
  refine .keep rfl (dequeued_callAll (y := { y with locks := without y.locks handle }) fun c hc => ?_)
    (fun k => ?_) le_rfl
  · obtain ⟨e, he, hce⟩ := List.mem_flatMap.mp ((List.mergeSort_perm _ _).mem_iff.mp hc)
    obtain ⟨c', hc', rfl⟩ := List.mem_map.mp hce
    obtain ⟨hin, howner⟩ := List.mem_filter.mp he
    exact (hg e hin (of_decide_eq_true howner)).2 c' hc'
  · have hlookup := lookup_without y.locks handle k
    cases hl : y.locks.lookup k with
    | none =>
      rw [hl] at hlookup
      rw [waiting_of_none hl]
      exact waiting_of_none hlookup
    | some l =>
      rw [hl] at hlookup
      by_cases howner : l.owner = handle
      · rw [waiting_of_lookup hl, deferredIds_nil (hg ⟨k, l⟩ (AList.mem_lookup_iff.mp hl) howner).2]
        exact waiting_of_none (hlookup.trans (by simp [howner]))
      · exact waiting_congr (hlookup.trans (by simp [howner, hl]))

theorem Moves.fireNext {key : Bytes} {l : LockHandle} (hl : y.locks.lookup key = some l) :
    Moves y (y.fireNext key l .ok) := by
  rw [Locks.fireNext]
  split_ifs
  · exact .keep rfl rfl (fun _ => rfl) le_rfl
  have hwait := waiting_of_lookup hl
  split
  next hempty =>
    rw [hempty] at hwait
    exact .keep rfl rfl (waiting_erase rfl hwait) le_rfl
  next callback rest hqueue =>
    have hsplit : y.waiting key = deferredIds [callback] ++ deferredIds rest := by
      rw [hwait, hqueue, ← deferredIds_append]
      rfl
    have hother : ∀ k, k ≠ key → ({ y with
        locks := y.locks.insert key { l with threadsafeCallbacks := rest, isRunning := true }
        runs := y.runs ++ [⟨key, callback, true, .called⟩] } : Locks).waiting k = y.waiting k :=
      fun k hk => waiting_congr (AList.lookup_insert_ne hk)
    have hself : ({ y with
        locks := y.locks.insert key { l with threadsafeCallbacks := rest, isRunning := true }
        runs := y.runs ++ [⟨key, callback, true, .called⟩] } : Locks).waiting key = deferredIds rest :=
      waiting_of_lookup (l := { l with threadsafeCallbacks := rest, isRunning := true }) (AList.lookup_insert _)
    cases hd : callback.deferred with
    | true =>
      refine .serve key callback.id rfl ?_ (fun k => ?_) rfl
      · rw [dequeued, List.filter_append]
        simp [hd, dequeued]
      · by_cases hk : k = key
        · subst hk
          rw [hself, hsplit]
          simp [deferredIds, hd, ofKey]
        · rw [hother k hk]
          simp [ofKey, Ne.symm hk]
    | false =>
      refine .keep rfl ?_ (fun k => ?_) le_rfl
      · rw [dequeued, List.filter_append]
        simp [hd, dequeued]
      · by_cases hk : k = key
        · subst hk
          rw [hself, hsplit]
          simp [deferredIds, hd]
        · exact hother k hk

theorem Moves.of_tasks {tasks : List LockTask} (h : Moves { y with tasks := tasks } y') : Moves y y' := by
  cases h with
  | keep h1 h2 h3 h4 => exact .keep h1 h2 h3 h4
  | arrive key h1 h2 h3 h4 => exact .arrive key h1 h2 h3 h4
  | serve key id h1 h2 h3 h4 => exact .serve key id h1 h2 h3 h4

theorem Moves.runTask (y : Locks) (t : LockTask) : Moves y (y.runTask t .ok) := by
  rw [Locks.runTask]
  split
  · exact .keep rfl rfl (fun _ => rfl) le_rfl
  next l hl =>
    cases t with
    | acquire key => exact (Moves.fireNext (y := { y with tasks := y.tasks.erase (.acquire key) }) hl).of_tasks
    | fire key => exact (Moves.fireNext (y := { y with tasks := y.tasks.erase (.fire key) }) hl).of_tasks
    | complete key =>
      exact .keep rfl rfl (fun k => waiting_insert_same rfl (by rw [waiting_of_lookup (y := y) (k := key) hl]) k) le_rfl

theorem dequeued_set {i : ℕ} {r : LockRun} (hr : y.runs[i]? = some r) (pc : RunPc) :
    ({ y with runs := y.runs.set i { r with pc := pc } } : Locks).dequeued = y.dequeued := by
  have hmap : ∀ l : List LockRun, ((l.filter fun r => r.callback.deferred).map fun r => (r.key, r.callback.id)) =
      ((l.map fun r => (r.key, r.callback)).filter fun p => p.2.deferred).map fun p => (p.1, p.2.id) := by
    intro l
    rw [List.filter_map, List.map_map]
    rfl
  rw [dequeued, dequeued, hmap, hmap, List.map_set]
  obtain ⟨hlt, rfl⟩ := List.getElem?_eq_some_iff.mp hr
  congr 2
  apply List.ext_getElem?
  intro j
  by_cases hij : i = j
  · subst hij
    simp [hlt]
  · rw [List.getElem?_set_ne hij]

theorem Moves.start {i : ℕ} {r : LockRun} (hr : y.runs[i]? = some r) (pc : RunPc) :
    Moves y { y with runs := y.runs.set i { r with pc := pc } } := .keep rfl (dequeued_set hr pc) (fun _ => rfl) le_rfl

theorem Moves.finish {i : ℕ} {r : LockRun} (hr : y.runs[i]? = some r) (outcome : CallbackOutcome) :
    Moves y ({ y with runs := y.runs.set i { r with pc := .done outcome } }.callJsCallback r outcome) := by
  obtain ⟨settled, tasks, freed, heq, -, -⟩ :=
    callJsCallback_cases { y with runs := y.runs.set i { r with pc := .done outcome } } r outcome
  rw [heq]
  exact .keep rfl (dequeued_set hr (.done outcome)) (fun _ => rfl) le_rfl

/-- Calls are answered in the order in which they came. -/
def InOrder (y : Locks) : Prop := ∀ k, ofKey k y.arrivals = ofKey k y.dequeued ++ y.waiting k

/-- Every call has a number of its own. -/
def Numbered (y : Locks) : Prop := (y.arrivals.map Prod.snd).Nodup ∧ ∀ p ∈ y.arrivals, p.2 < y.nextId

theorem Moves.inOrder (h : Moves y y') (ho : InOrder y) : InOrder y' := by
  intro k
  cases h with
  | keep harrivals hdequeued hwaiting hnext => rw [harrivals, hdequeued, hwaiting, ho k]
  | arrive key harrivals hdequeued hwaiting hnext =>
    rw [harrivals, hdequeued, hwaiting, ofKey_append, ho k, List.append_assoc]
  | serve key id harrivals hdequeued hwaiting hnext =>
    rw [harrivals, hdequeued, ofKey_append, ho k, hwaiting k, List.append_assoc]

theorem Moves.numbered (h : Moves y y') (hn : Numbered y) : Numbered y' := by
  cases h with
  | keep harrivals hdequeued hwaiting hnext =>
    rw [Numbered, harrivals]
    exact ⟨hn.1, fun p hp => (hn.2 p hp).trans_le hnext⟩
  | arrive key harrivals hdequeued hwaiting hnext =>
    rw [Numbered, harrivals, hnext]
    refine ⟨?_, fun p hp => ?_⟩
    · rw [List.map_append, List.nodup_append]
      refine ⟨hn.1, by simp, ?_⟩
      rintro id hid _ hnew rfl
      obtain ⟨p, hp, rfl⟩ := List.mem_map.mp hid
      have hlt := hn.2 p hp
      simp only [List.map_cons, List.map_nil, List.mem_singleton] at hnew
      omega
    · rcases List.mem_append.mp hp with hold | hnew
      · exact (hn.2 p hold).trans (Nat.lt_succ_self _)
      · obtain rfl := List.mem_singleton.mp hnew
        exact Nat.lt_succ_self _
  | serve key id harrivals hdequeued hwaiting hnext =>
    rw [Numbered, harrivals, hnext]
    exact hn

end Order

section Turns

/-- A run of a key comes with the lock when the runs of the key before it have completed it. -/
def InTurn (y : Locks) : Prop :=
  ∀ (i j : ℕ) (r r' : LockRun), i < j → y.runs[i]? = some r → y.runs[j]? = some r' → r.key = r'.key →
    r'.completion = true → r.outstanding = false

theorem InTurn.append (h : InTurn y) (r₁ : LockRun) (hfree : r₁.completion = true → y.busy r₁.key = 0) :
    InTurn { y with runs := y.runs ++ [r₁] } := by
  intro i j r r' hij hr hr' hkey hcompletion
  have hlt := (List.getElem?_eq_some_iff.mp hr').1
  rw [List.length_append, List.length_singleton] at hlt
  have hi : y.runs[i]? = some r := by
    rw [List.getElem?_append_left (by omega)] at hr
    exact hr
  rcases Nat.lt_or_ge j y.runs.length with hj | hj
  · rw [List.getElem?_append_left hj] at hr'
    exact h i j r r' hij hi hr' hkey hcompletion
  · rw [List.getElem?_append_right hj, show j - y.runs.length = 0 by omega] at hr'
    obtain rfl := Option.some.inj hr'
    cases hout : r.outstanding with
    | false => rfl
    | true =>
      have hbusy := busy_pos (List.mem_of_getElem? hi) hout
      rw [hkey, hfree hcompletion] at hbusy
      omega

theorem InTurn.callAll (h : InTurn y) (calls : List (Bytes × LockCallback)) (closing : List ℕ) :
    InTurn (y.callAll calls closing) := by
  rw [Locks.callAll]
  generalize calls.filter (fun c => decide (c.2.id ∉ closing)) = kept
  induction kept generalizing y with
  | nil =>
    rw [List.map_nil, List.append_nil]
    exact h
  | cons c kept ih =>
    have hnext := ih (y := { y with runs := y.runs ++ [⟨c.1, c.2, false, .called⟩] }) (h.append _ fun hc => by cases hc)
    rw [List.append_assoc] at hnext
    exact hnext

theorem InTurn.set (h : InTurn y) {k : ℕ} {r₀ : LockRun} (hr₀ : y.runs[k]? = some r₀) {pc : RunPc}
    (hout : ({ r₀ with pc := pc } : LockRun).outstanding = true → r₀.outstanding = true) :
    InTurn { y with runs := y.runs.set k { r₀ with pc := pc } } := by
  have hback : ∀ (i : ℕ) (r : LockRun), (y.runs.set k { r₀ with pc := pc })[i]? = some r →
      ∃ r₁ : LockRun, y.runs[i]? = some r₁ ∧ r₁.key = r.key ∧ r₁.completion = r.completion ∧
        (r.outstanding = true → r₁.outstanding = true) := by
    intro i r hr
    by_cases hki : k = i
    · subst hki
      rw [List.getElem?_set_self (List.getElem?_eq_some_iff.mp hr₀).1] at hr
      obtain rfl := Option.some.inj hr
      exact ⟨r₀, hr₀, rfl, rfl, hout⟩
    · rw [List.getElem?_set_ne hki] at hr
      exact ⟨r, hr, rfl, rfl, id⟩
  intro i j r r' hij hr hr' hkey hcompletion
  obtain ⟨r₁, hr₁, hk₁, -, ho₁⟩ := hback i r hr
  obtain ⟨r₂, hr₂, hk₂, hc₂, -⟩ := hback j r' hr'
  have hdone := h i j r₁ r₂ hij hr₁ hr₂ (hk₁.trans (hkey.trans hk₂.symm)) (hc₂.trans hcompletion)
  cases ho : r.outstanding with
  | false => rfl
  | true => exact absurd (hdone.symm.trans (ho₁ ho)) Bool.false_ne_true

/-- Every promise is settled at the end of its callback, and once. -/
def Settled (y : Locks) : Prop :=
  (y.settled.map Prod.fst).Nodup ∧
    ∀ id, id ∈ y.settled.map Prod.fst ↔ ∃ r ∈ y.runs, r.callback.deferred = true ∧ r.callback.id = id ∧ r.ended = true

theorem Settled.congr (h : Settled y) (hsettled : y'.settled = y.settled)
    (hruns : ∀ id, (∃ r ∈ y'.runs, r.callback.deferred = true ∧ r.callback.id = id ∧ r.ended = true) ↔
      ∃ r ∈ y.runs, r.callback.deferred = true ∧ r.callback.id = id ∧ r.ended = true) : Settled y' := by
  rw [Settled, hsettled]
  exact ⟨h.1, fun id => (h.2 id).trans (hruns id).symm⟩

theorem Settled.append (h : Settled y) {runs : List LockRun} (hruns : y'.runs = y.runs ++ runs)
    (hsettled : y'.settled = y.settled) (hnew : ∀ r ∈ runs, r.ended = false) : Settled y' := by
  refine h.congr hsettled fun id => ⟨?_, ?_⟩
  · rintro ⟨r, hr, hd, hid, hend⟩
    rw [hruns] at hr
    rcases List.mem_append.mp hr with hold | hin
    · exact ⟨r, hold, hd, hid, hend⟩
    · exact absurd ((hnew r hin).symm.trans hend) Bool.false_ne_true
  · rintro ⟨r, hr, hd, hid, hend⟩
    exact ⟨r, by rw [hruns]; exact List.mem_append_left _ hr, hd, hid, hend⟩

theorem onCallbackComplete_settled (y : Locks) (key : Bytes) : (y.onCallbackComplete key).settled = y.settled := by
  rw [onCallbackComplete]
  split_ifs
  all_goals rfl

/-- The end of a `tryLock` callback settles nothing. -/
theorem callJsCallback_silent {r : LockRun} (hd : r.callback.deferred = false) (outcome : CallbackOutcome) :
    (y.callJsCallback r outcome).settled = y.settled := by
  have hsettle : ∀ s, y.settle r.callback s = y := fun s => by rw [settle, hd, if_neg Bool.false_ne_true]
  cases outcome
  all_goals rw [callJsCallback]
  all_goals split_ifs
  all_goals simp only [hsettle, onCallbackComplete_settled]

/-- The end of a `withLock` callback that does not throw settles its promise. -/
theorem callJsCallback_settles {r : LockRun} (hd : r.callback.deferred = true) (hc : r.completion = true)
    (hopen : y.handles ≠ []) {outcome : CallbackOutcome} (hthrow : outcome ≠ .throws) :
    ∃ s, (y.callJsCallback r outcome).settled = y.settled ++ [(r.callback.id, s)] := by
  have hsettle : ∀ s, (y.settle r.callback s).settled = y.settled ++ [(r.callback.id, s)] := fun s => by
    rw [settle, hd, if_pos rfl]
  have hempty : y.handles.isEmpty = false := by simpa using hopen
  cases outcome with
  | returns => exact ⟨.resolved, by rw [callJsCallback, if_pos hc, onCallbackComplete_settled, hsettle]⟩
  | throws => exact absurd rfl hthrow
  | resolves =>
    exact ⟨.resolved, by rw [callJsCallback, if_pos (by simp [hc, hempty]), onCallbackComplete_settled, hsettle]⟩
  | rejects =>
    exact ⟨.rejected, by rw [callJsCallback, if_pos (by simp [hc, hempty]), onCallbackComplete_settled, hsettle]⟩

/-- A run that has ended stays when one that has not changes. -/
theorem mem_set_of_ended {i : ℕ} {r r' r₁ : LockRun} (hr : y.runs[i]? = some r) (hnot : r.ended = false)
    (hr' : r' ∈ y.runs) (hend : r'.ended = true) : r' ∈ y.runs.set i r₁ := by
  obtain ⟨j, hj⟩ := List.mem_iff_getElem?.mp hr'
  have hne : i ≠ j := by
    rintro rfl
    obtain rfl := Option.some.inj (hr.symm.trans hj)
    exact absurd (hnot.symm.trans hend) Bool.false_ne_true
  exact List.mem_of_getElem? ((List.getElem?_set_ne hne).trans hj)

theorem ended_set {i : ℕ} {r : LockRun} (hr : y.runs[i]? = some r) (hnot : r.ended = false)
    (outcome : CallbackOutcome) (id : ℕ) :
    (∃ r' ∈ y.runs.set i { r with pc := .done outcome }, r'.callback.deferred = true ∧
      r'.callback.id = id ∧ r'.ended = true) ↔
      (r.callback.deferred = true ∧ r.callback.id = id) ∨
        ∃ r' ∈ y.runs, r'.callback.deferred = true ∧ r'.callback.id = id ∧ r'.ended = true := by
  have hlt := (List.getElem?_eq_some_iff.mp hr).1
  constructor
  · rintro ⟨r', hr', hd, hid, hend⟩
    rcases List.mem_or_eq_of_mem_set hr' with hold | rfl
    · exact Or.inr ⟨r', hold, hd, hid, hend⟩
    · exact Or.inl ⟨hd, hid⟩
  · rintro (⟨hd, hid⟩ | ⟨r', hr', hd, hid, hend⟩)
    · exact ⟨{ r with pc := .done outcome }, List.mem_set hlt _, hd, hid, rfl⟩
    · exact ⟨r', mem_set_of_ended hr hnot hr' hend, hd, hid, hend⟩

theorem ended_start {i : ℕ} {r : LockRun} (hr : y.runs[i]? = some r) (hnot : r.ended = false) (id : ℕ) :
    (∃ r' ∈ y.runs.set i { r with pc := .running }, r'.callback.deferred = true ∧
      r'.callback.id = id ∧ r'.ended = true) ↔
      ∃ r' ∈ y.runs, r'.callback.deferred = true ∧ r'.callback.id = id ∧ r'.ended = true := by
  constructor
  · rintro ⟨r', hr', hd, hid, hend⟩
    rcases List.mem_or_eq_of_mem_set hr' with hold | rfl
    · exact ⟨r', hold, hd, hid, hend⟩
    · cases hend
  · rintro ⟨r', hr', hd, hid, hend⟩
    exact ⟨r', mem_set_of_ended hr hnot hr' hend, hd, hid, hend⟩

/-- Two runs of one call are the same run. -/
theorem run_unique (ho : InOrder y) (hn : Numbered y) {i j : ℕ} {r r' : LockRun}
    (hr : y.runs[i]? = some r) (hr' : y.runs[j]? = some r') (hd : r.callback.deferred = true)
    (hd' : r'.callback.deferred = true) (hid : r.callback.id = r'.callback.id) : i = j := by
  have harrived : ∀ r ∈ y.runs, r.callback.deferred = true → (r.key, r.callback.id) ∈ y.arrivals := by
    intro r hr hd
    have hin : r.callback.id ∈ ofKey r.key y.arrivals := by
      rw [ho r.key]
      refine List.mem_append_left _ (List.mem_map.mpr ⟨(r.key, r.callback.id), List.mem_filter.mpr ⟨?_, by simp⟩, rfl⟩)
      exact List.mem_map.mpr ⟨r, List.mem_filter.mpr ⟨hr, hd⟩, rfl⟩
    obtain ⟨p, hp, hpid⟩ := List.mem_map.mp hin
    obtain ⟨hpin, hpkey⟩ := List.mem_filter.mp hp
    obtain ⟨pk, pid⟩ := p
    obtain rfl : pk = r.key := of_decide_eq_true hpkey
    obtain rfl : pid = r.callback.id := hpid
    exact hpin
  have hkey : r.key = r'.key := by
    have heq := List.inj_on_of_nodup_map hn.1 (harrived r (List.mem_of_getElem? hr) hd)
      (harrived r' (List.mem_of_getElem? hr') hd') hid
    exact congrArg Prod.fst heq
  -- the calls of one key come out of the queue once each
  have hnodup : (ofKey r.key y.dequeued).Nodup := by
    have hall : (ofKey r.key y.arrivals).Nodup := hn.1.sublist (List.filter_sublist.map _)
    rw [ho r.key] at hall
    exact hall.of_append_left
  have hpair : y.runs.Pairwise fun a b => a.callback.deferred = true → b.callback.deferred = true →
    a.key = r.key → b.key = r.key →
      a.callback.id ≠ b.callback.id := by
    rw [ofKey, dequeued, List.Nodup, List.pairwise_map, List.pairwise_filter, List.pairwise_map,
      List.pairwise_filter] at hnodup
    refine hnodup.imp fun hab ha hb hka hkb => ?_
    exact hab ha hb (decide_eq_true hka) (decide_eq_true hkb)
  rw [List.pairwise_iff_getElem] at hpair
  obtain ⟨hi, rfl⟩ := List.getElem?_eq_some_iff.mp hr
  obtain ⟨hj, rfl⟩ := List.getElem?_eq_some_iff.mp hr'
  rcases Nat.lt_trichotomy i j with hlt | heq | hgt
  · exact absurd hid (hpair i j hi hj hlt hd hd' rfl hkey.symm)
  · exact heq
  · exact absurd hid.symm (hpair j i hj hi hgt hd' hd hkey.symm rfl)

end Turns

section Work

def queue (y : Locks) (k : Bytes) : List LockCallback := ((y.locks.lookup k).map LockHandle.threadsafeCallbacks).getD []

/-- What is left to do until the key comes to rest. -/
def work (y : Locks) (k : Bytes) : ℕ :=
  5 * (y.queue k).length + (y.runs.map (LockRun.work k)).sum + (y.tasks.map (LockTask.work k)).sum

theorem work_of {q : List LockCallback} {r t : ℕ} (hq : y.queue k = q) (hr : (y.runs.map (LockRun.work k)).sum = r)
    (ht : (y.tasks.map (LockTask.work k)).sum = t) : y.work k = 5 * q.length + r + t := by rw [work, hq, hr, ht]

/-- The key that an internal step is about. -/
def about (y : Locks) : LockAction → Option Bytes
  | .task t _ => some t.key
  | .start i | .finish i _ => (y.runs[i]?).map LockRun.key
  | _ => none

/-- The step is one of the key's and there is less to do after it. -/
def Lessens (y y' : Locks) (key : Bytes) : Prop := y'.work key < y.work key ∧ ∀ k, k ≠ key → y'.work k = y.work k

theorem queue_insert (y : Locks) (key : Bytes) (l : LockHandle) (k : Bytes) :
    ({ y with locks := y.locks.insert key l } : Locks).queue k = if k = key then l.threadsafeCallbacks
      else y.queue k := by
  by_cases hk : k = key
  · subst hk
    rw [if_pos rfl, queue, show ({ y with locks := y.locks.insert k l } : Locks).locks.lookup k =
      some l from AList.lookup_insert _]
    rfl
  · rw [if_neg hk, queue, queue, show ({ y with locks := y.locks.insert key l } : Locks).locks.lookup k =
      _ from AList.lookup_insert_ne hk]

theorem queue_erase (y : Locks) (key k : Bytes) :
    ({ y with locks := y.locks.erase key } : Locks).queue k = if k = key then [] else y.queue k := by
  by_cases hk : k = key
  · subst hk
    rw [if_pos rfl, queue, show ({ y with locks := y.locks.erase k } : Locks).locks.lookup k =
      none from AList.lookup_erase _ _]
    rfl
  · rw [if_neg hk, queue, queue, show ({ y with locks := y.locks.erase key } : Locks).locks.lookup k =
      _ from AList.lookup_erase_ne hk]

theorem queue_of_lookup {l : LockHandle} (h : y.locks.lookup k = some l) : y.queue k = l.threadsafeCallbacks := by
  rw [queue, h]
  rfl

theorem fireNext_work {key : Bytes} {l : LockHandle} (hl : y.locks.lookup key = some l)
    (status : CallStatus) (k : Bytes) :
    (y.fireNext key l status).work k ≤ y.work k ∧ (k ≠ key → (y.fireNext key l status).work k = y.work k) := by
  have hqueue := queue_of_lookup hl
  rw [fireNext]
  split_ifs
  · exact ⟨le_rfl, fun _ => rfl⟩
  split
  next hempty =>
    have hsame : ({ y with locks := y.locks.erase key } : Locks).queue k = y.queue k := by
      rw [queue_erase]
      split_ifs with hk
      · rw [hk, hqueue, hempty]
      · rfl
    have hwork : ({ y with locks := y.locks.erase key } : Locks).work k = y.work k := by
      rw [work, work, hsame]
    exact ⟨hwork.le, fun _ => hwork⟩
  next callback rest hcons =>
    have hlen :
        5 * (Locks.queue { y with
            locks := y.locks.insert key { l with threadsafeCallbacks := rest, isRunning := true } } k).length +
        (if k = key then 5 else 0) = 5 * (y.queue k).length := by
      rw [queue_insert]
      split_ifs with hk
      · rw [hk, hqueue, hcons, List.length_cons]
        change 5 * rest.length + 5 = _
        omega
      · rfl
    -- the callback leaves the queue, and comes to its thread or leaves a completion behind
    have hleaves : ∀ (z : Locks) (r t : ℕ), z.queue k =
        ({ y with locks := y.locks.insert key { l with threadsafeCallbacks := rest, isRunning := true } } :
          Locks).queue k →
        (z.runs.map (LockRun.work k)).sum = (y.runs.map (LockRun.work k)).sum + (if k = key then r else 0) →
          (z.tasks.map (LockTask.work k)).sum = (y.tasks.map (LockTask.work k)).sum + (if k = key then t else 0) →
            r + t ≤ 5 →
            z.work k ≤ y.work k ∧ (k ≠ key → z.work k = y.work k) := by
      intro z r t hz hr ht hle
      rw [work, work, hz, hr, ht]
      split_ifs at hlen ⊢ with hk
      · exact ⟨by omega, fun hne => absurd hk hne⟩
      · exact ⟨by omega, fun _ => by omega⟩
    cases status with
    | ok =>
      refine hleaves _ 4 0 rfl ?_ (by simp) (by omega)
      by_cases hk : k = key
      · simp [LockRun.work, RunPc.weight, hk]
      · simp [LockRun.work, hk, Ne.symm hk]
    | closing => exact hleaves _ 0 0 rfl (by simp) (by simp) (by omega)
    | failed =>
      refine hleaves _ 0 2 rfl (by simp) ?_ (by omega)
      by_cases hk : k = key
      · simp [LockTask.work, LockTask.key, LockTask.weight, hk]
      · simp [LockTask.work, LockTask.key, hk, Ne.symm hk]

theorem erase_work {t : LockTask} (ht : t ∈ y.tasks) (k : Bytes) :
    ({ y with tasks := y.tasks.erase t } : Locks).work k + t.work k = y.work k := by
  have hsum := List.sum_map_erase (LockTask.work k) ht
  change 5 * (y.queue k).length + (y.runs.map (LockRun.work k)).sum + ((y.tasks.erase t).map (LockTask.work k)).sum +
    _ = _
  rw [work, ← hsum]
  omega

theorem runTask_lessens {t : LockTask} (ht : t ∈ y.tasks) (status : CallStatus) :
    Lessens y (y.runTask t status) t.key := by
  have herase := erase_work ht
  have hself : 0 < t.work t.key := by
    rw [LockTask.work, if_pos rfl]
    cases t
    all_goals exact Nat.succ_pos _
  have hother : ∀ k, k ≠ t.key → t.work k = 0 := fun k hk => by rw [LockTask.work, if_neg (Ne.symm hk)]
  -- what is done after the thread has come to its section adds nothing
  have hrest : ∀ z : Locks, (∀ k, z.work k ≤ ({ y with tasks := y.tasks.erase t } : Locks).work k ∧
      (k ≠ t.key → z.work k = ({ y with tasks := y.tasks.erase t } : Locks).work k)) → Lessens y z t.key := by
    intro z hz
    refine ⟨?_, fun k hk => ?_⟩
    · have h1 := (hz t.key).1
      have h2 := herase t.key
      omega
    · have h1 := (hz k).2 hk
      have h2 := herase k
      have h3 := hother k hk
      omega
  rw [runTask]
  split
  · exact hrest _ fun k => ⟨le_rfl, fun _ => rfl⟩
  next l hl =>
    cases t with
    | acquire key => exact hrest _ (fireNext_work hl status)
    | fire key => exact hrest _ (fireNext_work hl status)
    | complete key =>
      have hqueue : ∀ k, ({ y with locks := y.locks.insert key { l with isRunning := false } } : Locks).queue k =
          y.queue k := by
        intro k
        rw [queue_insert]
        split_ifs with hk
        · rw [hk, queue_of_lookup (y := y) (k := key) hl]
        · rfl
      have hwork : ∀ k, ({ y with
          locks := y.locks.insert key { l with isRunning := false }
          tasks := y.tasks.erase (.complete key) ++ [.fire key] } : Locks).work k =
            ({ y with tasks := y.tasks.erase (.complete key) } : Locks).work k + if k = key then 1 else 0 := by
        intro k
        have htasks : ((y.tasks.erase (.complete key) ++ [LockTask.fire key]).map (LockTask.work k)).sum =
            ((y.tasks.erase (.complete key)).map (LockTask.work k)).sum + if k = key then 1 else 0 := by
          by_cases hk : k = key
          · simp [LockTask.work, LockTask.key, LockTask.weight, hk]
          · simp [LockTask.work, LockTask.key, hk, Ne.symm hk]
        have hbefore : ({ y with tasks := y.tasks.erase (.complete key) } : Locks).work k = _ := work_of rfl rfl rfl
        rw [hbefore, Nat.add_assoc]
        exact work_of (hqueue k) rfl htasks
      refine ⟨(hwork key).trans_lt ?_, fun k hk => (hwork k).trans ?_⟩
      · have h2 := herase key
        have h3 : (LockTask.complete key).work key = 2 := by simp [LockTask.work, LockTask.key, LockTask.weight]
        rw [if_pos rfl]
        change _ < y.work key
        omega
      · have h2 := herase k
        have h3 := hother k hk
        have hne : k ≠ key := hk
        rw [if_neg hne]
        omega

/-- A callback that starts or ends. -/
theorem set_work {i : ℕ} {r : LockRun} (hr : y.runs[i]? = some r) (pc : RunPc) (k : Bytes) :
    ({ y with runs := y.runs.set i { r with pc := pc } } : Locks).work k + r.work k = y.work k + LockRun.work k
      { r with pc := pc } := by
  have hsum := List.sum_map_set_add (LockRun.work k) hr { r with pc := pc }
  have hafter : ({ y with runs := y.runs.set i { r with pc := pc } } : Locks).work k = _ := work_of rfl rfl rfl
  have hbefore : y.work k = _ := work_of rfl rfl rfl
  rw [hafter, hbefore]
  change 5 * (y.queue k).length + ((y.runs.set i { r with pc := pc }).map (LockRun.work k)).sum +
    (y.tasks.map (LockTask.work k)).sum + _ = _
  omega

theorem start_lessens {i : ℕ} {r : LockRun} (hr : y.runs[i]? = some r) (hpc : r.pc = .called) :
    Lessens y { y with runs := y.runs.set i { r with pc := .running } } r.key := by
  have hset := set_work hr .running
  refine ⟨?_, fun k hk => ?_⟩
  · have h1 := hset r.key
    simp only [LockRun.work, if_true, hpc, RunPc.weight] at h1
    omega
  · have h1 := hset k
    simp only [LockRun.work, if_neg (Ne.symm hk)] at h1
    exact h1

theorem task_work (y : Locks) (t : LockTask) (k : Bytes) :
    ({ y with tasks := y.tasks ++ [t] } : Locks).work k = y.work k + t.work k := by
  have htasks : ((y.tasks ++ [t]).map (LockTask.work k)).sum = (y.tasks.map (LockTask.work k)).sum + t.work k := by simp
  exact (work_of rfl rfl htasks).trans (Nat.add_assoc _ _ _).symm

theorem finish_lessens {i : ℕ} {r : LockRun} (hr : y.runs[i]? = some r) (hpc : r.pc = .running)
    (outcome : CallbackOutcome) :
    Lessens y ({ y with runs := y.runs.set i { r with pc := .done outcome } }.callJsCallback r outcome) r.key := by
  obtain ⟨settled, tasks, freed, heq, hor, -⟩ :=
    callJsCallback_cases { y with runs := y.runs.set i { r with pc := .done outcome } } r outcome
  have hset := set_work hr (.done outcome)
  have htask := task_work { y with runs := y.runs.set i { r with pc := .done outcome } } (.complete r.key)
  have hafter : ∀ k, ({ y with runs := y.runs.set i { r with pc := .done outcome } }.callJsCallback r outcome).work k ≤
      ({ y with runs := y.runs.set i { r with pc := .done outcome } } : Locks).work k +
        (LockTask.complete r.key).work k ∧
        (k ≠ r.key → ({ y with runs := y.runs.set i { r with pc := .done outcome } }.callJsCallback r outcome).work k =
          ({ y with runs := y.runs.set i { r with pc := .done outcome } } : Locks).work k) := by
    intro k
    rw [heq]
    rcases hor with rfl | ⟨-, rfl⟩
    · exact ⟨Nat.le_add_right _ _, fun _ => rfl⟩
    · refine ⟨(htask k).le, fun hk => (htask k).trans ?_⟩
      rw [LockTask.work, LockTask.key, if_neg (Ne.symm hk), Nat.add_zero]
  refine ⟨?_, fun k hk => ((hafter k).2 hk).trans ?_⟩
  · have h1 := hset r.key
    have h2 := (hafter r.key).1
    simp only [LockRun.work, LockTask.work, LockTask.key, if_true, hpc, RunPc.weight, LockTask.weight] at h1 h2
    omega
  · have h1 := hset k
    simp only [LockRun.work, if_neg (Ne.symm hk)] at h1
    exact h1

/-- An internal step leaves its key with less to do, and the others as they are. -/
theorem internal_lessens (ha : a.isInternal = true) (hs : y.step a = some y') :
    ∃ key, y.about a = some key ∧ Lessens y y' key := by
  cases a with
  | task t status =>
    rw [Locks.step] at hs
    split_ifs at hs with ht
    obtain rfl := Option.some.inj hs
    exact ⟨t.key, rfl, runTask_lessens ht status⟩
  | start i =>
    obtain ⟨r, hr, hs⟩ := Option.bind_eq_some_iff.mp hs
    split_ifs at hs with hpc
    obtain rfl := Option.some.inj hs
    exact ⟨r.key, by rw [about, hr]; rfl, start_lessens hr hpc⟩
  | finish i outcome =>
    obtain ⟨r, hr, hs⟩ := Option.bind_eq_some_iff.mp hs
    split_ifs at hs with hpc
    obtain rfl := Option.some.inj hs
    exact ⟨r.key, by rw [about, hr]; rfl, finish_lessens hr hpc outcome⟩
  | withLock key handle address => cases ha
  | tryLock key handle callback => cases ha
  | unlock key handle closing => cases ha
  | close handle closing => cases ha
  | abort => cases ha

/-- A key with a token has a step to take. -/
theorem token_enabled (h : 0 < y.busy k + y.idle k) :
    ∃ a, a.isInternal = true ∧ y.about a = some k ∧ (y.step a).isSome = true := by
  have htask : ∀ t ∈ y.tasks, t.key = k → ∃ a, a.isInternal = true ∧ y.about a = some k ∧ (y.step a).isSome = true := by
    intro t ht hk
    refine ⟨.task t .ok, rfl, by rw [about, hk], ?_⟩
    rw [Locks.step, if_pos ht]
    rfl
  rcases Nat.eq_zero_or_pos (y.idle k) with hidle | hidle
  · rw [hidle, Nat.add_zero, busy] at h
    rcases Nat.eq_zero_or_pos (y.tasks.countP fun t => decide (t = LockTask.complete k)) with hzero | hpos
    · rw [hzero, Nat.zero_add, List.countP_pos_iff] at h
      obtain ⟨r, hr, hout⟩ := h
      obtain ⟨i, hi⟩ := List.mem_iff_getElem?.mp hr
      rw [Bool.and_eq_true, decide_eq_true_eq] at hout
      obtain ⟨rfl, hout⟩ := hout
      cases hpc : r.pc with
      | called =>
        refine ⟨.start i, rfl, by rw [about, hi]; rfl, ?_⟩
        simp [Locks.step, hi, hpc]
      | running =>
        refine ⟨.finish i .returns, rfl, by rw [about, hi]; rfl, ?_⟩
        simp [Locks.step, hi, hpc]
      | done outcome => simp [LockRun.outstanding, hpc] at hout
    · obtain ⟨t, ht, hkind⟩ := List.countP_pos_iff.mp hpos
      refine htask t ht ?_
      rw [of_decide_eq_true hkind]
      rfl
  · obtain ⟨t, ht, hkind⟩ := List.countP_pos_iff.mp hidle
    refine htask t ht ?_
    rcases of_decide_eq_true hkind with rfl | rfl
    all_goals rfl

end Work

/-- No callback that has completion data throws, and the threads of the callbacks are there. -/
def Settles (y : Locks) : LockAction → Prop
  | .task _ status => status = .ok
  | .finish i outcome => outcome = .throws → ∀ r ∈ y.runs[i]?, r.completion = false
  | _ => True

instance (y : Locks) : ∀ a : LockAction, Decidable (y.Settles a)
  | .task _ status => inferInstanceAs (Decidable (status = .ok))
  | .finish i outcome => inferInstanceAs (Decidable (outcome = .throws → ∀ r ∈ y.runs[i]?, r.completion = false))
  | .withLock _ _ _ | .tryLock _ _ _ | .unlock _ _ _ | .close _ _ | .start _ | .abort =>
    inferInstanceAs (Decidable True)

/-- The conditions on the steps of a run. -/
def Served (y : Locks) (a : LockAction) : Prop := y.HandsOver a ∧ y.Settles a

instance (y : Locks) (a : LockAction) : Decidable (y.Served a) := inferInstanceAs (Decidable (_ ∧ _))

/-- What holds in every state of a run whose steps meet `Served`. -/
structure Serving (y : Locks) : Prop where
  intact : y.freedTwice = false
  orderly : Orderly 1 y
  owners : ∀ k l, y.locks.lookup k = some l → l.owner ∈ y.handles
  inOrder : InOrder y
  numbered : Numbered y
  inTurn : InTurn y
  settled : Settled y

/-- The database of a callback that is still to complete its lock is open. -/
theorem Serving.open (h : Serving y) {r : LockRun} (hr : r ∈ y.runs) (hout : r.outstanding = true) :
    y.handles ≠ [] := by
  have hbusy := busy_pos hr hout
  have hkey := h.orderly.keys r.key
  cases hl : y.locks.lookup r.key with
  | none =>
    rw [keyOk_none hl] at hkey
    omega
  | some l => exact List.ne_nil_of_mem (h.owners r.key l hl)

/-- The owners of the locks are as before, for a step that replaces one lock or removes it. -/
theorem owners_insert (h : ∀ k l, y.locks.lookup k = some l → l.owner ∈ y.handles) {key : Bytes}
    {l₀ : LockHandle} (hl₀ : l₀.owner ∈ y.handles) (k : Bytes) (l : LockHandle)
    (hl : (y.locks.insert key l₀).lookup k = some l) : l.owner ∈ y.handles := by
  by_cases hk : k = key
  · subst hk
    rw [AList.lookup_insert] at hl
    obtain rfl := Option.some.inj hl
    exact hl₀
  · rw [AList.lookup_insert_ne hk] at hl
    exact h k l hl

theorem owners_erase (h : ∀ k l, y.locks.lookup k = some l → l.owner ∈ y.handles) (key : Bytes)
    (k : Bytes) (l : LockHandle) (hl : (y.locks.erase key).lookup k = some l) : l.owner ∈ y.handles := by
  by_cases hk : k = key
  · subst hk
    rw [AList.lookup_erase] at hl
    cases hl
  · rw [AList.lookup_erase_ne hk] at hl
    exact h k l hl

theorem owners_fireNext (h : ∀ k l, y.locks.lookup k = some l → l.owner ∈ y.handles) {key : Bytes} {l₀ : LockHandle}
    (hl₀ : y.locks.lookup key = some l₀) (status : CallStatus) (k : Bytes) (l : LockHandle)
    (hl : (y.fireNext key l₀ status).locks.lookup k = some l) : l.owner ∈ y.handles := by
  rw [fireNext] at hl
  split_ifs at hl
  · exact h k l hl
  split at hl
  · exact owners_erase h key k l hl
  · cases status
    all_goals exact owners_insert h (by exact h key l₀ hl₀) k l hl

theorem owners_runTask (h : ∀ k l, y.locks.lookup k = some l → l.owner ∈ y.handles) (t : LockTask)
    (status : CallStatus) (k : Bytes) (l : LockHandle) (hl : (y.runTask t status).locks.lookup k = some l) :
    l.owner ∈ y.handles := by
  rw [runTask] at hl
  split at hl
  · exact h k l hl
  next l₀ hl₀ =>
    cases t with
    | acquire key => exact owners_fireNext (y := { y with tasks := y.tasks.erase (.acquire key) }) h hl₀ status k l hl
    | fire key => exact owners_fireNext (y := { y with tasks := y.tasks.erase (.fire key) }) h hl₀ status k l hl
    | complete key => exact owners_insert h (by exact h key l₀ hl₀) k l hl

theorem handles_runTask (y : Locks) (t : LockTask) (status : CallStatus) :
    (y.runTask t status).handles = y.handles := by
  have hfire : ∀ (z : Locks) (key : Bytes) (l : LockHandle), (z.fireNext key l status).handles = z.handles := by
    intro z key l
    rw [fireNext]
    split_ifs
    · rfl
    split
    · rfl
    · cases status
      all_goals rfl
  rw [runTask]
  split
  · rfl
  · cases t with
    | acquire key => exact hfire _ _ _
    | fire key => exact hfire _ _ _
    | complete key => rfl

theorem no_abort (h : y.freedTwice = false) : y.step .abort = none := by
  rw [Locks.step, h]
  rfl

/-- A lock is owned by an open handle. -/
theorem Serving.owners_step (h : Serving y) (hs : y.step a = some y') (k : Bytes) (l : LockHandle)
    (hl : y'.locks.lookup k = some l) :
    l.owner ∈ y'.handles := by
  cases a with
  | withLock key handle address =>
    rw [Locks.step] at hs
    split_ifs at hs with hopen
    obtain rfl := Option.some.inj hs
    rw [lockCall] at hl ⊢
    split at hl
    · exact owners_insert (y := y) h.owners hopen k l hl
    next l₀ hl₀ => exact owners_insert (y := y) h.owners (by exact h.owners key l₀ hl₀) k l hl
  | tryLock key handle callback =>
    rw [Locks.step] at hs
    split_ifs at hs with hopen
    obtain rfl := Option.some.inj hs
    unfold tryLock at hl ⊢
    split at hl
    · exact owners_insert h.owners hopen k l hl
    · exact h.owners k l hl
    next l₀ address hl₀ => exact owners_insert h.owners (by exact h.owners key l₀ hl₀) k l hl
  | unlock key handle closing =>
    rw [Locks.step] at hs
    split_ifs at hs with hopen
    obtain rfl := Option.some.inj hs
    change (y.lockReleaseByKey key closing).locks.lookup k = some l at hl
    change l.owner ∈ (y.lockReleaseByKey key closing).handles
    rw [lockReleaseByKey] at hl ⊢
    split at hl
    · exact h.owners k l hl
    · exact owners_erase h.owners key k l hl
  | close handle closing =>
    rw [Locks.step] at hs
    split_ifs at hs with hopen
    obtain rfl := Option.some.inj hs
    change (without y.locks handle).lookup k = some l at hl
    rw [lookup_without, Option.filter_eq_some_iff] at hl
    exact List.mem_filter.mpr ⟨h.owners k l hl.1, hl.2⟩
  | task t status =>
    rw [Locks.step] at hs
    split_ifs at hs
    obtain rfl := Option.some.inj hs
    rw [handles_runTask]
    exact owners_runTask h.owners t status k l hl
  | start i =>
    obtain ⟨r, hr, hs⟩ := Option.bind_eq_some_iff.mp hs
    split_ifs at hs
    obtain rfl := Option.some.inj hs
    exact h.owners k l hl
  | finish i outcome =>
    obtain ⟨r, hr, hs⟩ := Option.bind_eq_some_iff.mp hs
    split_ifs at hs
    obtain rfl := Option.some.inj hs
    obtain ⟨settled, tasks, freed, heq, -, -⟩ :=
      callJsCallback_cases { y with runs := y.runs.set i { r with pc := .done outcome } } r outcome
    rw [heq] at hl ⊢
    exact h.owners k l hl
  | abort =>
    rw [no_abort h.intact] at hs
    cases hs

theorem Serving.moves_step (h : Serving y) (hg : y.Served a) (hs : y.step a = some y') : Moves y y' := by
  cases a with
  | withLock key handle address =>
    rw [Locks.step] at hs
    split_ifs at hs
    obtain rfl := Option.some.inj hs
    exact Moves.lockCall y key handle address
  | tryLock key handle callback =>
    rw [Locks.step] at hs
    split_ifs at hs
    obtain rfl := Option.some.inj hs
    exact Moves.tryLock y key handle callback
  | unlock key handle closing =>
    rw [Locks.step] at hs
    split_ifs at hs
    obtain rfl := Option.some.inj hs
    exact Moves.unlock hg.1
  | close handle closing =>
    rw [Locks.step] at hs
    split_ifs at hs
    obtain rfl := Option.some.inj hs
    exact Moves.close hg.1
  | task t status =>
    rw [Locks.step] at hs
    split_ifs at hs
    obtain rfl := Option.some.inj hs
    obtain rfl : status = .ok := hg.2
    exact Moves.runTask y t
  | start i =>
    obtain ⟨r, hr, hs⟩ := Option.bind_eq_some_iff.mp hs
    split_ifs at hs
    obtain rfl := Option.some.inj hs
    exact Moves.start hr .running
  | finish i outcome =>
    obtain ⟨r, hr, hs⟩ := Option.bind_eq_some_iff.mp hs
    split_ifs at hs
    obtain rfl := Option.some.inj hs
    exact Moves.finish hr outcome
  | abort =>
    rw [no_abort h.intact] at hs
    cases hs

theorem Serving.inTurn_step (h : Serving y) (hs : y.step a = some y') : InTurn y' := by
  cases a with
  | withLock key handle address =>
    rw [Locks.step] at hs
    split_ifs at hs
    obtain rfl := Option.some.inj hs
    rw [InTurn, lockCall_runs]
    exact h.inTurn
  | tryLock key handle callback =>
    rw [Locks.step] at hs
    split_ifs at hs
    obtain rfl := Option.some.inj hs
    rw [InTurn, tryLock_runs]
    exact h.inTurn
  | unlock key handle closing =>
    rw [Locks.step] at hs
    split_ifs at hs
    obtain rfl := Option.some.inj hs
    have hreleased : InTurn (y.lockReleaseByKey key closing) := by
      rw [lockReleaseByKey]
      split
      · exact h.inTurn
      · exact InTurn.callAll (y := { y with locks := y.locks.erase key }) h.inTurn _ _
    exact hreleased
  | close handle closing =>
    rw [Locks.step] at hs
    split_ifs at hs
    obtain rfl := Option.some.inj hs
    exact InTurn.callAll (y := { y with locks := without y.locks handle }) h.inTurn _ _
  | task t status =>
    rw [Locks.step] at hs
    split_ifs at hs with ht
    obtain rfl := Option.some.inj hs
    rcases runTask_runs y t status with heq | ⟨callback, heq⟩
    · rw [InTurn, heq]
      exact h.inTurn
    · obtain ⟨-, -, -, hbusy, -, -⟩ := (h.orderly.keys t.key).token ht
      have happend := InTurn.append (y := { y with tasks := y.tasks.erase t }) h.inTurn ⟨t.key, callback, true,
        .called⟩ fun _ => hbusy
      rw [InTurn, heq]
      exact happend
  | start i =>
    obtain ⟨r, hr, hs⟩ := Option.bind_eq_some_iff.mp hs
    split_ifs at hs with hpc
    obtain rfl := Option.some.inj hs
    exact h.inTurn.set hr fun hout => by simpa [LockRun.outstanding, hpc] using hout
  | finish i outcome =>
    obtain ⟨r, hr, hs⟩ := Option.bind_eq_some_iff.mp hs
    split_ifs at hs with hpc
    obtain rfl := Option.some.inj hs
    obtain ⟨settled, tasks, freed, heq, -, -⟩ :=
      callJsCallback_cases { y with runs := y.runs.set i { r with pc := .done outcome } } r outcome
    rw [heq]
    exact h.inTurn.set hr fun hout => by simp [LockRun.outstanding] at hout
  | abort =>
    rw [no_abort h.intact] at hs
    cases hs

/-- The end of a `withLock` callback settles its promise, which was not settled before. -/
theorem Serving.settled_finish (h : Serving y) {i : ℕ} {r : LockRun} {outcome : CallbackOutcome}
    (hr : y.runs[i]? = some r) (hpc : r.pc = .running) (hg : y.Settles (.finish i outcome)) :
    Settled ({ y with runs := y.runs.set i { r with pc := .done outcome } }.callJsCallback r outcome) := by
  have hmem := List.mem_of_getElem? hr
  have hnot : r.ended = false := by rw [LockRun.ended, hpc]
  have hended := ended_set hr hnot outcome
  obtain ⟨settled, tasks, freed, heq, -, -⟩ :=
    callJsCallback_cases { y with runs := y.runs.set i { r with pc := .done outcome } } r outcome
  by_cases hd : r.callback.deferred = true
  · have hcompletion := h.orderly.completion hmem hd
    have hopen := h.open hmem (by simp [LockRun.outstanding, hcompletion, hpc])
    have hthrow : outcome ≠ .throws := fun ht => absurd ((hg ht r hr).symm.trans hcompletion) Bool.false_ne_true
    obtain ⟨s, hs⟩ := callJsCallback_settles (y := { y with runs := y.runs.set i { r with pc := .done outcome } }) hd
      hcompletion hopen hthrow
    rw [Settled, hs]
    rw [heq, List.map_append]
    refine ⟨?_, fun id => ?_⟩
    · rw [List.nodup_append]
      refine ⟨h.settled.1, by simp, ?_⟩
      rintro id hid _ hnew rfl
      -- a promise that is settled is of a run that has ended
      simp only [List.map_cons, List.map_nil, List.mem_singleton] at hnew
      subst hnew
      obtain ⟨r', hr', hd', hid', hend⟩ := (h.settled.2 _).mp hid
      obtain ⟨j, hj⟩ := List.mem_iff_getElem?.mp hr'
      obtain rfl := run_unique h.inOrder h.numbered hj hr hd' hd hid'
      obtain rfl := Option.some.inj (hr.symm.trans hj)
      exact absurd (hnot.symm.trans hend) Bool.false_ne_true
    · rw [List.mem_append, h.settled.2 id]
      refine Iff.trans ?_ (hended id).symm
      constructor
      · rintro (hold | hnew)
        · exact Or.inr hold
        · exact Or.inl ⟨hd, (List.mem_singleton.mp hnew).symm⟩
      · rintro (⟨-, hid⟩ | hold)
        · exact Or.inr (List.mem_singleton.mpr hid.symm)
        · exact Or.inl hold
  · have hsilent := callJsCallback_silent (y := { y with runs := y.runs.set i { r with pc := .done outcome } })
      (by simpa using hd) outcome
    refine h.settled.congr hsilent fun id => ?_
    rw [heq]
    refine (hended id).trans ?_
    simp [hd]

/-- A section settles nothing and frees nothing. -/
theorem runTask_frame (y : Locks) (t : LockTask) (status : CallStatus) :
    (y.runTask t status).settled = y.settled ∧ (y.runTask t status).freedTwice = y.freedTwice := by
  have hfire : ∀ (z : Locks) (key : Bytes) (l : LockHandle),
      (z.fireNext key l status).settled = z.settled ∧ (z.fireNext key l status).freedTwice = z.freedTwice := by
    intro z key l
    rw [fireNext]
    split_ifs
    · exact ⟨rfl, rfl⟩
    split
    · exact ⟨rfl, rfl⟩
    · cases status
      all_goals exact ⟨rfl, rfl⟩
  rw [runTask]
  split
  · exact ⟨rfl, rfl⟩
  · cases t with
    | acquire key => exact hfire _ _ _
    | fire key => exact hfire _ _ _
    | complete key => exact ⟨rfl, rfl⟩

theorem Settled.callAll (h : Settled y) (calls : List (Bytes × LockCallback)) (closing : List ℕ) :
    Settled (y.callAll calls closing) := by
  refine h.append rfl rfl fun r hr => ?_
  obtain ⟨c, -, rfl⟩ := List.mem_map.mp hr
  rfl

theorem Serving.settled_step (h : Serving y) (hg : y.Settles a) (hs : y.step a = some y') : Settled y' := by
  cases a with
  | withLock key handle address =>
    rw [Locks.step] at hs
    split_ifs at hs
    obtain rfl := Option.some.inj hs
    refine h.settled.congr ?_ fun id => by rw [lockCall_runs]
    rw [lockCall]
    split
    all_goals rfl
  | tryLock key handle callback =>
    rw [Locks.step] at hs
    split_ifs at hs
    obtain rfl := Option.some.inj hs
    refine h.settled.congr ?_ fun id => by rw [tryLock_runs]
    unfold tryLock
    split
    all_goals rfl
  | unlock key handle closing =>
    rw [Locks.step] at hs
    split_ifs at hs
    obtain rfl := Option.some.inj hs
    have hreleased : Settled (y.lockReleaseByKey key closing) := by
      rw [lockReleaseByKey]
      split
      · exact h.settled
      · exact Settled.callAll (y := { y with locks := y.locks.erase key }) h.settled _ _
    exact hreleased
  | close handle closing =>
    rw [Locks.step] at hs
    split_ifs at hs
    obtain rfl := Option.some.inj hs
    exact Settled.callAll (y := { y with locks := without y.locks handle }) h.settled _ _
  | task t status =>
    rw [Locks.step] at hs
    split_ifs at hs
    obtain rfl := Option.some.inj hs
    rcases runTask_runs y t status with heq | ⟨callback, heq⟩
    · exact h.settled.congr ((runTask_frame y t status).1) fun id => by rw [heq]
    · refine h.settled.append heq ((runTask_frame y t status).1) fun r hr => ?_
      obtain rfl := List.mem_singleton.mp hr
      rfl
  | start i =>
    obtain ⟨r, hr, hs⟩ := Option.bind_eq_some_iff.mp hs
    split_ifs at hs with hpc
    obtain rfl := Option.some.inj hs
    exact h.settled.congr rfl fun id => ended_start hr (by rw [LockRun.ended, hpc]) id
  | finish i outcome =>
    obtain ⟨r, hr, hs⟩ := Option.bind_eq_some_iff.mp hs
    split_ifs at hs with hpc
    obtain rfl := Option.some.inj hs
    exact h.settled_finish hr hpc hg
  | abort =>
    rw [no_abort h.intact] at hs
    cases hs

/-- No callback has had its completion data freed twice. -/
theorem Serving.intact_step (h : Serving y) (hg : y.Settles a) (hs : y.step a = some y') : y'.freedTwice = false := by
  cases a with
  | withLock key handle address =>
    rw [Locks.step] at hs
    split_ifs at hs
    obtain rfl := Option.some.inj hs
    rw [lockCall]
    split
    all_goals exact h.intact
  | tryLock key handle callback =>
    rw [Locks.step] at hs
    split_ifs at hs
    obtain rfl := Option.some.inj hs
    unfold tryLock
    split
    all_goals exact h.intact
  | unlock key handle closing =>
    rw [Locks.step] at hs
    split_ifs at hs
    obtain rfl := Option.some.inj hs
    change (y.lockReleaseByKey key closing).freedTwice = false
    rw [lockReleaseByKey]
    split
    all_goals exact h.intact
  | close handle closing =>
    rw [Locks.step] at hs
    split_ifs at hs
    obtain rfl := Option.some.inj hs
    exact h.intact
  | task t status =>
    rw [Locks.step] at hs
    split_ifs at hs
    obtain rfl := Option.some.inj hs
    exact (runTask_frame y t status).2.trans h.intact
  | start i =>
    obtain ⟨r, hr, hs⟩ := Option.bind_eq_some_iff.mp hs
    split_ifs at hs
    obtain rfl := Option.some.inj hs
    exact h.intact
  | finish i outcome =>
    obtain ⟨r, hr, hs⟩ := Option.bind_eq_some_iff.mp hs
    split_ifs at hs
    obtain rfl := Option.some.inj hs
    rcases callJsCallback_freed { y with runs := y.runs.set i { r with pc := .done outcome } } r
      outcome with heq | ⟨hthrows, hcompletion⟩
    · exact heq.trans h.intact
    · exact absurd ((hg hthrows r hr).symm.trans hcompletion) Bool.false_ne_true
  | abort =>
    rw [no_abort h.intact] at hs
    cases hs

theorem Serving.step (h : Serving y) (hg : y.Served a) (hs : y.step a = some y') : Serving y' := by
  have hmoves := h.moves_step hg hs
  have hkept : (∀ t, a ≠ .task t .closing) ∧ ∀ r ∈ y.runs, r.outstanding = true → y.handles ≠ [] := by
    refine ⟨fun t ht => ?_, fun r hr hout => h.open hr hout⟩
    subst ht
    cases hg.2
  exact { intact := h.intact_step hg.2 hs
          orderly := Orderly.step le_rfl h.orderly hg.1 (Or.inr hkept) hs
          owners := h.owners_step hs
          inOrder := hmoves.inOrder h.inOrder
          numbered := hmoves.numbered h.numbered
          inTurn := h.inTurn_step hs
          settled := h.settled_step hg.2 hs }

theorem Initial.serving (h : Initial y) : Serving y := by
  have hnone : ∀ k, y.locks.lookup k = none := by
    intro k
    rw [h.locks]
    exact AList.lookup_empty k
  refine ⟨h.intact, h.orderly, fun k l hl => ?_, fun k => ?_, ?_, fun i j r r' _ hr => ?_, ?_⟩
  · rw [hnone k] at hl
    cases hl
  · rw [waiting_of_none (hnone k), dequeued, h.arrivals, h.runs]
    rfl
  · rw [Numbered, h.arrivals]
    exact ⟨List.nodup_nil, fun p hp => absurd hp List.not_mem_nil⟩
  · rw [h.runs] at hr
    cases hr
  · rw [Settled, h.settled, h.runs]
    exact ⟨List.nodup_nil, fun id => by simp⟩

/-- What the callers of `withLock` are promised. The callbacks of a key come out of its queue in the
order of the calls, each of them once and only when the one before it has ended; a promise is
settled when its callback has ended, and once; a running lock has one callback that is to complete
it, or is at it; and a key with callbacks that no `tryLock` keeps waiting has a step to take, of
which there are only so many. -/
structure WellServed (y : Locks) : Prop where
  inOrder : InOrder y
  once : (y.arrivals.map Prod.snd).Nodup
  inTurn : ∀ (i j : ℕ) (r r' : LockRun), i < j → y.runs[i]? = some r → y.runs[j]? = some r' → r.key = r'.key →
    r.callback.deferred = true → r'.callback.deferred = true → r.ended = true
  settled : Settled y
  running : ∀ k l, y.locks.lookup k = some l → l.isRunning = true → y.busy k = 1
  moving : ∀ k, y.waiting k ≠ [] → y.heldAt k = [] → ∃ a, a.isInternal = true ∧ y.about a = some k ∧
    (y.step a).isSome = true
  lessening : ∀ a y', a.isInternal = true → y.step a = some y' → ∃ key, y.about a = some key ∧ Lessens y y' key

theorem Serving.wellServed (h : Serving y) : WellServed y := by
  refine ⟨h.inOrder, h.numbered.1, ?_, h.settled, ?_, ?_, fun a y' ha hs => internal_lessens ha hs⟩
  · intro i j r r' hij hr hr' hkey hd hd'
    have hdone := h.inTurn i j r r' hij hr hr' hkey (h.orderly.completion (List.mem_of_getElem? hr') hd')
    rw [LockRun.outstanding, h.orderly.completion (List.mem_of_getElem? hr) hd, Bool.true_and] at hdone
    rw [LockRun.ended]
    cases hpc : r.pc with
    | done outcome => rfl
    | called => simp [hpc] at hdone
    | running => simp [hpc] at hdone
  · intro k l hl hrunning
    rcases (keyOk_some hl).mp (h.orderly.keys k) with ⟨-, hnot, -, -⟩ | ⟨-, hone, hidle, -⟩
    · exact absurd (hnot.symm.trans hrunning) Bool.false_ne_true
    · have hzero := hidle hrunning
      omega
  · intro k hwaiting hfree
    cases hl : y.locks.lookup k with
    | none => exact absurd (waiting_of_none hl) hwaiting
    | some l =>
      apply token_enabled
      rcases (keyOk_some hl).mp (h.orderly.keys k) with ⟨hheld, -, -, -⟩ | ⟨-, hone, -, -⟩
      · rw [hfree] at hheld
        cases hheld
      · omega

/-- In every run whose steps meet `Served`, the callers of `withLock` get what they are promised. -/
theorem withLock_in_order {y₀ y : Locks} {acts : List LockAction} (h0 : Initial y₀)
    (hok : Runs.Along step Served y₀ acts) (hrun : Runs.exec step y₀ acts = some y) : WellServed y :=
  (Runs.exec_invariant (fun _ _ _ h hg hs => h.step hg hs) h0.serving hok hrun).wellServed

theorem withLock_in_order_two : WellServed (Runs.final step { handles := [1, 2] } handedOn) :=
  withLock_in_order (initial_handles [1, 2]) (by decide +kernel)
    (Runs.exec_final step { handles := [1, 2] } handedOn (by decide +kernel))

/-- A callback that throws: it has ended, and its promise is not settled. -/
def threw : List LockAction := [.withLock lockKey 1 10, .task (.acquire lockKey) .ok, .start 0, .finish 0 .throws]

theorem threw_unsettled :
    ¬ ∀ (y₀ y : Locks) (acts : List LockAction), Initial y₀ → Runs.Along step HolderUnlocks y₀ acts →
      Runs.exec step y₀ acts = some y →
      WellServed y := by
  intro h
  have hrun := Runs.exec_final step { handles := [1] } threw (by decide +kernel)
  have hserved := h { handles := [1] } _ threw (initial_handles [1]) (by decide +kernel) hrun
  have hended := (hserved.settled.2 0).mpr ⟨⟨lockKey, ⟨0, 10, true⟩, true, .done .throws⟩, by decide +kernel, rfl,
    rfl, rfl⟩
  revert hended
  decide +kernel

end Locks

end RocksdbJs
