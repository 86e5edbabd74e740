import RocksdbJs.Lib.Runs
import RocksdbJs.Sanity.LockTokens

/-! `withLock` as a lock. While every lock that is given back, by its holder's `unlock` or with the
handle that owns it, is one of `tryLock` with no `withLock` callback in its queue, at most one
`withLock` callback of a key is running, and none starts while a `tryLock` of the key is held. The
queue of a lock that is given back is called all at once, without the lock, and a callback that
runs when its lock is given back completes the lock of another later. -/

namespace RocksdbJs

/-- The run is of a `withLock` callback of the key, between its start and its completion. -/
def LockRun.inside (r : LockRun) (k : Bytes) : Bool :=
  decide (r.key = k) && r.callback.deferred && decide (r.pc = .running)

namespace Locks
variable {y : Locks} {a : LockAction} {n : ℕ}

/-- At most one callback of a key is between its start and its completion. -/
def Exclusive (y : Locks) : Prop := ∀ k, (y.runs.countP fun r => r.inside k) ≤ 1

/-- The step starts no `withLock` callback of a key that a `tryLock` holds. -/
def StartsFree (y : Locks) (a : LockAction) : Prop :=
  ∀ i r, a = .start i → (y.step a).isSome = true → y.runs[i]? = some r → r.callback.deferred = true →
    ∀ handle, (r.key, handle) ∉ y.held

/-- `unlock` is called by a holder of the key. -/
def HolderUnlocks (y : Locks) : LockAction → Prop
  | .unlock key handle _ => (key, handle) ∈ y.held
  | _ => True

instance (y : Locks) : ∀ a : LockAction, Decidable (y.HolderUnlocks a)
  | .unlock key handle _ => inferInstanceAs (Decidable ((key, handle) ∈ y.held))
  | .withLock _ _ _ | .tryLock _ _ _ | .close _ _ | .task _ _ | .start _ | .finish _ _ | .abort =>
    inferInstanceAs (Decidable True)

theorem Orderly.exclusive (h : Orderly n y) : Exclusive y := by
  intro k
  have hbusy : y.busy k ≤ 1 := by
    have hk := h.keys k
    rw [KeyOk] at hk
    split at hk
    · omega
    · rcases hk with hk | hk
      all_goals omega
  refine le_trans (List.countP_mono_left fun r hr hin => ?_) ((Nat.le_add_left _ _).trans hbusy)
  rw [LockRun.inside, Bool.and_eq_true, Bool.and_eq_true, decide_eq_true_eq, decide_eq_true_eq] at hin
  obtain ⟨⟨hkey, hdeferred⟩, hpc⟩ := hin
  have hcompletion := h.completion hr hdeferred
  simp [hkey, LockRun.outstanding, hcompletion, hpc]

theorem Orderly.startsFree (h : Orderly n y) : y.StartsFree a := by
  rintro i r rfl hs hr hdeferred handle hheld
  obtain ⟨y', hs⟩ := Option.isSome_iff_exists.mp hs
  obtain ⟨r₀, hr₀, hs⟩ := Option.bind_eq_some_iff.mp hs
  obtain rfl := Option.some.inj (hr.symm.trans hr₀)
  split_ifs at hs with hpc
  have hmem := List.mem_of_getElem? hr
  have hcompletion := h.completion hmem hdeferred
  have hbusy : 0 < y.busy r.key := busy_pos hmem (by simp [LockRun.outstanding, hcompletion, hpc])
  have hin : (r.key, handle) ∈ y.heldAt r.key := List.mem_filter.mpr ⟨hheld, by simp⟩
  rw [(h.keys r.key).not_held hbusy] at hin
  cases hin

/-- In every run that gives back only locks of `tryLock` with no `withLock` callback behind them, the
callbacks of `withLock` exclude each other and the holders of `tryLock`. -/
theorem withLock_exclusive {y₀ : Locks} {acts : List LockAction} (h0 : Initial y₀)
    (hok : Runs.Along step HandsOver y₀ acts) :
    Runs.Along step (fun y a => Exclusive y ∧ StartsFree y a) y₀ acts ∧ ∀ y, Runs.exec step y₀ acts = some y →
      Exclusive y :=
  ⟨hok.of_invariant (fun _ _ _ h hg hs => Orderly.step (Nat.zero_le 1) h hg (Or.inl rfl) hs) (fun _ _ h _ =>
    ⟨h.exclusive, h.startsFree⟩) h0.orderly,
    fun _ hrun => (Runs.exec_invariant (fun _ _ _ h hg hs => Orderly.step (Nat.zero_le 1) h hg (Or.inl rfl) hs)
      h0.orderly hok hrun).exclusive⟩

section Sample

def lockKey : Bytes := [102, 111, 111]

theorem initial_handles (handles : List ℕ) : Initial { handles } := ⟨rfl, rfl, rfl, rfl, rfl, rfl, rfl⟩

/-- Two callbacks wait for the lock; the second runs when the first has completed. -/
def handedOn : List LockAction :=
  [.withLock lockKey 1 10, .withLock lockKey 2 11, .task (.acquire lockKey) .ok, .start 0, .finish 0 .resolves,
    .task (.complete lockKey) .ok, .task (.fire lockKey) .ok, .start 1]

/-- Two callbacks wait for a lock of `tryLock`, and are both called when that is unlocked. -/
def unlocked : List LockAction :=
  [.tryLock lockKey 1 none, .withLock lockKey 1 10, .withLock lockKey 2 11, .unlock lockKey 1 [], .start 0, .start 1]

end Sample

theorem withLock_exclusive_two :
    Runs.Along step (fun y a => Exclusive y ∧ StartsFree y a) { handles := [1, 2] } handedOn ∧
      ∀ y, Runs.exec step { handles := [1, 2] } handedOn = some y → Exclusive y :=
  withLock_exclusive (initial_handles _) (by decide +kernel)

/-- Both callbacks are running. -/
theorem unlocked_together :
    ¬ ∀ (y₀ : Locks) (acts : List LockAction), Initial y₀ → Runs.Along step HolderUnlocks y₀ acts →
      Runs.Along step (fun y a => Exclusive y ∧ StartsFree y a) y₀ acts ∧ ∀ y, Runs.exec step y₀ acts = some y →
      Exclusive y := by
  intro h
  have hrun := Runs.exec_final step { handles := [1, 2] } unlocked (by decide +kernel)
  have hone := (h { handles := [1, 2] } unlocked (initial_handles _) (by decide +kernel)).2 _ hrun lockKey
  revert hone
  decide +kernel

end Locks

end RocksdbJs
