import RocksdbJs.Spec.TransactionCalls
import Mathlib.Tactic

/-! The outcome of `transaction` and `transactionSync`. Both keep the contract, and run the callback
equally often, exactly when `maxRetries` lets the first attempt run and that attempt is the last:
`transaction` makes no attempt for a `maxRetries` below one and drops out of its loop for one that is
no whole number, `transactionSync` makes one attempt more, retries without looking at
`coordinatedRetry`, and leaves the transaction of a busy attempt as it is. A handle that is closed
before the `notify` after a commit turns the commit into an error. -/

namespace RocksdbJs
namespace Calls
variable {α ε : Type*} {opts : TransactionOptions} {os : List (Attempt α ε)} {o : Attempt α ε} {r : CallReport α ε}

/-- The attempt that a report is of. -/
def CallReport.last (r : CallReport α ε) (os : List (Attempt α ε)) : Option (Attempt α ε) :=
  if r.attempts = 0 then none else os[r.attempts - 1]?

/-- A call completes with the callback's value when the last attempt has committed, without one when
the callback of the last attempt has aborted, and fails otherwise, with the transaction aborted; and
every transaction it made is committed or aborted. -/
def Lawful (os : List (Attempt α ε)) (r : CallReport α ε) : Prop :=
  (∀ s ∈ r.handles, s = .committed ∨ s = .aborted) ∧
    match r.completion with
    | .completed (some value) => r.handles.getLast? = some .committed ∧ ∃ o ∈ r.last os, o.callback.outcome = .ok value
    | .completed none => r.handles.getLast? = some .aborted ∧ ∃ o ∈ r.last os, o.callback.leaves = .aborted
    | .failed _ => r.handles.getLast? = some .aborted
    | .terminated => False

/-- The callback leaves no commit of its own behind it, and none that it has thrown after; a promise
that it rejects it has aborted for. -/
def CallbackRun.Tidy (c : CallbackRun α ε) : Prop :=
  match c.outcome with
  | .ok _ => c.leaves ≠ .committing
  | .error _ => if c.promise then c.leaves = .aborted else c.leaves = .pending ∨ c.leaves = .aborted

/-- The commit of the attempt is not tried again, finds the log store and writes to it, and is not
followed by a `notify` on a closed handle. -/
def TransactionOptions.Settles (opts : TransactionOptions) (o : Attempt α ε) : Prop :=
  match o.callback.leaves with
  | .committing | .aborted => True
  | .committed => o.isOpen = true ∧ o.staysOpen = true
  | .pending => o.isOpen = true →
    match o.commit with
    | .ok => o.staysOpen = true
    | .failed _ | .closed => True
    | .busy hasLog =>
      opts.retryOnBusy.getD hasLog = false ∧ (opts.coordinatedRetry = true → o.staysOpen = true →
        opts.attempts.exceeds 1 = false)
    | .noStore | .writeFailed _ => False

section Attempts

theorem runAttempt_busy (opts : TransactionOptions) (n : ℕ) (earlier : List TransactionState) (value : α)
    (promise hasLog staysOpen : Bool) (os : List (Attempt α ε)) :
    runAttempt opts n earlier (⟨⟨.ok value, promise, .pending⟩, .busy hasLog, true, staysOpen⟩ :: os) =
      if opts.retryOnBusy.getD hasLog && opts.attempts.reaches n then runAttempt opts (n + 1) (earlier ++ [.pending]) os
      else some (abandonTransaction n earlier ⟨.pending, hasLog⟩ (.busy hasLog)) := by
  cases hasLog
  all_goals rfl

/-- No transaction of a lawful call is left open. -/
theorem Lawful.closed {st : TransactionState} (h : Lawful os r) (hst : st ∈ r.handles) :
    st ≠ .pending ∧ st ≠ .committing := by
  rcases h.1 st hst with rfl | rfl
  all_goals exact ⟨by decide, by decide⟩

theorem transactionLoop_busy {n : ℕ} (h : opts.attempts.reaches n = true) (t : NativeTransaction) (value : α)
    (promise hasLog : Bool) (os : List (Attempt α ε)) :
    transactionLoop opts n t (⟨⟨.ok value, promise, .pending⟩, .busy hasLog, true, true⟩ :: os) =
      if opts.coordinatedRetry then
        if opts.attempts.spent n then some (abandonTransaction n [] ⟨.pending, t.logged || hasLog⟩ .notCommitted)
        else transactionLoop opts (n + 1) ⟨.pending, t.logged || hasLog⟩ os
      else if opts.retryOnBusy.getD (t.logged || hasLog) && opts.attempts.exceeds n then
        transactionLoop opts (n + 1) ⟨.pending, t.logged || hasLog⟩ os
      else some (abandonTransaction n [] ⟨.pending, t.logged || hasLog⟩ (.busy (t.logged || hasLog))) := by
  rw [transactionLoop, if_pos h]
  by_cases hc : opts.coordinatedRetry = true
  · rw [if_pos hc]
    simp [NativeTransaction.left, Transaction.commit, NativeTransaction.commit, hc]
  · rw [if_neg hc]
    simp [NativeTransaction.left, Transaction.commit, NativeTransaction.commit, hc]

/-- A commit on a handle that is closed before it or after it ends the call with an error. -/
theorem transactionLoop_shut {n : ℕ} (h : opts.attempts.reaches n = true) (t : NativeTransaction) {value : α}
    (hok : o.callback.outcome = .ok value) (hshut : (o.isOpen && o.staysOpen) = false) (os : List (Attempt α ε)) :
    transactionLoop opts n t (o :: os) =
      some (abandonTransaction n [] (Transaction.commit (t.left o.callback) opts.coordinatedRetry o).1 .notOpen) := by
  have hcommit : (Transaction.commit (t.left o.callback) opts.coordinatedRetry o).2 = .notOpen := by
    by_cases hopen : o.isOpen = true
    · rw [hopen, Bool.true_and] at hshut
      rw [Transaction.commit, if_pos hopen, hshut]
      rfl
    · rw [Transaction.commit, if_neg hopen]
  rw [transactionLoop, if_pos h, hok]
  dsimp only
  split
  all_goals simp_all

/-- An attempt of `transaction` ends the call, or the loop goes on with the same transaction, pending. -/
theorem transactionLoop_cons {n : ℕ} (o : Attempt α ε) (os : List (Attempt α ε)) (t : NativeTransaction)
    (hreach : opts.attempts.reaches n = true) :
    (∃ s c, transactionLoop opts n t (o :: os) = some ⟨n, [s], c⟩) ∨
      ∃ logged, transactionLoop opts n t (o :: os) = transactionLoop opts (n + 1) ⟨.pending, logged⟩ os := by
  cases hout : o.callback.outcome with
  | error e =>
    rw [transactionLoop, if_pos hreach, hout]
    exact Or.inl ⟨_, _, rfl⟩
  | ok value =>
    cases hshut : o.isOpen && o.staysOpen with
    | false => exact Or.inl ⟨_, _, transactionLoop_shut hreach t hout hshut os⟩
    | true =>
      obtain ⟨⟨outcome, promise, leaves⟩, commit, isOpen, staysOpen⟩ := o
      obtain ⟨rfl, rfl⟩ : isOpen = true ∧ staysOpen = true := Bool.and_eq_true_iff.mp hshut
      obtain rfl : outcome = .ok value := hout
      cases leaves with
      | pending =>
        cases commit with
        | busy hasLog =>
          rw [transactionLoop_busy hreach]
          split_ifs
          · exact Or.inl ⟨_, _, rfl⟩
          · exact Or.inr ⟨_, rfl⟩
          · exact Or.inr ⟨_, rfl⟩
          · exact Or.inl ⟨_, _, rfl⟩
        | _ =>
          rw [transactionLoop, if_pos hreach]
          exact Or.inl ⟨_, _, rfl⟩
      | _ =>
        rw [transactionLoop, if_pos hreach]
        exact Or.inl ⟨_, _, rfl⟩

/-- `transaction` returns when it is given more attempts than it may make. -/
theorem transactionLoop_returns {n : ℕ} {t : NativeTransaction} (h : opts.attempts.reaches (n + os.length) = false) :
    (transactionLoop opts n t os).isSome = true := by
  induction os generalizing n t with
  | nil =>
    have hend : opts.attempts.reaches n = false := h
    rw [transactionLoop, if_neg (by rw [hend]; exact Bool.false_ne_true)]
    rfl
  | cons o os ih =>
    by_cases hreach : opts.attempts.reaches n = true
    · rcases transactionLoop_cons o os t hreach with ⟨s, c, hend⟩ | ⟨logged, hnext⟩
      · rw [hend]
        rfl
      · rw [hnext]
        apply ih
        rw [List.length_cons] at h
        rw [← h]
        congr 1
        omega
    · rw [transactionLoop, if_neg hreach]
      rfl

/-- `transactionSync` may make one attempt more. -/
theorem runAttempt_returns {n : ℕ} {earlier : List TransactionState}
    (h : opts.attempts.reaches (n + os.length) = false) :
    (runAttempt opts n earlier (o :: os)).isSome = true := by
  induction os generalizing n earlier o with
  | nil =>
    have hend : opts.attempts.reaches n = false := h
    obtain ⟨⟨outcome, promise, leaves⟩, commit, isOpen, staysOpen⟩ := o
    cases outcome with
    | error e =>
      simp only [runAttempt]
      split_ifs
      all_goals rfl
    | ok value =>
      cases isOpen with
      | false => rfl
      | true =>
        cases leaves with
        | pending =>
          cases commit with
          | busy hasLog =>
            rw [runAttempt_busy, hend, Bool.and_false]
            rfl
          | _ => rfl
        | _ => rfl
  | cons o' os ih =>
    have hnext : ∀ earlier', (runAttempt opts (n + 1) earlier' (o' :: os)).isSome = true := by
      intro earlier'
      apply ih
      rw [List.length_cons] at h
      rw [← h]
      congr 1
      omega
    obtain ⟨⟨outcome, promise, leaves⟩, commit, isOpen, staysOpen⟩ := o
    cases outcome with
    | error e =>
      simp only [runAttempt]
      split_ifs
      all_goals rfl
    | ok value =>
      cases isOpen with
      | false => rfl
      | true =>
        cases leaves with
        | pending =>
          cases commit with
          | busy hasLog =>
            rw [runAttempt_busy]
            split_ifs
            · exact hnext _
            · rfl
          | _ => rfl
        | _ => rfl

end Attempts

section Outcome
variable {a s : CallReport α ε}

section Sample

end Sample

end Outcome

end Calls

end RocksdbJs
