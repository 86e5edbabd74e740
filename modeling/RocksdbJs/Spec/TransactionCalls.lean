import RocksdbJs.Spec.Transactions
import Mathlib.Data.Rat.Defs

/-! `RocksDatabase.transaction` and `RocksDatabase.transactionSync` (`database.ts`) as their callers see
them, over the `Transaction` of `transaction.ts`: what the callback and the native commit do on each
attempt goes in, and what comes back is the completion of the call, the number of attempts, and the
states the transactions are left in. -/

namespace RocksdbJs
namespace Calls

/-- The numbers of JavaScript. -/
inductive JsNumber
  | nan | negInfinity | finite (q : ℚ) | infinity
deriving DecidableEq

/-- `attempt <= maxRetries`. -/
def JsNumber.reaches (m : JsNumber) (attempt : ℕ) : Bool :=
  match m with
  | .nan | .negInfinity => false
  | .finite q => decide ((attempt : ℚ) ≤ q)
  | .infinity => true

/-- `attempt < maxRetries`. -/
def JsNumber.exceeds (m : JsNumber) (attempt : ℕ) : Bool :=
  match m with
  | .nan | .negInfinity => false
  | .finite q => decide ((attempt : ℚ) < q)
  | .infinity => true

/-- `attempt >= maxRetries`. -/
def JsNumber.spent (m : JsNumber) (attempt : ℕ) : Bool :=
  match m with
  | .nan | .infinity => false
  | .finite q => decide (q ≤ (attempt : ℚ))
  | .negInfinity => true

structure TransactionOptions where
  maxRetries : Option JsNumber := none
  retryOnBusy : Option Bool := none
  coordinatedRetry : Bool := false
deriving DecidableEq

def TransactionOptions.attempts (opts : TransactionOptions) : JsNumber := opts.maxRetries.getD (.finite 3)

variable {α ε : Type*}

/-- A run of the callback: it returns a value or throws, at once or by a promise, and leaves the
transaction, which was pending, as it is or in the state that its own `abort` or `commit`, or the
closing of the database, gave it. -/
structure CallbackRun (α ε : Type*) where
  outcome : Except ε α
  promise : Bool := false
  leaves : TransactionState := .pending

/-- What the native commit of a pending transaction meets. `hasLog` is that it has written the batch,
`positioned` that a `writeBatch` that throws has set `committedPosition`, and `closed` that the
database is closed in the meantime, which aborts the transaction. -/
inductive CommitOutcome
  | ok
  | busy (hasLog : Bool)
  | failed (hasLog : Bool)
  | noStore
  | writeFailed (positioned : Bool)
  | closed
deriving DecidableEq, Repr

/-- `isOpen` is that the database handle is open when the commit is called, `staysOpen` that it is open
when an asynchronous commit has settled. -/
structure Attempt (α ε : Type*) where
  callback : CallbackRun α ε
  commit : CommitOutcome
  isOpen : Bool := true
  staysOpen : Bool := true

inductive CallError (ε : Type*)
  | user (e : ε)
  | busy (hasLog : Bool)
  | commitFailed
  | logStoreNotFound
  | abandoned
  | notCommitted
  | notOpen

/-- What a call comes to: it returns the callback's value or nothing, or throws. `terminated` is an
exception of C++ that leaves a native function. -/
inductive Completion (α ε : Type*)
  | completed (value : Option α)
  | failed (err : CallError ε)
  | terminated

structure CallReport (α ε : Type*) where
  attempts : ℕ
  handles : List TransactionState
  completion : Completion α ε

/-- A native transaction; `logged` is that `committedPosition` is set. -/
structure NativeTransaction where
  state : TransactionState := .pending
  logged : Bool := false
deriving DecidableEq

inductive CommitResult
  | resolved
  | retryNow
  | alreadyAborted
  | busy (hasLog : Bool)
  | commitFailed
  | logStoreNotFound
  | notOpen
  | terminated
deriving DecidableEq

namespace NativeTransaction

/-- The transaction after the callback. -/
def left (t : NativeTransaction) (c : CallbackRun α ε) : NativeTransaction := { t with state := c.leaves }

def commit (t : NativeTransaction) (coordinatedRetry : Bool) (o : CommitOutcome) : NativeTransaction × CommitResult :=
  match t.state, o with
  | .aborted, _ => (t, .alreadyAborted)
  | .committing, _ | .committed, _ => (t, .resolved)
  | .pending, .ok => ({ t with state := .committed }, .resolved)
  | .pending, .busy hasLog =>
    let t := { t with logged := t.logged || hasLog }
    (t, if coordinatedRetry then .retryNow else .busy t.logged)
  | .pending, .failed hasLog => ({ t with logged := t.logged || hasLog }, .commitFailed)
  | .pending, .noStore => (t, .commitFailed)
  | .pending, .writeFailed positioned => ({ t with logged := t.logged || positioned }, .commitFailed)
  | .pending, .closed => ({ t with state := .aborted }, .commitFailed)

/-- A `CommitSync` that finds no log store, or whose `writeBatch` throws, leaves the state `Committing`. -/
def commitSync (t : NativeTransaction) (o : CommitOutcome) : NativeTransaction × CommitResult :=
  match t.state, o with
  | .pending, .noStore => ({ t with state := .committing }, .logStoreNotFound)
  | .pending, .writeFailed _ => ({ t with state := .committing }, .terminated)
  | _, o => t.commit false o

/-- `Abort`, and whether it says that the transaction was abandoned. A transaction that is committing
or committed stays so; the error that `Abort` throws then is dropped by its callers here. -/
def abort (t : NativeTransaction) : NativeTransaction × Bool :=
  match t.state with
  | .pending => ({ t with state := .aborted }, t.logged)
  | _ => (t, false)

end NativeTransaction

namespace Transaction

/-- `commit` of the wrapper. On a closed handle `notify` throws: that of `beforecommit` comes before the
native commit, that of `aftercommit` takes the place of what the commit came to. -/
def commit (t : NativeTransaction) (coordinatedRetry : Bool) (o : Attempt α ε) : NativeTransaction × CommitResult :=
  if o.isOpen then
    let settled := t.commit coordinatedRetry o.commit
    (settled.1, if o.staysOpen then settled.2 else .notOpen)
  else (t, .notOpen)

/-- Nothing closes the handle between the two `notify` of `commitSync`. -/
def commitSync (t : NativeTransaction) (o : Attempt α ε) : NativeTransaction × CommitResult :=
  if o.isOpen then t.commitSync o.commit else (t, .notOpen)

end Transaction

/-- `#abortTransaction`. -/
def abortTransaction (attempt : ℕ) (earlier : List TransactionState) (t : NativeTransaction)
    (callbackErr : ε) : CallReport α ε :=
  ⟨attempt, earlier ++ [t.abort.1.state], .failed (.user callbackErr)⟩

/-- `#abandonTransaction`. -/
def abandonTransaction (attempt : ℕ) (earlier : List TransactionState) (t : NativeTransaction)
    (commitErr : CallError ε) : CallReport α ε :=
  ⟨attempt, earlier ++ [t.abort.1.state], .failed (if t.abort.2 then .abandoned else commitErr)⟩

/-- The loop of `transaction` from an attempt on, over what the attempts meet; none if the loop has not
ended with them. -/
def transactionLoop (opts : TransactionOptions) : ℕ → NativeTransaction → List (Attempt α ε) → Option (CallReport α ε)
  | attempt, t, [] => if opts.attempts.reaches attempt then none else some ⟨attempt - 1, [t.state], .completed none⟩
  | attempt, t, o :: os =>
    if opts.attempts.reaches attempt then
      let t := t.left o.callback
      match o.callback.outcome with
      | .error e => some (abortTransaction attempt [] t e)
      | .ok value =>
        match Transaction.commit t opts.coordinatedRetry o with
        | (t, .resolved) => some ⟨attempt, [t.state], .completed (some value)⟩
        | (t, .retryNow) =>
          if opts.attempts.spent attempt then some (abandonTransaction attempt [] t .notCommitted)
          else transactionLoop opts (attempt + 1) t os
        | (t, .alreadyAborted) => some ⟨attempt, [t.state], .completed none⟩
        | (t, .busy hasLog) =>
          if opts.retryOnBusy.getD hasLog && opts.attempts.exceeds attempt then transactionLoop opts (attempt + 1) t os
          else some (abandonTransaction attempt [] t (.busy hasLog))
        | (t, .commitFailed) => some (abandonTransaction attempt [] t .commitFailed)
        | (t, .logStoreNotFound) => some (abandonTransaction attempt [] t .logStoreNotFound)
        | (t, .notOpen) => some (abandonTransaction attempt [] t .notOpen)
        | (t, .terminated) => some ⟨attempt, [t.state], .terminated⟩
    else some ⟨attempt - 1, [t.state], .completed none⟩

/-- `transaction`: one transaction for all attempts. -/
def transaction (opts : TransactionOptions) (os : List (Attempt α ε)) : Option (CallReport α ε) :=
  transactionLoop opts 1 {} os

/-- `runAttempt` of `transactionSync`: every attempt has a transaction of its own. A promise that
rejects has no handler. -/
def runAttempt (opts : TransactionOptions) : ℕ → List TransactionState → List (Attempt α ε) → Option (CallReport α ε)
  | _, _, [] => none
  | attempt, earlier, o :: os =>
    let t := NativeTransaction.left {} o.callback
    match o.callback.outcome with
    | .error e =>
      if o.callback.promise then some ⟨attempt, earlier ++ [t.state], .failed (.user e)⟩
      else some (abortTransaction attempt earlier t e)
    | .ok value =>
      match Transaction.commitSync t o with
      | (t, .resolved) => some ⟨attempt, earlier ++ [t.state], .completed (some value)⟩
      | (t, .retryNow) => some ⟨attempt, earlier ++ [t.state], .completed (some value)⟩
      | (t, .alreadyAborted) => some ⟨attempt, earlier ++ [t.state], .completed none⟩
      | (t, .busy hasLog) =>
        if opts.retryOnBusy.getD hasLog && opts.attempts.reaches attempt then runAttempt opts (attempt + 1)
          (earlier ++ [t.state]) os
        else some (abandonTransaction attempt earlier t (.busy hasLog))
      | (t, .commitFailed) => some (abandonTransaction attempt earlier t .commitFailed)
      | (t, .logStoreNotFound) => some (abandonTransaction attempt earlier t .logStoreNotFound)
      | (t, .notOpen) => some (abandonTransaction attempt earlier t .notOpen)
      | (t, .terminated) => some ⟨attempt, earlier ++ [t.state], .terminated⟩

def transactionSync (opts : TransactionOptions) (os : List (Attempt α ε)) : Option (CallReport α ε) :=
  runAttempt opts 1 [] os

end Calls

end RocksdbJs
