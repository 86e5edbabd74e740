import RocksdbJs.Spec.Transactions

/-! `RocksDatabase.transaction` and `RocksDatabase.transactionSync` (`database.ts`): the two loops
that run a callback and commit until a commit is not busy. The callback adds the same entries
on every attempt. What the loops do to the session is the list of its actions. -/

namespace RocksdbJs

structure TransactionOptions where
  maxRetries : ℕ := 3
  retryOnBusy : Option Bool := none
  coordinatedRetry : Bool := false

/-- What one attempt meets: the time a transaction made in it starts with, the system calls of
the log write, and what RocksDB gives. -/
structure Attempted where
  startTimestamp : Binary64
  writes : List WriterCalls := []
  status : CommitStatus
  latestSequenceNumber : ℕ := 0

namespace Session

/-- The callback and the commit of one attempt with handle `i`. -/
def attemptActions (entries : List TransactionLogEntry) (sync : Bool) (i : ℕ) (t : Attempted) : List SessionAction :=
  entries.map (.addLogEntry i) ++ (.commit i sync :: (t.writes.map .writer ++
    [.commitResult i t.status t.latestSequenceNumber]))

/-- The `hasLog` of a busy error: a batch that this commit or an earlier one wrote has a position. -/
def hasLog (y : Session) (i : ℕ) : Bool := (y.handles[i]?).any TransactionHandle.hasPosition

/-- The loop of `transaction` from attempt `n` on, with the one handle `i`: its actions, and
whether it returns. The attempts are listed in full. -/
def transactionLoop (cfg : StoreConfig) (opts : TransactionOptions) (entries : List TransactionLogEntry) (i : ℕ) :
    ℕ → List Attempted → Session → Option (List SessionAction × Bool)
  | _, [], _ => none
  | n, t :: ts, y =>
    let actions := attemptActions entries false i t
    (Runs.exec (step cfg) y actions).bind fun z =>
      if t.status = .ok then if ts.isEmpty then some (actions ++ [.close i], true) else none
      else if t.status = .isBusy ∧ (opts.coordinatedRetry ∨ opts.retryOnBusy.getD (z.hasLog i)) ∧
        n < opts.maxRetries then
        (transactionLoop cfg opts entries i (n + 1) ts z).map fun r => (actions ++ r.1, r.2)
      else if ts.isEmpty then some (actions ++ [.abort i], false) else none

/-- `transaction`: one handle for all attempts. -/
def transaction (cfg : StoreConfig) (opts : TransactionOptions) (entries : List TransactionLogEntry)
    (tries : List Attempted) (y : Session) : Option (List SessionAction × Bool) :=
  tries.head?.bind fun t =>
    if opts.maxRetries = 0 then none
    else (step cfg y (.newTransaction t.startTimestamp)).bind fun z =>
      (transactionLoop cfg opts entries y.handles.length 1 tries z).map fun r =>
        (.newTransaction t.startTimestamp :: r.1, r.2)

/-- `runAttempt` of `transactionSync` from attempt `n` on: a new handle for each attempt, and the
handle of a busy one is left as it is. -/
def transactionSync (cfg : StoreConfig) (opts : TransactionOptions) (entries : List TransactionLogEntry) :
    ℕ → List Attempted → Session → Option (List SessionAction × Bool)
  | _, [], _ => none
  | n, t :: ts, y =>
    let i := y.handles.length
    let actions := .newTransaction t.startTimestamp :: attemptActions entries true i t
    (Runs.exec (step cfg) y actions).bind fun z =>
      if t.status = .ok then if ts.isEmpty then some (actions ++ [.close i], true) else none
      else if t.status = .isBusy ∧ opts.retryOnBusy.getD (z.hasLog i) ∧ n ≤ opts.maxRetries then
        (transactionSync cfg opts entries (n + 1) ts z).map fun r => (actions ++ r.1, r.2)
      else if ts.isEmpty then some (actions ++ [.abort i], false) else none

/-- A call of either function. -/
def databaseCall (cfg : StoreConfig) (opts : TransactionOptions) (sync : Bool) (entries : List TransactionLogEntry)
    (tries : List Attempted) (y : Session) : Option (List SessionAction × Bool) :=
  if sync then transactionSync cfg opts entries 1 tries y else transaction cfg opts entries tries y

end Session

end RocksdbJs
