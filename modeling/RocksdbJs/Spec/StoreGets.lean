import RocksdbJs.Spec.TransactionReads

/-! `Store.get` and `Store.getSync` of `store.ts` over the bindings' `getSync` and `get`, for a database, a
transaction, and a database with a `transaction` option. A read of the cache tier is told whether what it
needs is in memory; versions are left out, and a value's bytes are the same in a shared buffer. -/

namespace RocksdbJs
namespace Reads

variable {V : Type}

inductive GetError
  | notFound
  | notPending
  /-- The status of a read that the cache cannot answer. -/
  | incomplete
deriving DecidableEq, Repr

/-- What the binding's `getSync` returns: a value, the flag that it is not in memory, or an exception. -/
inductive SyncResult (V : Type)
  | value (v : Option V)
  | notInMemory
  | threw (e : GetError)
deriving DecidableEq, Repr

/-- A handle of a column family, with the transaction of its options, which may not be found, or a transaction. -/
inductive GetContext (V : Type)
  | database (column : ℕ)
  | databaseWith (column : ℕ) (t : Option (TransactionHandle V))
  | transaction (t : TransactionHandle V)

/-- A read that a worker finishes. -/
inductive QueuedGet (V : Type)
  | database (column : ℕ) (key : Slice)
  | transaction (t : TransactionHandle V) (g : AsyncGet V)

namespace GetContext

variable (committed : Database V)

/-- `Database::GetSync` and `Transaction::GetSync`, with what they leave of the transaction. The second
throws on every status that is not `ok` before it asks for an incomplete one. -/
def bindingGetSync (key : Slice) (onlyIfInMemoryCache cached : Bool) : GetContext V → GetContext V × SyncResult V
  | .database column =>
    (.database column, if onlyIfInMemoryCache = true ∧ cached = false then .notInMemory
      else .value ((committed column).value key))
  | .databaseWith column none => (.databaseWith column none, .threw .notFound)
  | .databaseWith column (some t) =>
    if t.state ≠ .pending then (.databaseWith column (some (t.ensureSnapshot committed)), .threw .notPending)
    else
      let r := (t.ensureSnapshot committed).getSync committed (some column) key onlyIfInMemoryCache cached
      (.databaseWith column (some r.1), match r.2 with
        | .value v => .value v
        | _ => .notInMemory)
  | .transaction t =>
    if t.state ≠ .pending then (.transaction (t.ensureSnapshot committed), .threw .notPending)
    else
      let r := (t.ensureSnapshot committed).getSync committed none key onlyIfInMemoryCache cached
      (.transaction r.1, match r.2 with
        | .value v => .value v
        | _ => .threw .incomplete)

/-- `Database::Get` and `Transaction::Get`: an answer now, or a read for a worker. -/
def bindingGet (key : Slice) (cached : Bool) : GetContext V → Except GetError (Option V ⊕ QueuedGet V)
  | .database column => .ok (.inr (.database column key))
  | .databaseWith _ none => .error .notFound
  | .databaseWith column (some t) =>
    if t.state ≠ .pending then .error .notPending
    else match t.get committed (some column) key cached with
      | (t', some g, _) => .ok (.inr (.transaction t' g))
      | (_, none, .value v) => .ok (.inl v)
      | (_, none, _) => .error .incomplete
  | .transaction t =>
    if t.state ≠ .pending then .error .notPending
    else match t.get committed none key cached with
      | (t', some g, _) => .ok (.inr (.transaction t' g))
      | (_, none, .value v) => .ok (.inl v)
      | (_, none, _) => .error .incomplete

/-- `Store.getSync`. -/
def getSync (ctx : GetContext V) (key : Slice) : Except GetError (Option V) :=
  match (ctx.bindingGetSync committed key false false).2 with
  | .value v => .ok v
  | .notInMemory => .error .incomplete
  | .threw e => .error e

end GetContext

/-- The worker's half, on what is committed by then. -/
def QueuedGet.execute (later : Database V) : QueuedGet V → Option V
  | .database column key => (later column).value key
  | .transaction t g =>
    match t.executeGet later g with
    | .value v => v
    | _ => none

/-- `Store.get` to its end: what it returns, or what its promise comes to. The first two reads are of the cache
tier and are told what is in memory; the third is done on what is committed by then. -/
def GetContext.get (committed later : Database V) (ctx : GetContext V) (key : Slice)
    (cached cachedThen : Bool) : Except GetError (Option V) :=
  match ctx.bindingGetSync committed key true cached with
  | (_, .value v) => .ok v
  | (_, .threw e) => .error e
  | (ctx', .notInMemory) =>
    match ctx'.bindingGet committed key cachedThen with
    | .error e => .error e
    | .ok (.inl v) => .ok v
    | .ok (.inr q) => .ok (q.execute later)

end Reads
end RocksdbJs
