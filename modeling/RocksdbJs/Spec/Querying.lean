import RocksdbJs.Spec.LogReader
import RocksdbJs.Spec.Lifecycle

/-! The readers of a log beside everything that happens to its store: any number of iterators,
each made by a `query` and moved on by calls of `next` (`transaction-log-reader.ts`). They end
with the store. Purges are left out: they leave a reader with the mapping of a file that is gone. -/

namespace RocksdbJs

structure Querying where
  life : Life := {}
  log : TransactionLog := {}
  iterators : List LogIterator := []

inductive QueryEvent
  | life (e : Event)
  | query (options : TransactionLogQueryOptions) (io : TransactionLogStore.ReadCalls)
  | next (i : ℕ) (io : TransactionLogStore.ReadCalls)

def Event.purges : Event → Bool
  | .purge _ _ _ => true
  | _ => false

namespace Querying

def store (y : Querying) : TransactionLogStore := y.life.world.store

def reading (y : Querying) : Reading := ⟨y.store, y.life.world.disk, y.log⟩

/-- What a call of a reader leaves behind. -/
def after (y : Querying) (r : Reading) : Querying :=
  { y with life := y.life.moveTo { y.life.world with store := r.store, disk := r.disk }, log := r.log }

def step (cfg : StoreConfig) (y : Querying) : QueryEvent → Option Querying
  | .life e =>
    if e.purges then none
    else (y.life.step cfg e).map fun life => if y.life.isOpen ∧ life.isOpen then { y with life } else { life }
  | .query options io =>
    if y.life.isOpen then
      match y.reading.query cfg options io with
      | (.ok it, r) => some { y.after r with iterators := y.iterators ++ [it] }
      | (.error _, r) => some (y.after r)
    else none
  | .next i io =>
    if y.life.isOpen then
      (y.iterators[i]?).map fun it =>
        let r := y.reading.next cfg it io
        { y.after r.2.1 with iterators := y.iterators.set i r.2.2 }
    else none

/-- What the call of `next` on iterator `i` returns. -/
def nextResult (cfg : StoreConfig) (y : Querying) (i : ℕ) (io : TransactionLogStore.ReadCalls) : Option NextResult :=
  (y.iterators[i]?).map fun it => (y.reading.next cfg it io).1

end Querying

end RocksdbJs
