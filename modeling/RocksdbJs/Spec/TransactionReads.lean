import RocksdbJs.Lib.LengthPrefixed
import RocksdbJs.Lib.OrderedTable
import RocksdbJs.Lib.Runs
import RocksdbJs.Spec.Transactions

/-! The reads of one transaction beside the commits of others: `TransactionHandle::get`,
`getSync` and `getCount`, the iterators of `DBIteratorHandle`, and the places where the
transaction's snapshot is taken and where it is passed on. -/

namespace RocksdbJs
namespace Reads

/-- A key, compared bytewise. -/
abbrev Slice := List (Fin 256)

variable {V : Type}

/-- The column families by number. -/
abbrev Database (V : Type) := ℕ → OrderedTable Slice V

/-- One commit's writes in order; a `none` deletes. -/
abbrev WriteBatch (V : Type) := List (ℕ × Slice × Option V)

def applyWrite (d : Database V) (e : ℕ × Slice × Option V) : Database V :=
  Function.update d e.1 ((d e.1).write e.2.1 e.2.2)

def applyBatch (d : Database V) (batch : WriteBatch V) : Database V := batch.foldl applyWrite d

/-- What RocksDB's own iterator stands on: the entries within its bounds, in key order. -/
structure RocksIterator (V : Type) where
  entries : List (Slice × V)
  pos : Option ℕ := none

namespace RocksIterator

def current? (it : RocksIterator V) : Option (Slice × V) := it.pos.bind fun i => it.entries[i]?

def valid (it : RocksIterator V) : Bool := it.current?.isSome

def seekToFirst (it : RocksIterator V) : RocksIterator V := { it with pos := some 0 }

def seekToLast (it : RocksIterator V) : RocksIterator V := { it with pos := some (it.entries.length - 1) }

def next (it : RocksIterator V) : RocksIterator V := { it with pos := it.pos.map (· + 1) }

def prev (it : RocksIterator V) : RocksIterator V :=
  { it with pos := it.pos.bind fun i => if i = 0 then none else some (i - 1) }

/-- The steps forward until the iterator is no longer valid, at most `fuel` of them. -/
def count : ℕ → RocksIterator V → ℕ
  | 0, _ => 0
  | fuel + 1, it => if it.valid then it.next.count fuel + 1 else 0

end RocksIterator

/-- A start key of the iterator's constructor is never empty; `getCount` may have one, but only runs forward. -/
structure DBIteratorOptions where
  startKey : Option Slice := none
  endKey : Option Slice := none
  inclusiveEnd : Bool := false
  exclusiveStart : Bool := false
  reverse : Bool := false
  values : Bool := true
  nonempty : reverse = true → startKey ≠ some [] := by decide

namespace DBIteratorOptions

/-- `iterate_upper_bound`: an inclusive end is moved behind itself by a zero byte. -/
def upperBound (o : DBIteratorOptions) : Option Slice :=
  o.endKey.map fun e => if o.inclusiveEnd then e ++ [0] else e

def inBounds (o : DBIteratorOptions) (k : Slice) : Bool :=
  o.startKey.all (fun s => decide (s ≤ k)) && o.upperBound.all (fun e => decide (k < e))

end DBIteratorOptions

structure DBIteratorHandle (V : Type) where
  options : DBIteratorOptions
  iterator : RocksIterator V
  /-- The transaction had its snapshot when the iterator was made. -/
  pinned : Bool

namespace DBIteratorHandle

def seek (o : DBIteratorOptions) (it : RocksIterator V) : RocksIterator V :=
  let it := if o.reverse then it.seekToLast else it.seekToFirst
  match o.startKey, it.current? with
  | some s, some (k, _) =>
    if o.exclusiveStart = true ∧ k = s then (if o.reverse then it.prev else it.next) else it
  | _, _ => it

/-- `DBIterator::Next`. On the excluded start key of a reverse range it looks one further
back and stops when nothing is there. -/
def next (h : DBIteratorHandle V) : Option (Slice × Option V) × DBIteratorHandle V :=
  match h.iterator.current? with
  | none => (none, h)
  | some (k, v) =>
    if (h.options.reverse = true ∧ h.options.exclusiveStart = true ∧ k ≠ [] ∧ h.options.startKey = some k)
        ∧ h.iterator.prev.valid = false then
      (none, { h with iterator := h.iterator.prev })
    else
      (some (k, if h.options.values then some v else none),
        { h with iterator := if h.options.reverse then h.iterator.prev else h.iterator.next })

/-- What `n` calls of `next` yield. -/
def fetch : ℕ → DBIteratorHandle V → List (Slice × Option V)
  | 0, _ => []
  | n + 1, h =>
    match h.next with
    | (none, _) => []
    | (some x, h') => x :: fetch n h'

end DBIteratorHandle

structure TransactionHandle (V : Type) where
  /-- The column family of its own `dbHandle`. -/
  column : ℕ
  disableSnapshot : Bool := false
  snapshotSet : Bool := false
  state : TransactionState := .pending
  /-- What `txn->GetSnapshot()` gives. -/
  snapshot : Option (Database V) := none
  /-- The writes not yet committed, one index for each column family. -/
  writes : ℕ → OrderedTable Slice (Option V) := fun _ => OrderedTable.empty

/-- A read queued for a worker thread. The worker reads the column family of the
transaction's own handle, not the one the call was `asked` for. -/
structure AsyncGet (V : Type) where
  asked : ℕ
  key : Slice
  snapshot : Option (Database V)

inductive Answer (V : Type)
  | done
  | value (v : Option V)
  | incomplete
  | queued
  | count (n : ℕ)
  | iterator (h : DBIteratorHandle V)
  | item (x : Option (Slice × Option V))

namespace TransactionHandle

variable (t : TransactionHandle V) (committed : Database V)

def ensureSnapshot : TransactionHandle V :=
  if t.disableSnapshot = false ∧ t.snapshotSet = false then
    { t with snapshotSet := true, snapshot := some committed }
  else t

/-- The snapshot that `get` and `getSync` put into their read options. -/
def readSnapshot : Option (Database V) := if t.snapshotSet then t.snapshot else none

/-- What `txn` reads of a column family under the given snapshot, or under none. -/
def view (snapshot : Option (Database V)) (column : ℕ) : OrderedTable Slice V :=
  ((snapshot.getD committed) column).overlay (t.writes column)

def getSync (dbHandleOverride : Option ℕ) (key : Slice) (blockCacheTier cached : Bool) :
    TransactionHandle V × Answer V :=
  let t := t.ensureSnapshot committed
  let column := dbHandleOverride.getD t.column
  if blockCacheTier = true ∧ cached = false ∧ (t.writes column).value key = none then
    (t, .incomplete)
  else
    (t, .value ((t.view committed t.readSnapshot column).value key))

def get (dbHandleOverride : Option ℕ) (key : Slice) (cached : Bool) :
    TransactionHandle V × Option (AsyncGet V) × Answer V :=
  let t := t.ensureSnapshot committed
  let column := dbHandleOverride.getD t.column
  if cached = false ∧ (t.writes column).value key = none then
    (t, some ⟨column, key, t.readSnapshot⟩, .queued)
  else
    (t, none, .value ((t.view committed t.readSnapshot column).value key))

/-- The worker's half of `get`. -/
def executeGet (g : AsyncGet V) : Answer V := .value ((t.view committed g.snapshot t.column).value g.key)

/-- The constructor of an iterator over a transaction. Its read options carry no snapshot. -/
def newIterator (o : DBIteratorOptions) : DBIteratorHandle V where
  options := o
  iterator := DBIteratorHandle.seek o ⟨(t.view committed none t.column).items o.inBounds, none⟩
  pinned := t.snapshotSet

/-- The loop runs over RocksDB's iterator itself, from where the handle's seek left it, and
leaves the column family it was asked for out. -/
def getCount (o : DBIteratorOptions) : ℕ :=
  let it := (t.newIterator committed o).iterator
  it.count (it.entries.length + 1)

/-- A write takes the snapshot first in a pessimistic database only. -/
def write (pessimistic : Bool) (dbHandleOverride : Option ℕ) (key : Slice) (value : Option V) (ok : Bool) :
    TransactionHandle V :=
  let t := if pessimistic then t.ensureSnapshot committed else t
  let column := dbHandleOverride.getD t.column
  if ok then { t with writes := Function.update t.writes column ((t.writes column).write key (some value)) } else t

def resetTransaction : TransactionHandle V :=
  { t with snapshotSet := false, snapshot := none, writes := fun _ => OrderedTable.empty }

end TransactionHandle

structure World (V : Type) where
  pessimistic : Bool
  committed : Database V
  handle : TransactionHandle V
  gets : List (AsyncGet V) := []
  iterators : List (DBIteratorHandle V) := []

inductive Event (V : Type)
  | commitOther (batch : WriteBatch V)
  | putSync (dbHandleOverride : Option ℕ) (key : Slice) (value : V) (ok : Bool)
  | removeSync (dbHandleOverride : Option ℕ) (key : Slice) (ok : Bool)
  | getSync (dbHandleOverride : Option ℕ) (key : Slice) (blockCacheTier cached : Bool)
  | get (dbHandleOverride : Option ℕ) (key : Slice) (cached : Bool)
  | executeGet (i : ℕ)
  | getCount (dbHandleOverride : Option ℕ) (o : DBIteratorOptions)
  | newIterator (o : DBIteratorOptions)
  | next (i : ℕ)
  | returnIterator (i : ℕ)
  | reset
  /-- A commit or an abort: the transaction's reads end here. -/
  | finish (state : TransactionState)

namespace World

/-- The transaction writes. What an iterator opened before yields then is not specified by
RocksDB, so none is kept. -/
def write (w : World V) (dbHandleOverride : Option ℕ) (key : Slice) (value : Option V) (ok : Bool) : World V :=
  { w with handle := w.handle.write w.committed w.pessimistic dbHandleOverride key value ok, iterators := [] }

/-- Another transaction's commit, or a call of this one that needs it to be pending. -/
def enabled (w : World V) : Event V → Bool
  | .commitOther _ => true
  | _ => decide (w.handle.state = .pending)

def call (w : World V) : Event V → Option (World V × Answer V)
  | .commitOther batch => some ({ w with committed := applyBatch w.committed batch }, .done)
  | .putSync onDb key value ok => some (w.write onDb key (some value) ok, .done)
  | .removeSync onDb key ok => some (w.write onDb key none ok, .done)
  | .getSync onDb key blockCacheTier cached =>
    let r := w.handle.getSync w.committed onDb key blockCacheTier cached
    some ({ w with handle := r.1 }, r.2)
  | .get onDb key cached =>
    let r := w.handle.get w.committed onDb key cached
    some ({ w with handle := r.1, gets := w.gets ++ r.2.1.toList }, r.2.2)
  | .executeGet i => w.gets[i]?.map fun g => ({ w with gets := w.gets.eraseIdx i }, w.handle.executeGet w.committed g)
  | .getCount _ o => if o.reverse then none else some (w, .count (w.handle.getCount w.committed o))
  | .newIterator o =>
    let h := w.handle.newIterator w.committed o
    some ({ w with iterators := w.iterators ++ [h] }, .iterator h)
  | .next i => w.iterators[i]?.map fun h => ({ w with iterators := w.iterators.set i h.next.2 }, .item h.next.1)
  | .returnIterator i => some ({ w with iterators := w.iterators.eraseIdx i }, .done)
  | .reset => some ({ w with handle := w.handle.resetTransaction, gets := [], iterators := [] }, .done)
  | .finish state => some ({ w with handle := { w.handle with state := state }, gets := [], iterators := [] }, .done)

/-- One call and what it answers. -/
def perform (w : World V) (e : Event V) : Option (World V × Answer V) := if w.enabled e then w.call e else none

def step (w : World V) (e : Event V) : Option (World V) := (w.perform e).map Prod.fst

end World

end Reads
end RocksdbJs
