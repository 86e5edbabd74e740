import RocksdbJs.Spec.LockTrackers

/-! The wake callbacks of the trackers: what `addWakeCallback` and `wake` of `verification_table.cpp` do
with them, beside the operations of the table that wake. A commit that parks takes a reference of
the tracker, registers its callback under the tracker's own mutex and gives the reference back. A
release or a cancel holds `writerMutex_` around its `wake`, so nothing of it but the swap of the queue is seen
by a call of `addWakeCallback`. -/

namespace RocksdbJs

/-- The table with the queue of the tracker at each address. The last three fields are of no object
of the source: they number the callbacks and tell which of them were registered, with the tracker,
and which were called. -/
structure Parking where
  table : TrackerTable
  wakeCallbacks : ℕ → List ℕ := fun _ => []
  nextCallback : ℕ := 0
  registered : List (ℕ × ℕ) := []
  invoked : List ℕ := []

inductive ParkAction
  | table (a : TrackerAction)
  | addWakeCallback (tracker : ℕ)
deriving DecidableEq, Repr

namespace Parking

/-- The result of `addWakeCallback` on the tracker at `p`, and what it leaves. -/
def addWakeCallback (x : Parking) (p : ℕ) : Option (Bool × Parking) :=
  (x.table.heap p).map fun t =>
    if t.woken then (false, x)
    else (true, { x with
      wakeCallbacks := Function.update x.wakeCallbacks p (x.wakeCallbacks p ++ [x.nextCallback])
      nextCallback := x.nextCallback + 1
      registered := (x.nextCallback, t.serial) :: x.registered })

/-- The queue is taken from the tracker, and then its callbacks are called. -/
def wake (x : Parking) (p : ℕ) : Parking :=
  { x with
    invoked := x.invoked ++ x.wakeCallbacks p
    wakeCallbacks := Function.update x.wakeCallbacks p [] }

def wakeIf (x : Parking) : Option ℕ → Parking
  | some p => x.wake p
  | none => x

/-- The tracker that a release wakes: its last holder's. -/
def releaseWakes (y : TrackerTable) (p : ℕ) : Option ℕ := if (y.heap p).any fun t => t.holders = 1 then some p else none

/-- The tracker that `cancelForDB` wakes at a slot. -/
def cancelWakes (y : TrackerTable) (dbPtr i : ℕ) : Option ℕ :=
  let v := y.slots i
  if vtIsLock v ∧ (y.heap (vtDecodeLock v)).any fun t => t.dbPtr = dbPtr then some (vtDecodeLock v) else none

def cancelSlot (dbPtr : ℕ) (x : Parking) (i : ℕ) : Option Parking :=
  (TrackerTable.cancelSlot dbPtr x.table i).map fun y => { x.wakeIf (cancelWakes x.table dbPtr i) with table := y }

def cancelForDB (x : Parking) (dbPtr : ℕ) : Option Parking := (List.range x.table.size).foldlM (cancelSlot dbPtr) x

/-- An operation of the table, with what it wakes. A new tracker has an empty queue. -/
def tableStep (x : Parking) : TrackerAction → Option Parking
  | .lock slot dbPtr address => (x.table.step (.lock slot dbPtr address)).map fun y =>
      if vtIsLock (x.table.slots slot) then { x with table := y }
      else { x with table := y, wakeCallbacks := Function.update x.wakeCallbacks address [] }
  | .release slot p =>
    (x.table.step (.release slot p)).map fun y => { x.wakeIf (releaseWakes x.table p) with table := y }
  | .cancel dbPtr => x.cancelForDB dbPtr
  | a => (x.table.step a).map fun y => { x with table := y }

def step (x : Parking) : ParkAction → Option Parking
  | .table a => x.tableStep a
  | .addWakeCallback p => if p ∈ x.table.refs then (x.addWakeCallback p).map Prod.snd else none

end Parking

end RocksdbJs
