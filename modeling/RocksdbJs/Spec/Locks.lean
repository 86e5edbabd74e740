import RocksdbJs.Spec.LogFormat
import Mathlib.Data.List.AList

/-! The locks of a database (`db_descriptor.cpp`): `tryLock` and `unlock`, `withLock` with its queue,
the completion of a callback, and the release of a closing handle's locks. One step is one
section under `locksMutex`, or one move of a callback on its JavaScript thread. -/

namespace RocksdbJs

/-- A threadsafe function, at an address of its own, with its deferred if it is one of `withLock`. The
number tells it from all others. -/
structure LockCallback where
  id : ℕ
  address : ℕ
  deferred : Bool
deriving DecidableEq, Repr

structure LockHandle where
  owner : ℕ
  threadsafeCallbacks : List LockCallback := []
  isRunning : Bool := false
deriving DecidableEq, Repr

/-- What a callback does: it returns a value, throws, or returns a promise that resolves or rejects. -/
inductive CallbackOutcome
  | returns | throws | resolves | rejects
deriving DecidableEq, Repr

inductive RunPc
  | called | running | done (outcome : CallbackOutcome)
deriving DecidableEq, Repr

/-- A callback that `napi_call_threadsafe_function` was given; `completion` is that it was given
completion data with it. -/
structure LockRun where
  key : Bytes
  callback : LockCallback
  completion : Bool
  pc : RunPc := .called
deriving DecidableEq, Repr

/-- A section that a thread has yet to come to: the second of `lockCall`, the two of
`onCallbackComplete`. -/
inductive LockTask
  | acquire (key : Bytes)
  | complete (key : Bytes)
  | fire (key : Bytes)
deriving DecidableEq, Repr

def LockTask.key : LockTask → Bytes
  | .acquire key | .complete key | .fire key => key

inductive Settlement
  | resolved | rejected
deriving DecidableEq, Repr

/-- What `napi_call_threadsafe_function` answers. -/
inductive CallStatus
  | ok | closing | failed
deriving DecidableEq, Repr

/-- The open handles and what they share. `freedTwice` is that the completion data of a callback has
been deleted a second time, which the process does not outlive. Three fields say what no field of the source does: the
locks that a `tryLock` has and has not given back, the `withLock` calls in the order in which they
came to a queue, and the promises that are settled. -/
structure Locks where
  handles : List ℕ
  locks : AList fun _ : Bytes => LockHandle := ∅
  tasks : List LockTask := []
  runs : List LockRun := []
  nextId : ℕ := 0
  freedTwice : Bool := false
  held : List (Bytes × ℕ) := []
  arrivals : List (Bytes × ℕ) := []
  settled : List (ℕ × Settlement) := []

namespace Locks

/-- `lockEnqueueCallback` of a lock that exists. -/
def enqueue (y : Locks) (key : Bytes) (l : LockHandle) (callback : LockCallback) : Locks :=
  { y with locks := y.locks.insert key { l with threadsafeCallbacks := l.threadsafeCallbacks ++ [callback] }
           nextId := y.nextId + 1 }

/-- `lockCall` up to its second section, which comes only to a new lock. -/
def lockCall (y : Locks) (key : Bytes) (owner address : ℕ) : Locks :=
  let y := { y with arrivals := y.arrivals ++ [(key, y.nextId)] }
  match y.locks.lookup key with
  | none => { y.enqueue key { owner } ⟨y.nextId, address, true⟩ with tasks := y.tasks ++ [.acquire key] }
  | some l => y.enqueue key l ⟨y.nextId, address, true⟩

/-- `tryLock`: the callback of one that gets the lock is never called. -/
def tryLock (y : Locks) (key : Bytes) (owner : ℕ) (callback : Option ℕ) : Locks :=
  match y.locks.lookup key, callback with
  | none, _ => { y with locks := y.locks.insert key { owner }, held := y.held ++ [(key, owner)] }
  | some _, none => y
  | some l, some address => y.enqueue key l ⟨y.nextId, address, false⟩

/-- The calls of the callbacks without completion data; a closing thread takes none. -/
def callAll (y : Locks) (calls : List (Bytes × LockCallback)) (closing : List ℕ) : Locks :=
  { y with runs := y.runs ++ (calls.filter fun c => decide (c.2.id ∉ closing)).map fun c => ⟨c.1, c.2, false, .called⟩ }

def lockReleaseByKey (y : Locks) (key : Bytes) (closing : List ℕ) : Locks :=
  match y.locks.lookup key with
  | none => y
  | some l => { y with locks := y.locks.erase key }.callAll (l.threadsafeCallbacks.map fun c => (key, c)) closing

/-- The locks without those of a handle. -/
def without (locks : AList fun _ : Bytes => LockHandle) (owner : ℕ) : AList fun _ : Bytes => LockHandle :=
  ⟨locks.entries.filter fun e => decide (e.2.owner ≠ owner), locks.nodupKeys.sublist List.filter_sublist⟩

/-- The callbacks in the queues of a handle's locks. -/
def queuedBy (locks : AList fun _ : Bytes => LockHandle) (owner : ℕ) : List (Bytes × LockCallback) :=
  (locks.entries.filter fun e => decide (e.2.owner = owner)).flatMap fun e =>
    e.2.threadsafeCallbacks.map fun c => (e.1, c)

/-- The set that `lockReleaseByOwner` collects them in is ordered by address. -/
def lockReleaseByOwner (y : Locks) (owner : ℕ) (closing : List ℕ) : Locks :=
  { y with locks := without y.locks owner }.callAll
    ((queuedBy y.locks owner).mergeSort fun a b => decide (a.2.address ≤ b.2.address)) closing

/-- The lock that a section has found: if it is not running, its first callback is called, and if it
has none it is removed. -/
def fireNext (y : Locks) (key : Bytes) (l : LockHandle) (status : CallStatus) : Locks :=
  if l.isRunning then y
  else match l.threadsafeCallbacks with
    | [] => { y with locks := y.locks.erase key }
    | callback :: rest =>
      let y := { y with locks := y.locks.insert key { l with threadsafeCallbacks := rest, isRunning := true } }
      match status with
      | .ok => { y with runs := y.runs ++ [⟨key, callback, true, .called⟩] }
      | .closing => y
      | .failed => { y with tasks := y.tasks ++ [.complete key] }

/-- The next section of a thread. -/
def runTask (y : Locks) (t : LockTask) (status : CallStatus) : Locks :=
  let y := { y with tasks := y.tasks.erase t }
  match y.locks.lookup t.key with
  | none => y
  | some l =>
    match t with
    | .acquire key | .fire key => y.fireNext key l status
    | .complete key =>
      { y with locks := y.locks.insert key { l with isRunning := false }, tasks := y.tasks ++ [.fire key] }

def settle (y : Locks) (callback : LockCallback) (s : Settlement) : Locks :=
  if callback.deferred then { y with settled := y.settled ++ [(callback.id, s)] } else y

/-- The call of `onCallbackComplete`, if the descriptor is still there. -/
def onCallbackComplete (y : Locks) (key : Bytes) : Locks :=
  if y.handles.isEmpty then y else { y with tasks := y.tasks ++ [.complete key] }

/-- The end of a callback in `callJsCallback`. The branch of one that throws deletes the completion
data, and so does the `shared_ptr` that holds it. -/
def callJsCallback (y : Locks) (r : LockRun) : CallbackOutcome → Locks
  | .returns => if r.completion then (y.settle r.callback .resolved).onCallbackComplete r.key else y
  | .throws => if r.completion then { y.onCallbackComplete r.key with freedTwice := true } else y
  | .resolves =>
    if r.completion && !y.handles.isEmpty then (y.settle r.callback .resolved).onCallbackComplete r.key else y
  | .rejects =>
    if r.completion && !y.handles.isEmpty then (y.settle r.callback .rejected).onCallbackComplete r.key else y

end Locks

/-- The calls come with the addresses that the new threadsafe functions get. -/
inductive LockAction
  | withLock (key : Bytes) (handle address : ℕ)
  | tryLock (key : Bytes) (handle : ℕ) (callback : Option ℕ)
  | unlock (key : Bytes) (handle : ℕ) (closing : List ℕ)
  | close (handle : ℕ) (closing : List ℕ)
  | task (t : LockTask) (status : CallStatus)
  | start (i : ℕ)
  | finish (i : ℕ) (outcome : CallbackOutcome)
  /-- The end of a process whose heap is broken. -/
  | abort
deriving DecidableEq, Repr

/-- The moves of the threads and the callbacks, which no call from JavaScript is needed for. -/
def LockAction.isInternal : LockAction → Bool
  | .task _ _ | .start _ | .finish _ _ => true
  | _ => false

namespace Locks

def step (y : Locks) : LockAction → Option Locks
  | .withLock key handle address => if handle ∈ y.handles then some (y.lockCall key handle address) else none
  | .tryLock key handle callback => if handle ∈ y.handles then some (y.tryLock key handle callback) else none
  | .unlock key handle closing =>
    if handle ∈ y.handles then
      some { y.lockReleaseByKey key closing with held := y.held.filter fun p => decide (p ≠ (key, handle)) }
    else none
  | .close handle closing =>
    if handle ∈ y.handles then
      some { y.lockReleaseByOwner handle closing with
        handles := y.handles.filter fun h => decide (h ≠ handle)
        held := y.held.filter fun p => decide (p.2 ≠ handle) }
    else none
  | .task t status => if t ∈ y.tasks then some (y.runTask t status) else none
  | .start i =>
    (y.runs[i]?).bind fun r =>
      if r.pc = .called then some { y with runs := y.runs.set i { r with pc := .running } } else none
  | .finish i outcome =>
    (y.runs[i]?).bind fun r =>
      if r.pc = .running then some ({ y with runs := y.runs.set i { r with pc := .done outcome } }.callJsCallback r
        outcome) else none
  | .abort => if y.freedTwice then some { handles := [], freedTwice := true } else none

end Locks

end RocksdbJs
