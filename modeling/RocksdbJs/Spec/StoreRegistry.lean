import Mathlib.Data.String.Basic
import RocksdbJs.Spec.Transactions

/-! The entry of one database path in `TransactionLogStoreRegistry`: `ResolveStore`, and `PurgeStores` with
its four phases, against the transactions of the stores. Two stores of one name are at work on one
directory when the first is closing. A step is one critical section, or one file that phase 4 deletes. A
write to a file that was deleted puts it back here, where the source loses it: that only adds
files to delete. -/

namespace RocksdbJs

/-- The log file that the next step of the writer may change. -/
def Writer.touches (wr : Writer) : Option ℕ :=
  match wr.pc with
  | .tryOpen seq => some seq
  | .write seq => some seq
  | _ => none

/-- A store with its transactions. The directory is kept in the registry, by the name of the store. No field
of the source is `written`: the log files that the store has written to. -/
structure StoreObject where
  name : String
  session : Session := {}
  written : List ℕ := []

namespace StoreObject

def isClosing (o : StoreObject) : Bool := o.session.world.store.isClosing

/-- The log file that the action may change. -/
def touches (o : StoreObject) : SessionAction → Option ℕ
  | .writer _ => o.session.world.writer.bind Writer.touches
  | _ => none

/-- The `txn.state` that the store may have open is deleted. -/
def unlinkState (o : StoreObject) : StoreObject :=
  let s := o.session.world.store
  let stream := if s.flushedStateFile = .linked then .unlinked else s.flushedStateFile
  { o with session := o.session.withStore { s with flushedStateFile := stream } }

end StoreObject

/-- Where a call of `PurgeStores` stands. -/
inductive PurgePc
  /-- In phase 2, before the purge of the first of the stores that are left. -/
  | purge (rest : List ℕ)
  /-- In the `tryClose` of a store. -/
  | tryClose (k : ℕ) (c : CloseCall) (rest : List ℕ)
  /-- In phase 4: the directories that are left, the first of which may be gone in part. -/
  | removeAll (names : List String)

structure PurgeCall where
  destroy : Bool
  before : ℕ
  storesToPurge : List ℕ
  pc : PurgePc

/-- The directories that phase 4 of the call has still to delete. -/
def PurgeCall.deleting (c : PurgeCall) : List String :=
  match c.pc with
  | .removeAll names => names
  | _ => []

/-- Every store that was made, the map of the entry by name, the directories, and the calls of
`PurgeStores`. -/
structure StoreRegistry where
  objects : List StoreObject := []
  stores : List (String × ℕ) := []
  directories : String → Disk := fun _ => { directory := false }
  purges : List PurgeCall := []

inductive StoreAction
  | resolveStore (name : String)
  | transaction (k : ℕ) (a : SessionAction)
  /-- The second section of `databaseFlushed`, with what the first has found. -/
  | flush (k : ℕ) (position : LogPosition)
  /-- `PurgeStores` up to the end of phase 1. -/
  | purgeStores (name : String) (destroy : Bool) (before : ℕ)
  | purge (i : ℕ) (io : TransactionLogStore.FilesCalls)
  | tryClose (i : ℕ) (io : TransactionLogStore.FilesCalls)
  /-- Phase 3. -/
  | removeClosed (i : ℕ)
  /-- `remove_all` of phase 4 deletes a log file. -/
  | unlink (i seq : ℕ)
  /-- It deletes the rest with the directory, or fails. -/
  | removeDirectory (i : ℕ) (removed : Bool)

namespace StoreRegistry

def find (stores : List (String × ℕ)) (name : String) : Option ℕ :=
  (stores.find? fun e => decide (e.1 = name)).map Prod.snd

def insertOrAssign (stores : List (String × ℕ)) (name : String) (k : ℕ) : List (String × ℕ) :=
  (stores.filter fun e => decide (e.1 < name)) ++ (name, k) :: stores.filter fun e => decide (name < e.1)

/-- The end of `ResolveStore`: a new store takes the place of a closing one. -/
def create (y : StoreRegistry) (name : String) : StoreRegistry :=
  { y with
    objects := y.objects ++ [{ name := name }]
    stores := insertOrAssign y.stores name y.objects.length
    directories := Function.update y.directories name { y.directories name with directory := true } }

def resolveStore (y : StoreRegistry) (name : String) : StoreRegistry :=
  match find y.stores name with
  | some k => if (y.objects[k]?).any StoreObject.isClosing then y.create name else y
  | none => y.create name

/-- The store and its directory, for a section of its own. -/
def enter (y : StoreRegistry) (o : StoreObject) : Session :=
  { o.session with world := { o.session.world with disk := y.directories o.name } }

def leave (y : StoreRegistry) (k : ℕ) (o : StoreObject) (s : Session) : StoreRegistry :=
  { y with
    objects := y.objects.set k { o with session := s }
    directories := Function.update y.directories o.name s.world.disk }

def transaction (cfg : StoreConfig) (y : StoreRegistry) (k : ℕ) (a : SessionAction) : Option StoreRegistry :=
  (y.objects[k]?).bind fun o => (Session.step cfg (y.enter o) a).map fun s =>
    y.leave k { o with written := (o.touches a).toList ++ o.written } s

def flush (y : StoreRegistry) (k : ℕ) (position : LogPosition) : Option StoreRegistry :=
  (y.objects[k]?).map fun o =>
    let r := o.session.world.store.writeFlushedPosition (y.directories o.name) position
    y.leave k o { o.session with world := { o.session.world with store := r.1, disk := r.2 } }

/-- Phase 1. -/
def purgeStores (y : StoreRegistry) (name : String) (destroy : Bool) (before : ℕ) : StoreRegistry :=
  let storesToPurge := (y.stores.filter fun e => decide (name = "") || decide (e.1 = name)).map Prod.snd
  { y with purges := y.purges ++ [{ destroy, before, storesToPurge, pc := .purge storesToPurge }] }

def setCall (y : StoreRegistry) (i : ℕ) (c : PurgeCall) (pc : PurgePc) : StoreRegistry :=
  { y with purges := y.purges.set i { c with pc := pc } }

/-- The purge of the next store in phase 2, under `writeMutex`. -/
def purge (cfg : StoreConfig) (y : StoreRegistry) (i : ℕ) (io : TransactionLogStore.FilesCalls) :
    Option StoreRegistry :=
  (y.purges[i]?).bind fun c =>
    match c.pc with
    | .purge (k :: rest) => (y.objects[k]?).bind fun o =>
        let w := o.session.world
        if w.busy then none
        else
          let r := w.store.doPurge cfg (y.directories o.name) c.destroy c.before io
          let y := y.leave k o { o.session with world := { w with store := r.1, disk := r.2 } }
          some (y.setCall i c (if c.destroy then .tryClose k {} rest else .purge rest))
    | _ => none

/-- The next phase of the `tryClose` that the call is in. -/
def tryClose (cfg : StoreConfig) (y : StoreRegistry) (i : ℕ) (io : TransactionLogStore.FilesCalls) :
    Option StoreRegistry :=
  (y.purges[i]?).bind fun c =>
    match c.pc with
    | .tryClose k call rest => (y.objects[k]?).bind fun o =>
        (Session.closePhase cfg (y.enter o).world call io).map fun r =>
          let y := y.leave k o { o.session with world := r.1 }
          y.setCall i c (match r.2 with
            | some call => .tryClose k call rest
            | none => .purge rest)
    | _ => none

/-- What phase 3 does with a store: the map so far, and the names of the stores it has taken out. -/
def removeStore (objects : List StoreObject) (acc : List (String × ℕ) × List String) (k : ℕ) :
    List (String × ℕ) × List String :=
  match objects[k]? with
  | some o =>
    if o.isClosing ∧ find acc.1 o.name = some k then (acc.1.filter fun e => decide (e.1 ≠ o.name), acc.2 ++ [o.name])
      else acc
  | none => acc

def removeClosed (y : StoreRegistry) (i : ℕ) : Option StoreRegistry :=
  (y.purges[i]?).bind fun c =>
    match c.pc with
    | .purge [] =>
      if c.destroy then
        let r := c.storesToPurge.foldl (removeStore y.objects) (y.stores, [])
        some ({ y with stores := r.1 }.setCall i c (.removeAll r.2))
      else some { y with purges := y.purges.eraseIdx i }
    | _ => none

def unlink (y : StoreRegistry) (i seq : ℕ) : Option StoreRegistry :=
  (y.purges[i]?).bind fun c =>
    match c.pc with
    | .removeAll (name :: _) =>
      let d := y.directories name
      some { y with directories := Function.update y.directories name { d with logs := d.logs.erase seq } }
    | _ => none

/-- A directory with a log file in it is not deleted. -/
def removeDirectory (y : StoreRegistry) (i : ℕ) (removed : Bool) : Option StoreRegistry :=
  (y.purges[i]?).bind fun c =>
    match c.pc with
    | .removeAll (name :: rest) =>
      if removed ∧ (y.directories name).logs.entries.isEmpty then
        some ({ y with
          objects := y.objects.map fun o : StoreObject => if o.name = name then o.unlinkState else o
          directories := Function.update y.directories name { directory := false } }.setCall i c (.removeAll rest))
      else some (y.setCall i c (.removeAll rest))
    | _ => none

def step (cfg : StoreConfig) (y : StoreRegistry) : StoreAction → Option StoreRegistry
  | .resolveStore name => some (y.resolveStore name)
  | .transaction k a => if a.ofTransaction then y.transaction cfg k a else none
  | .flush k position => y.flush k position
  | .purgeStores name destroy before => some (y.purgeStores name destroy before)
  | .purge i io => y.purge cfg i io
  | .tryClose i io => y.tryClose cfg i io
  | .removeClosed i => y.removeClosed i
  | .unlink i seq => y.unlink i seq
  | .removeDirectory i removed => y.removeDirectory i removed

/-- No call of `PurgeStores` is at work, and the map is of stores by their names. -/
def Initial (y : StoreRegistry) : Prop :=
  y.purges = [] ∧ ∀ e ∈ y.stores, (y.objects[e.2]?).any (fun o => decide (o.name = e.1)) = true

end StoreRegistry

end RocksdbJs
