import Mathlib.Data.List.AList
import RocksdbJs.Lib.Runs

/-! Backup directories that processes share: the lock files of `core/file_lock.cpp`, and under them
`runCreateBackup`, `backups.delete` and `backups.purge`, with `backups.restore` beside them, which
takes no lock. One step is one system call, one section under `g_locksMutex`, or one call of the
backup engine; how a snapshot is written file by file is `Spec/CreateBackup`. -/

namespace RocksdbJs
namespace BackupDirs

abbrev Bytes := List UInt8

/-- A directory, by a number for the path that its name resolves to; that of a backup directory
stands for its lock file too. -/
abbrev Dir := ℕ

/-- A process and a descriptor of it. -/
abbrev Handle := ℕ × ℕ

/-- The files below a directory, each by its path in it. -/
abbrev Subtree := AList fun _ : String => Bytes

/-- A backup that the engine has on disk. No call reads `published`: it is the log snapshot that
the call which made the backup has put in its place. -/
structure Backup where
  image : Bytes
  valid : Bool := true
  published : Option Subtree := none

/-- The engine's backups by their id, and what `transaction_logs` holds by name. -/
structure Directory where
  backups : AList fun _ : ℕ => Backup := ∅
  logs : AList fun _ : String => Subtree := ∅

/-- A database directory: what the engine restores, and the `transaction_logs` in it. -/
structure Database where
  image : Bytes := []
  logs : Option Subtree := none

inductive Op
  | backup (transactionLogs sync : Bool)
  | delete (backupId : ℕ)
  | purge
  | restore (dbDir : Dir) (backupId : Option ℕ)
  | tryFileLock
  | fileLockRelease (token : ℕ)
deriving DecidableEq

/-- Where an operation is that has the lock of its directory. -/
inductive Body
  | readStaging
  | sweep (names : List String)
  | openEngine
  | createBackup
  | collect (id : ℕ)
  | stage (id : ℕ)
  | publish (id : ℕ)
  | syncParent (id : ℕ)
  | removeStaging (id : ℕ)
  | rollback (id : ℕ)
  | deleteBackup
  | purgeOldBackups
  | closeEngine (ok : Bool)
  | readLogs
  | list (names : List String)
  | await
deriving DecidableEq

inductive RestorePc
  | guard
  | restoring
  | checkRoot
  | latest
  | checkSource (id : ℕ)
  | wipe (id : ℕ)
  | listSource (id : ℕ)
  | copy (id : ℕ) (todo : List String)
deriving DecidableEq

inductive Pc
  | openFile
  | flock (fd : ℕ)
  | refuse (fd : ℕ)
  | register (fd : ℕ)
  | body (token : ℕ) (b : Body)
  | release (token : ℕ) (ok : Bool)
  | drop (token : ℕ)
  | close (fd : ℕ) (ok : Bool)
  | restore (r : RestorePc)
  | returned (ok : Bool)
  /-- `tryFileLock` has given the token to its caller. -/
  | lent (token : ℕ)
  /-- The worker was terminated: the `finally` that gives the lock back never runs. -/
  | abandoned (token : ℕ)
  /-- The process is gone. -/
  | dead
deriving DecidableEq

structure Call where
  process : ℕ
  dir : Dir
  op : Op
  pc : Pc
deriving DecidableEq

/-- A recursive `rm` that a call has started below `transaction_logs`. -/
structure Removal where
  process : ℕ
  dir : Dir
  name : String
  owner : ℕ
deriving DecidableEq

structure World where
  /-- The file system of the directory has `flock`. -/
  flocks : Dir → Bool
  alive : ℕ → Bool := fun _ => true
  /-- The open descriptors of lock files. -/
  fds : Handle → Option Dir := fun _ => none
  holder : Dir → Option Handle := fun _ => none
  /-- `g_locks` of each process, by process and token. -/
  locks : ℕ × ℕ → Option ℕ := fun _ => none
  nextToken : ℕ → ℕ := fun _ => 1
  dirs : Dir → Directory := fun _ => {}
  dbs : Dir → Database := fun _ => {}
  calls : List Call := []
  removals : List Removal := []

inductive FlockResult
  | acquired | wouldBlock | interrupted | unsupported | failed
deriving DecidableEq

/-- What a call is answered. -/
inductive Answer
  | ok
  | failed
  | descriptor (fd : ℕ)
  | flock (r : FlockResult)
  | created (id : ℕ) (image : Bytes)
  /-- There are no log files to take. -/
  | empty
  | purged (ids : List ℕ) (ok : Bool)
  /-- Something of a tree is written or removed, and this is what there is now. -/
  | partly (s : Subtree)
  /-- The engine's restore fails and leaves this. -/
  | torn (image : Bytes)

inductive Event
  | start (process : ℕ) (dir : Dir) (op : Op)
  | op (n : ℕ) (a : Answer)
  | removal (r : Removal) (a : Answer)
  | terminate (n : ℕ)
  | crash (process : ℕ)
  /-- A backup turns out corrupt. -/
  | corrupt (dir : Dir) (id : ℕ)

/-- `TRANSACTION_LOG_STAGING_PREFIX`. -/
def stagingPrefix : String := ".staging-"

def stagingName (id : ℕ) : String := stagingPrefix ++ id.repr

def isStaging (name : String) : Bool := stagingPrefix.toList.isPrefixOf name.toList

namespace Directory

variable (d : Directory)

/-- `nativeBackupList`: the backups that are not corrupt. -/
def listing : List ℕ := d.backups.keys.filter fun id => (d.backups.lookup id).any Backup.valid

def setLogs (name : String) (s : Option Subtree) : Directory :=
  { d with logs := match s with
    | some s => d.logs.insert name s
    | none => d.logs.erase name }

def setBackup (id : ℕ) (f : Backup → Backup) : Directory :=
  match d.backups.lookup id with
  | some b => { d with backups := d.backups.insert id (f b) }
  | none => d

def eraseBackups (ids : List ℕ) : Directory := { d with backups := ids.foldl (fun bs id => bs.erase id) d.backups }

/-- The backup that the engine restores. -/
def restorable (id : ℕ) : Option Backup := (d.backups.lookup id).filter Backup.valid

end Directory

namespace World

variable (w : World)

def goto (n : ℕ) (c : Call) (pc : Pc) : World := { w with calls := w.calls.set n { c with pc := pc } }

def setDir (dir : Dir) (d : Directory) : World := { w with dirs := Function.update w.dirs dir d }

def setDb (dir : Dir) (db : Database) : World := { w with dbs := Function.update w.dbs dir db }

/-- `::close`: the kernel's lock goes with the descriptor. -/
def closeFd (h : Handle) : World :=
  { w with
    fds := Function.update w.fds h none
    holder := fun dir => if w.holder dir = some h then none else w.holder dir }

/-- The token after `t`: the counter has 32 bits, and 0 is skipped. -/
def tokenAfter (t : ℕ) : ℕ := if (t + 1) % 2 ^ 32 = 0 then 1 else (t + 1) % 2 ^ 32

/-- `registerHandle`. -/
def registerHandle (h : Handle) : World :=
  { w with
    locks := Function.update w.locks (h.1, w.nextToken h.1) (some h.2)
    nextToken := Function.update w.nextToken h.1 (tokenAfter (w.nextToken h.1)) }

/-- What a call does once it has its token. -/
def afterLock (token : ℕ) : Op → Pc
  | .backup true _ => .body token .readStaging
  | .tryFileLock => .lent token
  | _ => .body token .openEngine

/-- `::flock` with `LOCK_EX | LOCK_NB`, and where the loop around it goes. -/
def flock (n : ℕ) (c : Call) (fd : ℕ) : FlockResult → Option World
  | .acquired =>
    if w.flocks c.dir = true ∧ w.holder c.dir = none then
      some ({ w with holder := Function.update w.holder c.dir (some (c.process, fd)) }.goto n c (.register fd))
    else none
  | .wouldBlock => if w.flocks c.dir = true ∧ (w.holder c.dir).isSome then some (w.goto n c (.refuse fd)) else none
  | .interrupted => some w
  | .unsupported => if w.flocks c.dir = false then some (w.goto n c (.register fd)) else none
  | .failed => some (w.goto n c (.refuse fd))

/-- The sections of `releaseFileLock`. -/
def eraseToken (n : ℕ) (c : Call) (token : ℕ) (ok : Bool) : World :=
  match w.locks (c.process, token) with
  | none => w.goto n c (.returned ok)
  | some fd => { w with locks := Function.update w.locks (c.process, token) none }.goto n c (.close fd ok)

/-- The calls of `rm` for the names, and the wait for all of them. -/
def spawn (n : ℕ) (c : Call) (token : ℕ) (names : List String) : World :=
  { w with removals := w.removals ++ names.map fun name => Removal.mk c.process c.dir name n }.goto n
    c (.body token .await)

/-- The operation whose engine has opened. -/
def engineCall : Op → Body
  | .delete _ => .deleteBackup
  | .purge => .purgeOldBackups
  | _ => .createBackup

/-- The engine is closed: a backup is done, `delete` and `purge` go on to the log snapshots. -/
def afterEngine (n : ℕ) (c : Call) (token : ℕ) (ok : Bool) : World :=
  match ok, c.op with
  | true, .delete id => w.spawn n c token [id.repr]
  | true, .purge => w.goto n c (.body token .readLogs)
  | _, _ => w.goto n c (.release token ok)

/-- One step of `removeStaleTransactionLogStaging`. -/
def sweepStep (n : ℕ) (c : Call) (token : ℕ) (name : String) (rest : List String) : Answer → Option World
  | .partly s =>
    if name ∈ (w.dirs c.dir).logs then some (w.setDir c.dir ((w.dirs c.dir).setLogs name (some s))) else none
  | .ok => some ((w.setDir c.dir ((w.dirs c.dir).setLogs name none)).goto n c (.body token (.sweep rest)))
  | .failed => some (w.goto n c (.body token (.sweep rest)))
  | _ => none

/-- One step of `backupTransactionLogsToDir` and of what `runCreateBackup` does when it fails. -/
def snapshotStep (n : ℕ) (c : Call) (token : ℕ) (sync : Bool) : Body → Answer → Option World
  | .collect _, .empty => some (w.goto n c (.body token (.closeEngine true)))
  | .collect id, .ok => some (w.goto n c (.body token (.stage id)))
  | .stage id, .partly s => some (w.setDir c.dir ((w.dirs c.dir).setLogs (stagingName id) (some s)))
  | .stage id, .ok => some (w.goto n c (.body token (.publish id)))
  | .stage id, .failed => some (w.goto n c (.body token (.removeStaging id)))
  | .publish id, .ok =>
    let d := w.dirs c.dir
    (d.logs.lookup (stagingName id)).bind fun s =>
      -- a directory is not renamed over one that holds something
      if (d.logs.lookup id.repr).all (fun old => old.keys.isEmpty) then
        let d := ((d.setLogs (stagingName id) none).setLogs id.repr (some s)).setBackup id fun b =>
            { b with published := some s }
        some ((w.setDir c.dir d).goto n c (.body token (if sync then .syncParent id else .closeEngine true)))
      else none
  | .publish id, .failed => some (w.goto n c (.body token (.removeStaging id)))
  | .syncParent _, .ok => some (w.goto n c (.body token (.closeEngine true)))
  | .syncParent id, .failed => some (w.goto n c (.body token (.removeStaging id)))
  | .removeStaging id, .partly s =>
    if stagingName id ∈ (w.dirs c.dir).logs then some
      (w.setDir c.dir ((w.dirs c.dir).setLogs (stagingName id) (some s))) else none
  | .removeStaging id, .ok =>
    some ((w.setDir c.dir ((w.dirs c.dir).setLogs (stagingName id) none)).goto n c (.body token (.rollback id)))
  | .removeStaging id, .failed => some (w.goto n c (.body token (.rollback id)))
  | .rollback id, .ok =>
    some ((w.setDir c.dir ((w.dirs c.dir).eraseBackups [id])).goto n c (.body token (.closeEngine false)))
  | .rollback _, .failed => some (w.goto n c (.body token (.closeEngine false)))
  | _, _ => none

/-- One step of the engine's calls that change the backups. -/
def engineStep (n : ℕ) (c : Call) (token : ℕ) : Body → Answer → Option World
  | .openEngine, .ok => some (w.goto n c (.body token (engineCall c.op)))
  | .openEngine, .failed => some (w.goto n c (.release token false))
  | .createBackup, .created id image =>
    let d := w.dirs c.dir
    if id < 2 ^ 32 ∧ ∀ old ∈ d.backups.keys, old < id then
      let w := w.setDir c.dir { d with backups := d.backups.insert id { image := image } }
      some (w.goto n c (.body token (match c.op with
        | .backup true _ => .collect id
        | _ => .closeEngine true)))
    else none
  | .createBackup, .failed => some (w.goto n c (.body token (.closeEngine false)))
  | .deleteBackup, .ok =>
    match c.op with
    | .delete id =>
      if id % 2 ^ 32 ∈ (w.dirs c.dir).backups then
        some ((w.setDir c.dir ((w.dirs c.dir).eraseBackups [id % 2 ^ 32])).goto n c (.body token (.closeEngine true)))
      else none
    | _ => none
  | .deleteBackup, .failed => some (w.goto n c (.body token (.closeEngine false)))
  | .purgeOldBackups, .purged ids ok =>
    some ((w.setDir c.dir ((w.dirs c.dir).eraseBackups ids)).goto n c (.body token (.closeEngine ok)))
  | .closeEngine ok, .ok => some (w.afterEngine n c token ok)
  | _, _ => none

/-- One step of an operation that has the lock. -/
def bodyStep (n : ℕ) (c : Call) (token : ℕ) : Body → Answer → Option World
  | .readStaging, .ok => some (w.goto n c (.body token (.sweep ((w.dirs c.dir).logs.keys.filter isStaging))))
  | .readStaging, .failed => some (w.goto n c (.body token .openEngine))
  | .sweep [], .ok => some (w.goto n c (.body token .openEngine))
  | .sweep (name :: rest), a => w.sweepStep n c token name rest a
  | .readLogs, .ok => some (w.goto n c (.body token (.list (w.dirs c.dir).logs.keys)))
  | .list names, .ok =>
    -- `pruneOrphanedTransactionLogs`: every name that is no id of the listing
    some (w.spawn n c token (names.filter fun name => decide (name ∉ (w.dirs c.dir).listing.map Nat.repr)))
  -- what fails here is caught, and the purge has succeeded all the same
  | .readLogs, .failed | .list _, .failed => some (w.goto n c (.release token true))
  | .await, .ok => if ∀ r ∈ w.removals, r.owner ≠ n then some (w.goto n c (.release token true)) else none
  | b, a =>
    match c.op with
    | .backup _ sync => (w.snapshotStep n c token sync b a).or (w.engineStep n c token b a)
    | _ => w.engineStep n c token b a

/-- The backup that the engine restores for `backupId`, an unsigned 32-bit number there. -/
def engineTarget (dir : Dir) : Option ℕ → Option ℕ
  | some id => some (id % 2 ^ 32)
  | none => (w.dirs dir).listing.max?

/-- One step of `backups.restore`. -/
def restoreStep (n : ℕ) (c : Call) (dbDir : Dir) (backupId : Option ℕ) : RestorePc → Answer → Option World
  | .guard, .ok => some (w.goto n c (if c.dir = dbDir then .returned false else .restore .restoring))
  | .guard, .failed => some (w.goto n c (.returned false))
  | .restoring, .ok =>
    ((w.engineTarget c.dir backupId).bind (w.dirs c.dir).restorable).map fun b =>
      (w.setDb dbDir { w.dbs dbDir with image := b.image }).goto n c (.restore .checkRoot)
  | .restoring, .torn image => some ((w.setDb dbDir { w.dbs dbDir with image := image }).goto n c (.returned false))
  | .checkRoot, .ok => some (w.goto n c (.restore (match backupId with
      | some id => .checkSource id
      | none => .latest)))
  -- an `access` that fails is taken for one that finds nothing
  | .checkRoot, .failed => some (w.goto n c (.returned true))
  | .latest, .ok => some (w.goto n c (match (w.dirs c.dir).listing.max? with
      | some id => .restore (.checkSource id)
      | none => .returned true))
  | .latest, .failed => some (w.goto n c (.returned false))
  | .checkSource id, .ok => if id.repr ∈ (w.dirs c.dir).logs then some (w.goto n c (.restore (.wipe id))) else none
  | .checkSource _, .failed => some (w.goto n c (.returned true))
  | .wipe _, .partly s =>
    if (w.dbs dbDir).logs.isSome then some (w.setDb dbDir { w.dbs dbDir with logs := some s }) else none
  | .wipe id, .ok => some ((w.setDb dbDir { w.dbs dbDir with logs := none }).goto n c (.restore (.listSource id)))
  | .wipe _, .failed => some (w.goto n c (.returned false))
  | .listSource id, .ok =>
    ((w.dirs c.dir).logs.lookup id.repr).map fun s =>
      (w.setDb dbDir { w.dbs dbDir with logs := some ∅ }).goto n c (.restore (.copy id s.keys))
  | .listSource _, .failed => some (w.goto n c (.returned false))
  | .copy _ [], .ok => some (w.goto n c (.returned true))
  | .copy id (path :: rest), .ok =>
    (((w.dirs c.dir).logs.lookup id.repr).bind fun s => s.lookup path).map fun bytes =>
      let db := w.dbs dbDir
      (w.setDb dbDir { db with logs := some ((db.logs.getD ∅).insert path bytes) }).goto n c (.restore (.copy id rest))
  | .copy _ _, .failed => some (w.goto n c (.returned false))
  | _, _ => none

/-- The next step of a call. -/
def callStep (n : ℕ) (c : Call) (a : Answer) : Option World :=
  match c.pc, a with
  | .openFile, .descriptor fd =>
    if w.fds (c.process, fd) = none then
      some ({ w with fds := Function.update w.fds (c.process, fd) (some c.dir) }.goto n c (.flock fd))
    else none
  | .openFile, .failed => some (w.goto n c (.returned false))
  | .flock fd, .flock r => w.flock n c fd r
  | .refuse fd, .ok => some ((w.closeFd (c.process, fd)).goto n c (.returned false))
  | .register fd, .ok => some ((w.registerHandle (c.process, fd)).goto n c (afterLock (w.nextToken c.process) c.op))
  | .body token b, a => w.bodyStep n c token b a
  | .release token ok, .ok => some (w.eraseToken n c token ok)
  | .drop token, .ok => some (w.eraseToken n c token true)
  | .close fd ok, .ok => some ((w.closeFd (c.process, fd)).goto n c (.returned ok))
  | .restore r, a =>
    match c.op with
    | .restore dbDir backupId => w.restoreStep n c dbDir backupId r a
    | _ => none
  | _, _ => none

/-- Where a call begins. -/
def firstPc : Op → Pc
  | .restore _ _ => .restore .guard
  | .fileLockRelease token => .drop token
  | _ => .openFile

/-- A step of an `rm`. The first that fails ends the wait of its call. -/
def removalStep (r : Removal) : Answer → Option World
  | .partly s =>
    if r.name ∈ (w.dirs r.dir).logs then some (w.setDir r.dir ((w.dirs r.dir).setLogs r.name (some s))) else none
  | .ok => some ({ w with removals := w.removals.erase r }.setDir r.dir ((w.dirs r.dir).setLogs r.name none))
  | .failed =>
    let w := { w with removals := w.removals.erase r }
    some (match w.calls[r.owner]? with
      | some c => match c.pc with
        | .body token .await => w.goto r.owner c (.release token true)
        | _ => w
      | none => w)
  | _ => none

/-- A worker ends while JavaScript code of it waits. -/
def terminate (n : ℕ) (c : Call) : Option World :=
  match c.pc, c.op with
  | .body token _, .delete _ | .body token _, .purge => some (w.goto n c (.abandoned token))
  | .restore _, _ => some (w.goto n c (.returned false))
  | _, _ => none

/-- The kernel closes what the process had open. -/
def crash (p : ℕ) : World :=
  { w with
    alive := Function.update w.alive p false
    fds := fun h => if h.1 = p then none else w.fds h
    holder := fun dir => (w.holder dir).filter fun h => decide (h.1 ≠ p)
    locks := fun k => if k.1 = p then none else w.locks k
    calls := w.calls.map fun c => if c.process = p then { c with pc := .dead } else c
    removals := w.removals.filter fun r => decide (r.process ≠ p) }

def step : Event → Option World
  | .start p dir op => if w.alive p = true then some { w with calls := w.calls ++ [⟨p, dir, op, firstPc op⟩] } else none
  | .op n a => (w.calls[n]?).bind fun c => w.callStep n c a
  | .removal r a => if r ∈ w.removals then w.removalStep r a else none
  | .terminate n => (w.calls[n]?).bind fun c => w.terminate n c
  | .crash p => some (w.crash p)
  | .corrupt dir id => some (w.setDir dir ((w.dirs dir).setBackup id fun b => { b with valid := false }))

end World

end BackupDirs
end RocksdbJs
