import RocksdbJs.Spec.Transactions
import RocksdbJs.Spec.VerificationTable

/-! Who uses the verification table: transactions and direct writes with their intents
(`transaction_handle.cpp`, `transaction.cpp`, `PutSync`, `PutManySync` and `RemoveSync` of
`database.cpp`), every read path (`GetSync` and `Get` of `database.cpp` and `transaction.cpp`,
`TransactionHandle::get`, `vtPopulateIfSettled` and `resolveGetResult` of `database.h`), `clear` and
the closing of a database. One step is one access to what threads share: a slot, the table's
pointer, RocksDB's data, its latest sequence number or its list of snapshots. -/

namespace RocksdbJs

/-- The table's size and hash, and the comparison of an oldest snapshot's Unix time (in seconds)
with a version, read as a number of milliseconds. -/
structure TableConfig where
  entries : ℕ
  slotFor : Location → ℕ
  slotFor_lt : ∀ loc, slotFor loc < entries
  forwardDated : ℕ → ℕ → Bool

/-- What a reader of a RocksDB snapshot sees. -/
structure Snapshot where
  sequence : ℕ
  unixTime : ℕ+
  view : Location → Option Bytes

/-- A put, or a removal if there is no value. -/
structure Write where
  cf : ℕ
  key : Bytes
  value : Option Bytes
deriving DecidableEq, Repr

/-- A direct write is `PutSync`, `PutManySync` or `RemoveSync` without a transaction; it asks for the
table when it begins. A transaction asks for it at each write. -/
inductive UnitKind
  | transaction (disableSnapshot pessimistic : Bool)
  | direct (table : Bool)
deriving DecidableEq, Repr

inductive UnitOutcome
  | ok | busy | error | aborted
deriving DecidableEq, Repr

/-- `releasing` is `releaseIntent`, with what made it necessary. -/
inductive UnitPhase
  | pending | committing | releasing (outcome : UnitOutcome) | committed | closed
deriving DecidableEq, Repr

/-- What is written and committed as one: a transaction or a direct write. `cf` is the column family
of its own handle, and an intent is a slot with the tracker it is held on. -/
structure WriteUnit where
  db : ℕ
  cf : ℕ := 0
  kind : UnitKind
  writes : List Write := []
  intents : List (ℕ × ℕ) := []
  snapshot : Option Snapshot := none
  phase : UnitPhase := .pending

def WriteUnit.location (u : WriteUnit) (x : Write) : Location := ⟨u.db, x.cf, x.key⟩

/-- The stages of a `clear`: the data is deleted, `settleAllSlots` goes through the slots, it has ended. -/
inductive ClearPc
  | deleted | sweeping (gen next : ℕ) | swept
deriving DecidableEq, Repr

/-- `enabled` is the handle's `enableVerificationTable`. -/
structure ClearCall where
  db : ℕ
  cf : ℕ
  enabled : Bool
  pc : ClearPc := .deleted
deriving DecidableEq, Repr

/-- What all threads share. `cancelling` is a `cancelForDB` in its loop, which holds `writerMutex_`:
the database and the next slot. -/
structure Shared where
  vt : VerificationTable := {}
  materialized : Bool := false
  settleGen : ℕ := 1
  committed : Location → Option Bytes := fun _ => none
  sequence : ℕ → ℕ := fun _ => 0
  cancelling : Option (ℕ × ℕ) := none
  clears : List ClearCall := []

/-- The version of a value, and 0 if there is none. -/
def versionOf (value : Option Bytes) : ℕ := value.elim 0 extractVersionFromValue

/-- The latest committed version of a key. -/
def Shared.latest (w : Shared) (loc : Location) : ℕ := versionOf (w.committed loc)

section Writers

/-- `SetSnapshot`, if the transaction has none yet and wants one. -/
def WriteUnit.ensureSnapshot (u : WriteUnit) (w : Shared) (now : ℕ+) : WriteUnit :=
  match u.kind, u.snapshot with
  | .transaction false _, none => { u with snapshot := some ⟨w.sequence u.db, now, w.committed⟩ }
  | _, _ => u

/-- The writes of the unit that are not committed. -/
def WriteUnit.own (u : WriteUnit) : List Write :=
  match u.phase with
  | .pending | .committing | .releasing .busy | .releasing .error => u.writes
  | _ => []

/-- The unit's own last write of a key. -/
def WriteUnit.ownWrite (u : WriteUnit) (loc : Location) : Option Write :=
  u.own.reverse.find? fun x => decide (u.location x = loc)

/-- The committed state after the unit's writes. -/
def WriteUnit.apply (u : WriteUnit) (committed : Location → Option Bytes) : Location → Option Bytes :=
  u.writes.foldl (fun c x => Function.update c (u.location x) x.value) committed

inductive UnitAction
  /-- A write through a handle with `enableVerificationTable` as given, which RocksDB accepts or not. -/
  | put (write : Write) (enabled accepted : Bool) (now : ℕ+)
  | beginCommit
  /-- The log's `writeBatch` failed, so there is no RocksDB commit. -/
  | skipCommit
  | commit (status : CommitStatus)
  | abort
  | release
  | finish
  | close

/-- `lockVTSlot` once it has the table. -/
def WriteUnit.lockVTSlot (cfg : TableConfig) (w : Shared) (u : WriteUnit) (x : Write) : Option (Shared × WriteUnit) :=
  if w.cancelling.isSome then none
  else
    let slot := cfg.slotFor (u.location x)
    let locked := w.vt.lockSlotForWrite slot u.db
    some ({ w with vt := locked.2 }, { u with intents := u.intents ++ [(slot, locked.1)] })

/-- `putSync`, one round of `putManySync`, or `removeSync`. -/
def WriteUnit.put (cfg : TableConfig) (w : Shared) (u : WriteUnit) (x : Write) (enabled accepted : Bool) (now : ℕ+) :
    Option (Shared × WriteUnit) :=
  let staged (u : WriteUnit) : WriteUnit := { u with writes := u.writes ++ [x] }
  match u.kind with
  | .transaction _ pessimistic =>
    let pinned := if pessimistic then u.ensureSnapshot w now else u
    if !accepted then some (w, pinned)
    else if enabled && w.materialized then (staged pinned).lockVTSlot cfg w x
    else some (w, staged pinned)
  | .direct table => if table then (staged u).lockVTSlot cfg w x else some (w, staged u)

/-- `txn->Commit()` or the write of a direct call. -/
def WriteUnit.commit (w : Shared) (u : WriteUnit) : CommitStatus → Shared × WriteUnit
  | .ok =>
    ({ w with committed := u.apply w.committed
              sequence := Function.update w.sequence u.db (w.sequence u.db + u.writes.length) },
      { u with phase := .releasing .ok })
  | .isBusy => (w, { u with phase := .releasing .busy })
  | .error => (w, { u with phase := .releasing .error })

/-- What comes after `releaseIntent`: a busy transaction is reset, one with another error is pending
again with its writes. -/
def WriteUnit.finish (u : WriteUnit) (outcome : UnitOutcome) : WriteUnit :=
  match u.kind, outcome with
  | .direct _, _ => { u with phase := .closed }
  | .transaction _ _, .ok => { u with phase := .committed }
  | .transaction _ _, .busy => { u with phase := .pending, writes := [], snapshot := none }
  | .transaction _ _, .error => { u with phase := .pending }
  | .transaction _ _, .aborted => { u with phase := .closed, snapshot := none }

/-- A direct write has no `Commit` of its own: it goes from its batch straight to the write. -/
def WriteUnit.commits (u : WriteUnit) : Bool :=
  match u.kind with
  | .transaction _ _ => decide (u.phase = .committing)
  | .direct _ => decide (u.phase = .pending)

def WriteUnit.isTransaction (u : WriteUnit) : Bool :=
  match u.kind with
  | .transaction _ _ => true
  | .direct _ => false

def stepUnit (cfg : TableConfig) (w : Shared) (u : WriteUnit) : UnitAction → Option (Shared × WriteUnit)
  | .put x enabled accepted now => if u.phase = .pending then u.put cfg w x enabled accepted now else none
  | .beginCommit => if u.isTransaction ∧ u.phase = .pending then some (w, { u with phase := .committing }) else none
  | .skipCommit => if u.phase = .committing then some (w, { u with phase := .pending }) else none
  | .commit status => if u.commits then some (u.commit w status) else none
  | .abort =>
    if u.isTransaction ∧ u.phase = .pending then some (w, { u with phase := .releasing .aborted, writes := [] })
      else none
  | .release =>
    match u.phase, u.intents with
    | .releasing _, (slot, t) :: rest =>
      if w.cancelling.isSome then none
      else some ({ w with vt := w.vt.releaseWriteIntent slot t w.settleGen
                          settleGen := if w.vt.lastHolder t then w.settleGen + 1 else w.settleGen },
        { u with intents := rest })
    | _, _ => none
  | .finish =>
    match u.phase, u.intents with
    | .releasing outcome, [] => some (w, u.finish outcome)
    | _, _ => none
  | .close => if u.phase = .committed then some (w, { u with phase := .closed, snapshot := none }) else none

/-- The calls that JavaScript makes on a transaction's own thread. -/
def UnitAction.onThread : UnitAction → Bool
  | .put _ _ _ _ | .beginCommit | .abort | .close => true
  | _ => false

end Writers

section Readers

inductive ReadPath
  | databaseGetSync | transactionGetSync | get
deriving DecidableEq, Repr

/-- What the slot of a read held when it was loaded, and how often it had been locked or settled. -/
structure Seen where
  observed : SlotValue
  turn : ℕ

/-- Where a read stands. From `read` to `gated` it is in `vtPopulateIfSettled`, with the version it
has read, the version it is to publish, and the latest sequence number of its second gate. -/
inductive ReaderPc
  | called | pinned | loaded
  | read (version : ℕ)
  | reread
  | chosen (version : ℕ)
  | dated (version : ℕ)
  | sequenced (version latestSeq : ℕ)
  | gated (version : ℕ)
  | queued
  | executed (version : ℕ)
  | done
deriving DecidableEq, Repr

/-- `fresh` is that the answer is the `FRESH` flag, `snapshot` is `readOptions.snapshot`. -/
structure Reader where
  loc : Location
  path : ReadPath
  txn : Option ℕ := none
  expected : Option ℕ := none
  wantsPopulate : Bool := false
  seen : Option Seen := none
  snapshot : Option Snapshot := none
  fresh : Bool := false
  pc : ReaderPc := .called

namespace Reader

def async (r : Reader) : Bool := decide (r.path = .get)

/-- The call has not left the thread of its transaction. -/
def onThread (r : Reader) : Bool :=
  match r.pc with
  | .queued | .executed _ | .done => false
  | _ => true

/-- `vtSlot` and `vtObserved`. Only `Database::GetSync` materializes the table. -/
def load (cfg : TableConfig) (w : Shared) (r : Reader) : Shared × Reader :=
  if r.expected.isSome || r.wantsPopulate then
    let w := if r.path = .databaseGetSync then { w with materialized := true } else w
    if w.materialized then
      let slot := cfg.slotFor r.loc
      (w, { r with seen := some ⟨w.vt.slots slot, w.vt.turns slot⟩, pc := .loaded })
    else (w, { r with pc := .loaded })
  else (w, { r with pc := .loaded })

/-- The slot holds the expected version. -/
def hits (r : Reader) : Bool :=
  match r.seen, r.expected with
  | some seen, some expected => decide (seen.observed = .word expected)
  | _, _ => false

/-- What a read sees of the value: the transaction's own write, or the value at its snapshot, or
the latest. -/
def visible (w : Shared) (u : Option WriteUnit) (snapshot : Option Snapshot) (loc : Location) : Option Bytes :=
  match u.bind fun u => u.ownWrite loc with
  | some x => x.value
  | none => (snapshot.elim w.committed Snapshot.view) loc

/-- The value is there and the table is in use. -/
def found (r : Reader) (version : ℕ) : Reader :=
  if r.seen.isSome then { r with fresh := decide (r.expected = some version), pc := .read version }
    else { r with pc := .done }

/-- The one publication of `populateVersionIfUnchanged`. -/
def populate (cfg : TableConfig) (w : Shared) (r : Reader) (version : ℕ) : Shared :=
  match r.seen with
  | none => w
  | some seen => { w with vt := (w.vt.populateVersionIfUnchanged r.loc (cfg.slotFor r.loc) seen.observed version).2 }

/-- The snapshots open in a database. -/
def openSnapshots (units : List WriteUnit) (db : ℕ) : List Snapshot :=
  (units.filter fun u => decide (u.db = db)).filterMap WriteUnit.snapshot

def oldestSnapshot (units : List WriteUnit) (db : ℕ) : Option Snapshot :=
  (openSnapshots units db).argmin Snapshot.sequence

/-- The first lines of `vtPopulateIfSettled`. -/
def choose (w : Shared) (r : Reader) (version : ℕ) : Reader :=
  if version == 0 || vtIsLock version then { r with pc := .done }
  else match r.snapshot with
    | none => { r with pc := .chosen version }
    | some snapshot =>
      if w.sequence r.loc.db ≤ snapshot.sequence then { r with pc := .chosen version } else { r with pc := .reread }

end Reader

/-- What RocksDB answers to a read; `incomplete` is that the value is not in the block cache. -/
inductive ReadStatus
  | ok | incomplete | failed
deriving DecidableEq, Repr

inductive ReaderAction
  | pin (now : ℕ+)
  | load
  | read (status : ReadStatus) (now : ℕ+)
  | choose
  | reread
  | gateTime
  | latestSequence
  | gateSequence
  | populate
  | queue
  | execute (failed : Bool)
  | resolve

/-- `ensureSnapshot` of the transaction a read is in. -/
def pinUnits (w : Shared) (units : List WriteUnit) (r : Reader) (now : ℕ+) : List WriteUnit :=
  match r.txn with
  | none => units
  | some i => units.modify i fun u => u.ensureSnapshot w now

/-- The transaction a read is in. -/
def unitOf (units : List WriteUnit) (r : Reader) : Option WriteUnit := r.txn.bind fun i => units[i]?

/-- A transaction that is not pending answers a read with an error. -/
def refuses (units : List WriteUnit) (r : Reader) : Bool :=
  match unitOf units r with
  | none => false
  | some u => decide (u.phase ≠ .pending)

/-- What the worker of a `Get` reads. The one of a transaction does not know the `dbHandleOverride` of
the call: it reads the column family of the transaction's own handle. -/
def workerLocation (units : List WriteUnit) (r : Reader) : Location :=
  match unitOf units r with
  | none => r.loc
  | some u => { r.loc with cf := u.cf }

/-- The read after the slot's load: of `getSync`, or of the block cache in `TransactionHandle::get`. -/
def readValue (w : Shared) (units : List WriteUnit) (r : Reader) : ReadStatus → Reader
  | .failed => { r with pc := .done }
  | .incomplete => if r.async then { r with pc := .queued } else { r with pc := .done }
  | .ok =>
    match Reader.visible w (unitOf units r) r.snapshot r.loc with
    | none => { r with pc := .done }
    | some value => r.found (extractVersionFromValue value)

def stepReader (cfg : TableConfig) (w : Shared) (units : List WriteUnit) (r : Reader) :
    ReaderAction → Option (Shared × List WriteUnit × Reader)
  | .pin now =>
    if r.async then
      if r.pc = .loaded ∧ r.txn.isSome then
        if refuses units r then some (w, units, { r with pc := .done })
        else some (w, pinUnits w units r now, { r with pc := .pinned })
      else none
    else if r.pc = .called then some (w, pinUnits w units r now, { r with pc := .pinned }) else none
  | .load =>
    if r.async then
      if r.pc = .called then
        let loaded := r.load cfg w
        some (loaded.1, units, loaded.2)
      else none
    else if r.pc = .pinned then
      let loaded := r.load cfg w
      if loaded.2.hits then some (loaded.1, units, { loaded.2 with fresh := true, pc := .done })
      else some (loaded.1, units, loaded.2)
    else none
  | .read status now =>
    if r.pc = (if r.async then .pinned else .loaded) then
      if refuses units r then some (w, units, { r with pc := .done })
      else
        let units := pinUnits w units r now
        let r := { r with snapshot := (unitOf units r).bind WriteUnit.snapshot }
        some (w, units, readValue w units r status)
    else none
  | .choose =>
    match r.pc with
    | .read version => some (w, units, r.choose w version)
    | _ => none
  | .reread =>
    if r.pc = .reread then
      let version := w.latest r.loc
      some (w, units, if version == 0 || vtIsLock version then { r with pc := .done }
        else { r with pc := .chosen version })
    else none
  | .gateTime =>
    match r.pc with
    | .chosen version =>
      match Reader.oldestSnapshot units r.loc.db with
      | none => some (w, units, { r with pc := .gated version })
      | some oldest =>
        some (w, units, if cfg.forwardDated oldest.unixTime version then { r with pc := .done }
          else { r with pc := .dated version })
    | _ => none
  | .latestSequence =>
    match r.pc with
    | .dated version => some (w, units, { r with pc := .sequenced version (w.sequence r.loc.db) })
    | _ => none
  | .gateSequence =>
    match r.pc with
    | .sequenced version latestSeq =>
      let oldest := (Reader.oldestSnapshot units r.loc.db).elim 0 Snapshot.sequence
      some (w, units, if oldest < latestSeq then { r with pc := .done } else { r with pc := .gated version })
    | _ => none
  | .populate =>
    match r.pc with
    | .gated version => some (r.populate cfg w version, units, { r with pc := .done })
    | _ => none
  | .queue => if r.async ∧ r.pc = .loaded ∧ r.txn = none then some (w, units, { r with pc := .queued }) else none
  | .execute failed =>
    if r.pc = .queued then
      match if failed then none else Reader.visible w (unitOf units r) r.snapshot (workerLocation units r) with
      | none => some (w, units, { r with pc := .done })
      | some value => some (w, units, { r with pc := .executed (extractVersionFromValue value) })
    else none
  | .resolve =>
    match r.pc with
    | .executed version =>
      if version = 0 ∨ r.seen.isNone then some (w, units, { r with pc := .done })
      else some (r.populate cfg w version, units, { r with fresh := decide (r.expected = some version), pc := .done })
    | _ => none

end Readers

/-- All writers and readers with what they share. -/
structure Access where
  shared : Shared := {}
  units : List WriteUnit := []
  readers : List Reader := []

inductive AccessAction
  | transaction (db cf : ℕ) (disableSnapshot pessimistic : Bool)
  | direct (db : ℕ) (enabled : Bool)
  | unit (i : ℕ) (action : UnitAction)
  /-- A read with the word of its `expectedVersion` argument. -/
  | call (loc : Location) (path : ReadPath) (txn : Option ℕ) (expected : Option ℕ) (wantsPopulate : Bool)
  | reader (j : ℕ) (action : ReaderAction)
  /-- `getVerificationTable` of `VerifyVersion` and `PopulateVersion`. -/
  | materialize
  /-- The deletion of `DBHandle::clear`, and its sweep. -/
  | clear (db cf : ℕ) (enabled : Bool)
  | sweep (c : ℕ)
  /-- `cancelForDB` takes `writerMutex_`, and goes to the next slot. -/
  | cancelForDB (db : ℕ)
  | cancelSlot

section Bulk

/-- The data without a column family. -/
def clearData (db cf : ℕ) (data : Location → Option Bytes) : Location → Option Bytes :=
  fun loc => if loc.db = db ∧ loc.cf = cf then none else data loc

/-- `DeleteFilesInRange` takes the data from the snapshots too. -/
def Snapshot.clear (db cf : ℕ) (s : Snapshot) : Snapshot := { s with view := clearData db cf s.view }

/-- The next step of `settleAllSlots`. -/
def Shared.sweep (cfg : TableConfig) (w : Shared) (c : ClearCall) : Option (Shared × ClearCall) :=
  match c.pc with
  | .deleted =>
    if c.enabled && w.materialized then some ({ w with settleGen := w.settleGen + 1 },
      { c with pc := .sweeping w.settleGen 0 })
    else some (w, { c with pc := .swept })
  | .sweeping gen next =>
    if next < cfg.entries then some ({ w with vt := w.vt.settleSlot next gen },
      { c with pc := .sweeping gen (next + 1) })
    else some (w, { c with pc := .swept })
  | .swept => none

/-- The next step of `cancelForDB`. -/
def Shared.cancelSlot (cfg : TableConfig) (w : Shared) : Option Shared :=
  match w.cancelling with
  | none => none
  | some (db, next) =>
    if next < cfg.entries then
      match w.vt.cancels db next with
      | none => some { w with cancelling := some (db, next + 1) }
      | some _ =>
        some { w with vt := w.vt.settle next w.settleGen, settleGen := w.settleGen + 1,
                      cancelling := some (db, next + 1) }
    else some { w with cancelling := none }

end Bulk

namespace Access

/-- The transaction's thread is in a read. -/
def reading (y : Access) (i : ℕ) : Bool := y.readers.any fun r => decide (r.txn = some i) && r.onThread

/-- A transaction that a read can be called in. -/
def readable (y : Access) (loc : Location) : Option ℕ → Bool
  | none => true
  | some i =>
    match y.units[i]? with
    | none => false
    | some u =>
      u.isTransaction && decide (u.db = loc.db ∧ u.phase ≠ .closed ∧ u.phase ≠ .releasing .aborted) && !y.reading i

def step (cfg : TableConfig) (y : Access) : AccessAction → Option Access
  | .transaction db cf disableSnapshot pessimistic =>
    some { y with units := y.units ++ [{ db, cf, kind := .transaction disableSnapshot pessimistic }] }
  | .direct db enabled =>
    some { y with units := y.units ++ [{ db, kind := .direct (enabled && y.shared.materialized) }] }
  | .unit i action =>
    (y.units[i]?).bind fun u =>
      if action.onThread && y.reading i then none
      else (stepUnit cfg y.shared u action).map fun p => { y with shared := p.1, units := y.units.set i p.2 }
  | .call loc path txn expected wantsPopulate =>
    if y.readable loc txn then
      some { y with readers := y.readers ++
        [{ loc, path, txn, expected := expected.bind parseExpectedVersion,
           wantsPopulate := wantsPopulate && decide (path ≠ .get) }] }
    else none
  | .reader j action =>
    (y.readers[j]?).bind fun r =>
      (stepReader cfg y.shared y.units r action).map fun p =>
        { y with shared := p.1, units := p.2.1, readers := y.readers.set j p.2.2 }
  | .materialize => some { y with shared := { y.shared with materialized := true } }
  | .clear db cf enabled =>
    some { y with
      shared := { y.shared with committed := clearData db cf y.shared.committed
                                clears := y.shared.clears ++ [⟨db, cf, enabled, .deleted⟩] }
      units := y.units.map fun u => { u with snapshot := u.snapshot.map (Snapshot.clear db cf) }
      readers := y.readers.map fun r => { r with snapshot := r.snapshot.map (Snapshot.clear db cf) } }
  | .sweep c =>
    (y.shared.clears[c]?).bind fun call =>
      (y.shared.sweep cfg call).map fun p => { y with shared := { p.1 with clears := p.1.clears.set c p.2 } }
  | .cancelForDB db =>
    if y.shared.materialized ∧ y.shared.cancelling = none then
      some { y with shared := { y.shared with cancelling := some (db, 0) } }
    else none
  | .cancelSlot => (y.shared.cancelSlot cfg).map fun w => { y with shared := w }

end Access

end RocksdbJs
