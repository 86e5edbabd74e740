import RocksdbJs.Lib.Runs

/-! `runCreateBackup` with transaction logs, one file-system operation a step, beside a
store that goes on appending to its files and purging them. A crash of the process is the
end of the run at any state; what is on disk stays. The engine's own create and delete are
one step each. -/

namespace RocksdbJs
namespace CreateBackup

abbrev Bytes := List UInt8

/-- The store's name and the file's name in it. -/
abbrev EntryName := String × String

/-- A file of a live store. Its bytes outlive the purge when a hard link shares them. -/
structure LiveFile where
  bytes : Bytes
  present : Bool

/-- A file of the backup's subtree. -/
inductive StagedFile
  | linked
  | own (bytes : Bytes)

/-- The files below `transaction_logs/<id>`, or below its staging name. -/
abbrev Subtree := EntryName → Option StagedFile

/-- `NamedTransactionLogBackupEntry`. An entry with inline contents is the store's `txn.state`. -/
structure NamedEntry where
  name : EntryName
  byteLimit : ℕ
  immutable : Bool
  inlineContents : Bytes := []

/-- An entry and the bytes it stands for, those of its extent when it was captured. -/
structure CapturedEntry extends NamedEntry where
  captured : Bytes

/-- Where `copySnapshotEntries` is with the entry it works on. -/
inductive EntryPc
  | createDirectories
  | writeInline
  | link
  | openSource
  | createFile
  | copyLoop (remaining : ℕ) (eof : Bool)
  | closeFile
  | stampFile
  | recheckSource
  | removePartial
  | syncFile
  deriving DecidableEq

inductive Pc
  | start
  | createBackupDir
  | acquireLock
  | sweepStaging
  | openEngine
  | createBackup
  | collect
  | entry (pc : EntryPc)
  | syncDirs (left : ℕ)
  | syncBase
  | rename
  | syncParent
  | removeStaging
  | deleteBackup
  | returned (ok : Bool)
  deriving DecidableEq

structure World where
  /-- The backup's `sync` option. -/
  sync : Bool
  files : EntryName → LiveFile
  /-- The new backup's id is among those the engine lists. -/
  listed : Bool := false
  staging : Option Subtree := none
  /-- `transaction_logs/<id>`. -/
  final : Option Subtree := none
  pc : Pc := .start
  entries : List CapturedEntry := []
  todo : List CapturedEntry := []

inductive Event
  /-- The store appends to a file. -/
  | append (name : EntryName) (bytes : Bytes)
  /-- The store's retention unlinks a file. -/
  | purge (name : EntryName)
  /-- `collectTransactionLogBackupEntries` returns. -/
  | collect (entries : List NamedEntry)
  /-- The next operation of the call, whether it succeeds, and how many bytes a failing write still puts down. -/
  | op (ok : Bool) (written : ℕ)

def StagedFile.content (files : EntryName → LiveFile) (name : EntryName) : StagedFile → Bytes
  | .linked => (files name).bytes
  | .own bytes => bytes

namespace World

variable (w : World)

def goto (pc : Pc) : World := { w with pc := pc }

def staged (name : EntryName) : Option StagedFile := w.staging.bind fun s => s name

def stage (name : EntryName) (f : Option StagedFile) : World :=
  { w with staging := some (Function.update (w.staging.getD fun _ => none) name f) }

/-- The entry at the head of `todo` is through. -/
def nextEntry : World :=
  let rest := w.todo.tail
  let dirs := (w.entries.map fun e => e.name.1).dedup.length
  let pc := if rest ≠ [] then Pc.entry .createDirectories else if w.sync then .syncDirs dirs else .rename
  { w with todo := rest, pc := pc }

/-- A file that is down is synced when the backup asks for it. -/
def written : World := if w.sync then w.goto (.entry .syncFile) else w.nextEntry

/-- An output stream over an existing file empties it; over a hard link that is the live file itself. -/
def createFile (e : CapturedEntry) : World :=
  match w.staged e.name with
  | some .linked => { w with files := Function.update w.files e.name { w.files e.name with bytes := [] } }
  | _ => w.stage e.name (some (.own []))

def appendStaged (name : EntryName) (bytes : Bytes) : World :=
  match w.staged name with
  | some (.own old) => w.stage name (some (.own (old ++ bytes)))
  | some .linked =>
    { w with files := Function.update w.files name { w.files name with bytes := (w.files name).bytes ++ bytes } }
  | none => w

/-- The size of the copy's buffer. -/
def bufferSize : ℕ := 65536

/-- One read and one write of `copyPrefixWithMtime`. A read that meets the end of the file
leaves the stream failed, so the next one gets nothing. -/
def copyChunk (e : CapturedEntry) (remaining : ℕ) (eof ok : Bool) (n : ℕ) : World :=
  let toRead := min remaining bufferSize
  let got := if eof then [] else ((w.files e.name).bytes.drop (e.byteLimit - remaining)).take toRead
  if got = [] then w.goto (.entry .recheckSource)
  else if ok = false then (w.appendStaged e.name (got.take n)).goto (.entry .recheckSource)
  else (w.appendStaged e.name got).goto (.entry (.copyLoop (remaining - got.length) (decide (got.length < toRead))))

/-- One operation of `copySnapshotEntries` for the entry `e`. -/
def entryStep (e : CapturedEntry) (ok : Bool) (n : ℕ) : EntryPc → World
  | .createDirectories =>
    if ok = false then w.goto .removeStaging
    else
      let w := { w with staging := some (w.staging.getD fun _ => none) }
      if e.inlineContents ≠ [] then w.goto (.entry .writeInline)
      else if e.immutable then w.goto (.entry .link)
      else w.goto (.entry .openSource)
  | .writeInline =>
    if ok = false then (w.stage e.name (some (.own (e.inlineContents.take n)))).goto .removeStaging
    else (w.stage e.name (some (.own e.inlineContents))).written
  | .link =>
    -- a link is refused where a file of that name exists, or the source is gone
    if ok = false ∨ (w.staged e.name).isSome ∨ (w.files e.name).present = false then w.goto (.entry .openSource)
    else (w.stage e.name (some .linked)).written
  | .openSource =>
    if ok = false ∨ (w.files e.name).present = false then w.goto (.entry .recheckSource)
    else w.goto (.entry .createFile)
  | .createFile =>
    if ok = false then w.goto (.entry .recheckSource)
    else (w.createFile e).goto (.entry (.copyLoop e.byteLimit false))
  | .copyLoop remaining eof =>
    if remaining = 0 then w.goto (.entry .closeFile) else w.copyChunk e remaining eof ok n
  | .closeFile => if ok = false then w.goto (.entry .recheckSource) else w.goto (.entry .stampFile)
  | .stampFile => if ok = false then w.goto (.entry .recheckSource) else w.written
  | .recheckSource =>
    -- a check that fails itself counts as a source that is gone
    if ok = false ∨ (w.files e.name).present = false then w.goto (.entry .removePartial) else w.goto .removeStaging
  | .removePartial => if ok = false then w.nextEntry else (w.stage e.name none).nextEntry
  | .syncFile => if ok = false then w.goto .removeStaging else w.nextEntry

/-- The next operation of the call. -/
def opStep (ok : Bool) (n : ℕ) : Option World :=
  match w.pc with
  | .start => some (if ok = false then w.goto (.returned false) else w.goto .createBackupDir)
  | .createBackupDir => some (if ok = false then w.goto (.returned false) else w.goto .acquireLock)
  | .acquireLock => some (if ok = false then w.goto (.returned false) else w.goto .sweepStaging)
  | .sweepStaging => some (if ok = false then w.goto .openEngine else { w with staging := none, pc := .openEngine })
  | .openEngine => some (if ok = false then w.goto (.returned false) else w.goto .createBackup)
  | .createBackup => some (if ok = false then w.goto (.returned false) else { w with listed := true, pc := .collect })
  | .collect => none
  | .entry pc => w.todo.head?.map fun e => w.entryStep e ok n pc
  | .syncDirs left =>
    some (if left = 0 then w.goto .syncBase else if ok = false then w.goto .removeStaging
      else w.goto (.syncDirs (left - 1)))
  | .syncBase => some (if ok = false then w.goto .removeStaging else w.goto .rename)
  | .rename =>
    -- a directory is not renamed over one that holds something
    some (if ok = false ∨ w.final.isSome then w.goto .removeStaging
      else { w with staging := none, final := w.staging, pc := if w.sync then .syncParent else .returned true })
  | .syncParent => some (if ok = false then w.goto .removeStaging else w.goto (.returned true))
  | .removeStaging =>
    some (if ok = false then w.goto .deleteBackup else { w with staging := none, pc := .deleteBackup })
  | .deleteBackup =>
    some (if ok = false then w.goto (.returned false) else { w with listed := false, pc := .returned false })
  | .returned _ => none

/-- The entries of the snapshot, each with the bytes it stands for. -/
def capture (e : NamedEntry) : CapturedEntry :=
  { e with captured := if e.inlineContents ≠ [] then e.inlineContents else (w.files e.name).bytes.take e.byteLimit }

def step : Event → Option World
  | .append name bytes =>
    some { w with files := Function.update w.files name { w.files name with bytes := (w.files name).bytes ++ bytes } }
  | .purge name => some { w with files := Function.update w.files name { w.files name with present := false } }
  | .collect es =>
    -- no two files of one database have the same store and name
    if w.pc = .collect ∧ (es.map NamedEntry.name).Nodup then
      let captured := es.map w.capture
      some { w with entries := captured, todo := captured,
                    pc := if es = [] then .returned true else .entry .createDirectories }
    else none
  | .op ok n => w.opStep ok n

end World

end CreateBackup
end RocksdbJs
