import RocksdbJs.Spec.CreateBackup
import RocksdbJs.Spec.Tar

/-! A backup that is streamed: what the worker of `backup_stream.cpp` hands over, event by event, and the
`emit` of `backup-stream.ts` that frames it into an archive. What the engine and the file system answer is given. -/

namespace RocksdbJs
namespace BackupStream

def kChunkSize : ℕ := 1048576

/-- No time is before the epoch. -/
inductive StreamEvent
  | file (name : String) (fileSize mtime : ℕ)
  | chunk (data : Bytes)
deriving DecidableEq, Repr

/-- A status that is not `OK`. -/
inductive StreamError
  | aborted (message : String)
  | corruption (message path : String)
  | engine (message : String)
deriving DecidableEq, Repr

abbrev Status := Except StreamError Unit

/-- A file that is read from its beginning: what it gives at an offset, at most as much as it is asked for. -/
structure SequentialFile where
  read : ℕ → (n : ℕ) → Except StreamError { bytes : Bytes // bytes.length ≤ n }

/-- A file by its path and what opening it gives. -/
structure SourceFile where
  path : String
  newSequentialFile : Except StreamError SequentialFile

structure LiveFileStorageInfo where
  relativeFilename : String
  size : ℕ
  replacementContents : Bytes := []
  source : SourceFile

/-- An entry of the transaction log snapshot, and whether its file is there when its turn comes. -/
structure StreamedLog extends CreateBackup.NamedEntry where
  mtime : ℕ
  present : Bool
  source : SourceFile

/-- What the worker does between two reads: it looks whether the handle is cancelled, or it emits an event. -/
inductive WorkerStep
  | checkCancelled
  | emit (ev : StreamEvent)
deriving DecidableEq, Repr

/-- The steps of the worker as long as none of them fails, and how it ends after them. -/
structure Script where
  steps : List WorkerStep
  status : Status

namespace Script

def done (status : Status) : Script := ⟨[], status⟩

def after (step : WorkerStep) (script : Script) : Script := { script with steps := step :: script.steps }

/-- What comes second is done if the first is `OK`. -/
def andThen (first second : Script) : Script :=
  match first.status with
  | .ok _ => ⟨first.steps ++ second.steps, second.status⟩
  | .error _ => first

/-- A loop that leaves with the first status that is not `OK`. -/
def forEach {α : Type} (body : α → Script) (items : List α) : Script :=
  items.foldr (fun item rest => (body item).andThen rest) (done (.ok ()))

end Script

/-- The loop of `streamFilePrefix`. -/
def readLoop (file : SequentialFile) (path : String) (byteLimit remaining : ℕ) : Script :=
  if remaining = 0 then .done (.ok ())
  else match file.read (byteLimit - remaining) (min remaining kChunkSize) with
    | .error s => .done (.error s)
    | .ok result =>
      if result.val = [] then .done (.error (.corruption "File shorter than recorded size" path))
      else .after (.emit (.chunk result.val)) (readLoop file path byteLimit (remaining - result.val.length))
termination_by remaining
decreasing_by
  exact Nat.sub_lt_of_pos_le (List.length_pos_iff.mpr ‹_›) (result.property.trans (min_le_left _ _))

def streamFilePrefix (source : SourceFile) (byteLimit : ℕ) : Script :=
  match source.newSequentialFile with
  | .error s => .done (.error s)
  | .ok file => readLoop file source.path byteLimit byteLimit

/-- The loop over contents that are given inline. -/
def inlineLoop (contents : Bytes) (offset : ℕ) : Script :=
  if contents.length ≤ offset then .done (.ok ())
  else
    let n := min kChunkSize (contents.length - offset)
    .after (.emit (.chunk ((contents.drop offset).take n))) (inlineLoop contents (offset + n))
termination_by contents.length - offset
decreasing_by
  have hchunk : 0 < kChunkSize := by simp [kChunkSize]
  omega

def streamLiveFile (file : LiveFileStorageInfo) : Script :=
  .after .checkCancelled <| .after (.emit (.file file.relativeFilename file.size 0)) <|
    if file.replacementContents ≠ [] then inlineLoop file.replacementContents 0
    else streamFilePrefix file.source file.size

def tarPath (log : StreamedLog) : String := "transaction_logs/" ++ log.name.1 ++ "/" ++ log.name.2

/-- A file that is gone is left out, before its header. -/
def streamLog (log : StreamedLog) : Script :=
  if log.inlineContents ≠ [] then
    .after (.emit (.file (tarPath log) log.inlineContents.length log.mtime)) (inlineLoop log.inlineContents 0)
  else if log.present = false then .done (.ok ())
  else .after (.emit (.file (tarPath log) log.byteLimit log.mtime)) (streamFilePrefix log.source log.byteLimit)

/-- What `doBackupStream` is given. -/
structure StreamSource where
  disableFileDeletions : Status := .ok ()
  getLiveFilesStorageInfo : Except StreamError (List LiveFileStorageInfo)
  backupTransactionLogs : Bool
  /-- `collectTransactionLogBackupEntries`. -/
  logs : List StreamedLog

/-- `doBackupStream` from where it is known that the database is open. -/
def doBackupStream (source : StreamSource) : Script :=
  match source.disableFileDeletions, source.getLiveFilesStorageInfo with
  | .error s, _ => .done (.error s)
  | .ok _, .error s => .done (.error s)
  | .ok _, .ok files =>
    (Script.forEach streamLiveFile files).andThen
      (if source.backupTransactionLogs then .forEach streamLog source.logs else .done (.ok ()))

/-- The events of the steps. -/
def events (steps : List WorkerStep) : List StreamEvent :=
  steps.filterMap fun step => match step with
    | .checkCancelled => none
    | .emit ev => some ev

/-- The call of the encoder that `emit` makes. A size goes through a number of the runtime, exact below `2 ^ 53`. -/
def StreamEvent.call : StreamEvent → TarCall
  | .file name fileSize mtime => .addFile name (some fileSize) { mtime := some mtime }
  | .chunk data => .writeData data

/-- `emit`, and whether the encoder takes the event. -/
def emit (r : TarRun) (ev : StreamEvent) : Bool × TarRun :=
  let result := r.call ev.call
  (match result.1 with
    | .ok _ => true
    | .error _ => false, result.2)

end BackupStream
end RocksdbJs
