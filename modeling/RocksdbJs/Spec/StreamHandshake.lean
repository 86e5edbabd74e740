import RocksdbJs.Lib.Runs
import RocksdbJs.Spec.BackupStream

/-! The two threads of a streamed backup, `AsyncBackupStreamState` of `backup_stream.cpp` between
them. The worker hands one event over and waits; the JS thread takes it from the queue of the
threadsafe function, calls `emit`, and acknowledges when the promise of the call is settled. A
database that closes lets the worker go at any time. The model begins where `Database::BackupStream`
has queued the work, and leaves out the end of the whole environment. -/

namespace RocksdbJs
namespace BackupStream

/-- An event in the queue. The data of a chunk is a pointer into the worker's memory. -/
inductive QueuedEvent
  | file (name : String) (fileSize mtime : ℕ)
  | chunk (size : ℕ)
deriving DecidableEq, Repr

inductive WorkerPc
  | queued
  | running (todo : List WorkerStep)
  /-- `ackReady` is reset and the event not yet given to the threadsafe function. -/
  | calling (ev : StreamEvent) (todo : List WorkerStep)
  | waiting (ev : StreamEvent) (todo : List WorkerStep)
  /-- `emit` has returned false. -/
  | aborting
  | leaving (status : Status)
  | returned

inductive JsPc
  | idle
  | emitting (ev : StreamEvent)
  /-- `emit` has returned its promise; `accepted` tells whether it can be fulfilled. -/
  | attaching (accepted : Bool)

/-- What has become of the threadsafe function. -/
inductive TsfnPhase
  | live
  | released
  | finalized
deriving DecidableEq, Repr

inductive Settlement
  | resolved
  | rejected (error : StreamError)
deriving DecidableEq, Repr

/-- `callResolve` or `callReject`. -/
def settlement : Status → Settlement
  | .ok _ => .resolved
  | .error e => .rejected e

/-- The state that both threads share, the threads and, from `deletions` on, what is of no object of
the source: how often the state was deleted, whether anything was read after it was freed, and the
events that `emit` was called with. -/
structure Stream (κ : Type) where
  refCount : ℤ := 2
  ackReady : Bool := false
  aborted : Bool := false
  abortMessage : String := ""
  status : Status := .ok ()
  operationsInFlight : ℕ := 1
  closing : Bool := false
  cancelled : Bool := false
  worker : WorkerPc := .queued
  /-- What the pointer of a chunk points to, while that is allocated. -/
  lent : Option Bytes := none
  js : JsPc := .idle
  tsfn : TsfnPhase := .live
  queue : List QueuedEvent := []
  /-- The promises with continuations that have not run, each with whether it can be fulfilled. -/
  pending : List Bool := []
  completed : Bool := false
  settled : List Settlement := []
  consumer : κ
  deletions : ℕ := 0
  faulted : Bool := false
  delivered : List StreamEvent := []

/-- How the trampoline fares with the event that it takes from the queue. -/
inductive TrampolineResult
  | unavailable
  | noEvent
  | noArguments
  | built
deriving DecidableEq, Repr

inductive AttachResult
  | noThen
  | threw
  | attached
deriving DecidableEq, Repr

inductive StreamAction
  | start
  | checkCancelled
  | beginEmit
  | callTsfn (ok : Bool)
  | wake
  | timeOut
  | abort
  | finish
  | leave
  | trampoline (result : TrampolineResult)
  | callEmit (threw : Bool)
  | attach (result : AttachResult)
  | resolve (promise : ℕ)
  | reject (promise : ℕ) (message : String)
  | complete
  | finalize
  | close
  | cancel
deriving DecidableEq, Repr

namespace Stream

variable {κ : Type}

/-- The state of the stream is read or written. -/
def touch (s : Stream κ) : Stream κ := { s with faulted := s.faulted || decide (0 < s.deletions) }

def acquire (s : Stream κ) : Stream κ := { s.touch with refCount := s.refCount + 1 }

def release (s : Stream κ) : Stream κ :=
  { s.touch with refCount := s.refCount - 1, deletions := if s.refCount = 1 then s.deletions + 1 else s.deletions }

def signalAck (s : Stream κ) (ok : Bool) (message : String) : Stream κ :=
  if ok then { s.touch with ackReady := true }
  else { s.touch with aborted := true, abortMessage := message, ackReady := true }

/-- The worker's own abort, which keeps a message that is there. -/
def abortWith (s : Stream κ) (message : String) : Stream κ :=
  { s.touch with aborted := true, abortMessage := if s.abortMessage = "" then message else s.abortMessage,
                 worker := .aborting }

/-- The memory that an event of the worker borrows. -/
def lend (s : Stream κ) : StreamEvent → Stream κ
  | .file _ _ _ => s
  | .chunk data => { s with lent := some data }

def queuedEvent : StreamEvent → QueuedEvent
  | .file name fileSize mtime => .file name fileSize mtime
  | .chunk data => .chunk data.length

/-- The threadsafe function is called for `ev`. -/
def call (s : Stream κ) (ev : StreamEvent) (todo : List WorkerStep) (ok : Bool) : Stream κ :=
  if ok then { s.touch with queue := s.queue ++ [queuedEvent ev], worker := .waiting ev todo }
  else s.abortWith "Backup stream callback could not be invoked"

/-- The worker leaves `doBackupStream`, and its buffers are freed. -/
def depart (s : Stream κ) (status : Status) : Stream κ := { s.touch with worker := .leaving status, lent := none }

/-- The bytes of a chunk are copied under the mutex, unless the worker has given up. -/
def copyChunk (s : Stream κ) (size : ℕ) (result : TrampolineResult) : Stream κ :=
  if s.aborted then s.touch
  else
    let s' := { s.touch with faulted := s.touch.faulted || s.lent.isNone }
    match result with
    | .built => { s' with js := .emitting (.chunk ((s.lent.getD []).take size)) }
    | _ => s'.signalAck false "Backup stream failed to allocate chunk buffer"

/-- `emitTrampoline` up to its call of `emit`. -/
def trampoline (s : Stream κ) (ev : QueuedEvent) (result : TrampolineResult) : Stream κ :=
  match result, ev with
  | .unavailable, _ => s.signalAck false "Backup stream environment unavailable"
  | .noEvent, _ => s.signalAck false "Backup stream failed to build event"
  | .noArguments, .file _ _ _ => s.signalAck false "Backup stream failed to build file event"
  | .built, .file name fileSize mtime => { s with js := .emitting (.file name fileSize mtime) }
  | result, .chunk size => s.copyChunk size result

/-- The call of `emit`. -/
def callEmit (consume : κ → StreamEvent → Bool × κ) (s : Stream κ) (ev : StreamEvent) (threw : Bool) : Stream κ :=
  let taken := consume s.consumer ev
  let s' := { s with consumer := taken.2, delivered := s.delivered ++ [ev] }
  if threw then { s'.signalAck false "Backup stream emit callback threw" with js := .idle }
  else { s' with js := .attaching taken.1 }

def attach (s : Stream κ) (accepted : Bool) : AttachResult → Stream κ
  | .noThen => { s.signalAck false "Backup stream failed to attach ack" with js := .idle }
  | .threw => { (s.acquire.signalAck false "Backup stream emit did not return a promise").release with js := .idle }
  | .attached => { s.acquire with js := .idle, pending := s.pending ++ [accepted] }

/-- A continuation runs. -/
def acknowledge (s : Stream κ) (promise : ℕ) (ok : Bool) (message : String) : Stream κ :=
  ({ s with pending := s.pending.eraseIdx promise }.signalAck ok message).release

/-- `backupStreamComplete`. -/
def complete (s : Stream κ) : Stream κ :=
  { s.touch with
    completed := true
    tsfn := .released
    settled := s.settled ++ [settlement s.status] }.release

/-- `backupStreamExecute` after `doBackupStream`. -/
def leave (s : Stream κ) (status : Status) : Stream κ :=
  { s.touch with operationsInFlight := s.operationsInFlight - 1, status := status, worker := .returned }

variable (consume : κ → StreamEvent → Bool × κ) (script : Script)

def workerStep (s : Stream κ) : StreamAction → Option (Stream κ)
  | .start => match s.worker with
    | .queued =>
      if s.cancelled || s.closing then some
        (s.depart (.error (.aborted "Database closed during backup stream operation")))
      else some { s.touch with worker := .running script.steps }
    | _ => none
  | .checkCancelled => match s.worker with
    | .running (.checkCancelled :: todo) =>
      if s.cancelled then some (s.depart (.error (.aborted "Database closed during backup stream operation")))
      else some { s.touch with worker := .running todo }
    | _ => none
  | .beginEmit => match s.worker with
    | .running (.emit ev :: todo) => some ({ s.touch with ackReady := false, worker := .calling ev todo }.lend ev)
    | _ => none
  | .callTsfn ok => match s.worker with
    | .calling ev todo => some (s.call ev todo ok)
    | _ => none
  | .wake => match s.worker with
    | .waiting _ todo =>
      if s.ackReady = false then none
      else if s.aborted then some { s.touch with worker := .aborting }
      -- what the event borrowed may be written again
      else some { s.touch with worker := .running todo, lent := none }
    | _ => none
  | .timeOut => match s.worker with
    | .waiting _ _ =>
      if s.ackReady = false ∧ (s.closing || s.cancelled) then some
        (s.abortWith "Database closing during backup stream operation") else none
    | _ => none
  | .abort => match s.worker with
    | .aborting => some (s.depart (.error (.aborted s.abortMessage)))
    | _ => none
  | .finish => match s.worker with
    | .running [] => some (s.depart script.status)
    | _ => none
  | .leave => match s.worker with
    | .leaving status => some (s.leave status)
    | _ => none
  | _ => none

def jsStep (s : Stream κ) : StreamAction → Option (Stream κ)
  | .trampoline result => match s.js, s.queue with
    | .idle, ev :: queue => some ({ s with queue := queue }.trampoline ev result)
    | _, _ => none
  | .callEmit threw => match s.js with
    | .emitting ev => some (s.callEmit consume ev threw)
    | _ => none
  | .attach result => match s.js with
    | .attaching accepted => some (s.attach accepted result)
    | _ => none
  | .resolve promise => match s.js, s.pending[promise]? with
    | .idle, some true => some (s.acknowledge promise true "")
    | _, _ => none
  | .reject promise message => match s.js, s.pending[promise]? with
    | .idle, some _ => some (s.acknowledge promise false message)
    | _, _ => none
  | .complete => match s.js, s.worker with
    | .idle, .returned => if s.completed then none else some s.complete
    | _, _ => none
  -- only a threadsafe function that is released and has an empty queue is finalized
  | .finalize => match s.js, s.tsfn, s.queue with
    | .idle, .released, [] => some { s.release with tsfn := .finalized }
    | _, _, _ => none
  | _ => none

def step (s : Stream κ) : StreamAction → Option (Stream κ)
  | .close => some { s with closing := true }
  | .cancel => some { s with cancelled := true }
  | a => (s.workerStep script a).or (s.jsStep consume a)

end Stream

end BackupStream
end RocksdbJs
