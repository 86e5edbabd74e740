import Mathlib.Tactic
import RocksdbJs.Spec.StreamHandshake

/-! What holds in every run of a streamed backup. The references count who may still run; of one event there is a single
place where it is on its way; and the worker waits only while it is owed an acknowledgement. -/

namespace RocksdbJs
namespace BackupStream
namespace Stream

variable {κ : Type} {consume : κ → StreamEvent → Bool × κ} {script : Script}

section Moves

/-- What one of the two threads can do. -/
inductive Move (consume : κ → StreamEvent → Bool × κ) (script : Script) (s : Stream κ) : Stream κ → Prop
  | refuse : s.worker = .queued → Move consume script s
      (s.depart (.error (.aborted "Database closed during backup stream operation")))
  | start : s.worker = .queued → Move consume script s { s.touch with worker := .running script.steps }
  | stop {todo} : s.worker = .running (.checkCancelled :: todo) →
    Move consume script s (s.depart (.error (.aborted "Database closed during backup stream operation")))
  | goOn {todo} : s.worker = .running (.checkCancelled :: todo) →
      Move consume script s { s.touch with worker := .running todo }
  | beginEmit {ev todo} : s.worker = .running (.emit ev :: todo) →
    Move consume script s ({ s.touch with ackReady := false, worker := .calling ev todo }.lend ev)
  | enqueue {ev todo} : s.worker = .calling ev todo →
    Move consume script s { s.touch with queue := s.queue ++ [queuedEvent ev], worker := .waiting ev todo }
  | callFailed {ev todo} : s.worker = .calling ev todo →
      Move consume script s (s.abortWith "Backup stream callback could not be invoked")
  | wakeAborted {ev todo} : s.worker = .waiting ev todo → s.ackReady = true → s.aborted = true →
    Move consume script s { s.touch with worker := .aborting }
  | wake {ev todo} : s.worker = .waiting ev todo → s.ackReady = true → s.aborted = false →
    Move consume script s { s.touch with worker := .running todo, lent := none }
  | timeOut {ev todo} : s.worker = .waiting ev todo → s.ackReady = false →
    Move consume script s (s.abortWith "Database closing during backup stream operation")
  | abort : s.worker = .aborting → Move consume script s (s.depart (.error (.aborted s.abortMessage)))
  | finish : s.worker = .running [] → Move consume script s (s.depart script.status)
  | leave {status} : s.worker = .leaving status → Move consume script s (s.leave status)
  | takeFailed {ev queue message} : s.js = .idle → s.queue = ev :: queue →
    Move consume script s ({ s with queue := queue }.signalAck false message)
  | takeFile {name fileSize mtime queue} : s.js = .idle → s.queue = .file name fileSize mtime :: queue →
    Move consume script s { s with queue := queue, js := .emitting (.file name fileSize mtime) }
  | drop {size queue} : s.js = .idle → s.queue = .chunk size :: queue → s.aborted = true →
    Move consume script s { s with queue := queue }.touch
  | copyFailed {size queue} : s.js = .idle → s.queue = .chunk size :: queue → s.aborted = false →
    Move consume script s
      ({ { s with queue := queue }.touch with faulted := { s
        with queue := queue }.touch.faulted || s.lent.isNone }.signalAck false
        "Backup stream failed to allocate chunk buffer")
  | takeChunk {size queue} : s.js = .idle → s.queue = .chunk size :: queue → s.aborted = false →
    Move consume script s
      { { s with queue := queue }.touch with
        faulted := { s with queue := queue }.touch.faulted || s.lent.isNone
        js := .emitting (.chunk ((s.lent.getD []).take size)) }
  | callEmit {ev threw} : s.js = .emitting ev → Move consume script s (s.callEmit consume ev threw)
  | attach {accepted result} : s.js = .attaching accepted → Move consume script s (s.attach accepted result)
  | acknowledge {promise accepted ok message} : s.js = .idle → s.pending[promise]? = some accepted →
      (ok = true → accepted = true) →
    Move consume script s (s.acknowledge promise ok message)
  | complete : s.js = .idle → s.worker = .returned → s.completed = false → Move consume script s s.complete
  | finalize : s.js = .idle → s.tsfn = .released → s.queue = [] →
      Move consume script s { s.release with tsfn := .finalized }

/-- The actions of the environment. -/
def environment : StreamAction → Bool
  | .close => true
  | .cancel => true
  | _ => false

variable {s t : Stream κ}

theorem workerStep_move {a : StreamAction} (h : s.workerStep script a = some t) : Move consume script s t := by
  cases a with
  | start =>
    rw [workerStep] at h
    split at h
    · rename_i hw
      split_ifs at h <;> obtain rfl := Option.some.inj h
      · exact .refuse hw
      · exact .start hw
    · cases h
  | checkCancelled =>
    rw [workerStep] at h
    split at h
    · rename_i hw
      split_ifs at h <;> obtain rfl := Option.some.inj h
      · exact .stop hw
      · exact .goOn hw
    · cases h
  | beginEmit =>
    rw [workerStep] at h
    split at h
    · rename_i hw
      obtain rfl := Option.some.inj h
      exact .beginEmit hw
    · cases h
  | callTsfn ok =>
    rw [workerStep] at h
    split at h
    · rename_i hw
      obtain rfl := Option.some.inj h
      cases ok
      · exact .callFailed hw
      · exact .enqueue hw
    · cases h
  | wake =>
    rw [workerStep] at h
    split at h
    · rename_i hw
      split_ifs at h with hready haborted <;> obtain rfl := Option.some.inj h
      · exact .wakeAborted hw (by simpa using hready) haborted
      · exact .wake hw (by simpa using hready) (by simpa using haborted)
    · cases h
  | timeOut =>
    rw [workerStep] at h
    split at h
    · rename_i hw
      split_ifs at h with hguard
      obtain rfl := Option.some.inj h
      exact .timeOut hw hguard.1
    · cases h
  | abort =>
    rw [workerStep] at h
    split at h
    · rename_i hw
      obtain rfl := Option.some.inj h
      exact .abort hw
    · cases h
  | finish =>
    rw [workerStep] at h
    split at h
    · rename_i hw
      obtain rfl := Option.some.inj h
      exact .finish hw
    · cases h
  | leave =>
    rw [workerStep] at h
    split at h
    · rename_i hw
      obtain rfl := Option.some.inj h
      exact .leave hw
    · cases h
  | _ => cases h

theorem copyChunk_move {size : ℕ} {queue : List QueuedEvent} (hjs : s.js = .idle)
    (hqueue : s.queue = .chunk size :: queue) (result : TrampolineResult) :
    Move consume script s ({ s with queue := queue }.copyChunk size result) := by
  rw [copyChunk]
  split_ifs with haborted
  · exact .drop hjs hqueue haborted
  · rw [Bool.not_eq_true] at haborted
    cases result with
    | built => exact .takeChunk hjs hqueue haborted
    | _ => exact .copyFailed hjs hqueue haborted

theorem trampoline_move {ev : QueuedEvent} {queue : List QueuedEvent} (hjs : s.js = .idle)
    (hqueue : s.queue = ev :: queue) (result : TrampolineResult) :
    Move consume script s ({ s with queue := queue }.trampoline ev result) := by
  cases ev with
  | file name fileSize mtime =>
    cases result with
    | built => exact .takeFile hjs hqueue
    | _ => exact .takeFailed hjs hqueue
  | chunk size =>
    cases result with
    | unavailable => exact .takeFailed hjs hqueue
    | noEvent => exact .takeFailed hjs hqueue
    | noArguments => exact copyChunk_move hjs hqueue .noArguments
    | built => exact copyChunk_move hjs hqueue .built

theorem jsStep_move {a : StreamAction} (h : s.jsStep consume a = some t) : Move consume script s t := by
  cases a with
  | trampoline result =>
    rw [jsStep] at h
    split at h
    · rename_i hjs hqueue
      obtain rfl := Option.some.inj h
      exact trampoline_move hjs hqueue result
    · cases h
  | callEmit threw =>
    rw [jsStep] at h
    split at h
    · rename_i hjs
      obtain rfl := Option.some.inj h
      exact .callEmit hjs
    · cases h
  | attach result =>
    rw [jsStep] at h
    split at h
    · rename_i hjs
      obtain rfl := Option.some.inj h
      exact .attach hjs
    · cases h
  | resolve promise =>
    rw [jsStep] at h
    split at h
    · rename_i hjs hpending
      obtain rfl := Option.some.inj h
      exact .acknowledge hjs hpending fun _ => rfl
    · cases h
  | reject promise message =>
    rw [jsStep] at h
    split at h
    · rename_i hjs hpending
      obtain rfl := Option.some.inj h
      exact .acknowledge hjs hpending fun hok => absurd hok Bool.false_ne_true
    · cases h
  | complete =>
    rw [jsStep] at h
    split at h
    · rename_i hjs hworker
      split_ifs at h with hcompleted
      obtain rfl := Option.some.inj h
      exact .complete hjs hworker (by simpa using hcompleted)
    · cases h
  | finalize =>
    rw [jsStep] at h
    split at h
    · rename_i hjs htsfn hqueue
      obtain rfl := Option.some.inj h
      exact .finalize hjs htsfn hqueue
    · cases h
  | _ => cases h

theorem step_thread {a : StreamAction} (ha : environment a = false) :
    s.step consume script a = (s.workerStep script a).or (s.jsStep consume a) := by
  cases a <;> first | rfl | cases ha

/-- A step is a move of a thread, or it closes the database or cancels its handle. -/
theorem step_move {a : StreamAction} (h : s.step consume script a = some t) :
    environment a = false ∧ Move consume script s t ∨
      environment a = true ∧ (t = { s with closing := true } ∨ t = { s with cancelled := true }) := by
  cases ha : environment a with
  | false =>
    rw [step_thread ha] at h
    rcases Option.or_eq_some_iff.mp h with h | ⟨-, h⟩
    · exact .inl ⟨rfl, workerStep_move h⟩
    · exact .inl ⟨rfl, jsStep_move h⟩
  | true =>
    cases a with
    | close => exact .inr ⟨rfl, .inl (Option.some.inj h).symm⟩
    | cancel => exact .inr ⟨rfl, .inr (Option.some.inj h).symm⟩
    | _ => cases ha

end Moves

section References

/-- Who holds a reference: the complete callback, the threadsafe function and each continuation. -/
def holders (s : Stream κ) : ℤ :=
  (if s.completed then 0 else 1) + (if s.tsfn = .finalized then 0 else 1) + s.pending.length

/-- The references are those of the holders, and the last that goes deletes the state. -/
structure Counted (s : Stream κ) : Prop where
  count : s.refCount = s.holders
  deletions : s.deletions = if s.refCount = 0 then 1 else 0
  live : s.completed = false ↔ s.tsfn = .live
  returned : s.completed = true → s.worker = .returned
  finalized : s.tsfn = .finalized → s.queue = [] ∧ s.js = .idle

variable {s t : Stream κ}

theorem Counted.deletions_le (h : s.Counted) : s.deletions ≤ 1 := by
  rw [h.deletions]
  split_ifs <;> omega

theorem holders_pos_iff : 0 < s.holders ↔ s.completed = false ∨ s.tsfn ≠ .finalized ∨ s.pending ≠ [] := by
  rw [holders, ← List.length_pos_iff, ← Bool.not_eq_true]
  split_ifs <;> simp_all <;> omega

/-- As long as there is a holder, nothing is deleted. -/
theorem Counted.alive (h : s.Counted) (hpos : 0 < s.holders) : s.deletions = 0 := by
  have hne : s.refCount ≠ 0 := by
    rw [h.count]
    exact hpos.ne'
  rw [h.deletions, if_neg hne]

theorem Counted.incomplete (h : s.Counted) (hworker : s.worker ≠ .returned) : s.completed = false := by
  cases hc : s.completed with
  | false => rfl
  | true => exact absurd (h.returned hc) hworker

theorem Counted.worker_holds (h : s.Counted) (hworker : s.worker ≠ .returned) : 0 < s.holders :=
  holders_pos_iff.mpr (.inl (h.incomplete hworker))

theorem Counted.not_finalized_of_js (h : s.Counted) (hjs : s.js ≠ .idle) : s.tsfn ≠ .finalized :=
  fun hfinal => hjs (h.finalized hfinal).2

theorem Counted.not_finalized_of_queue (h : s.Counted) (hqueue : s.queue ≠ []) : s.tsfn ≠ .finalized :=
  fun hfinal => hqueue (h.finalized hfinal).1

theorem tsfn_holds (htsfn : s.tsfn ≠ .finalized) : 0 < s.holders := holders_pos_iff.mpr (.inr (.inl htsfn))

theorem pending_holds {promise : ℕ} {accepted : Bool} (hpending : s.pending[promise]? = some accepted) :
    0 < s.holders := by
  refine holders_pos_iff.mpr (.inr (.inr ?_))
  rintro hnil
  rw [hnil] at hpending
  cases hpending

/-- The worker leaves the references alone. -/
theorem Counted.of_worker (h : s.Counted) (hworker : s.worker ≠ .returned)
    (hcount : t.refCount = s.refCount) (hdeletions : t.deletions = s.deletions)
    (hcompleted : t.completed = s.completed) (htsfn : t.tsfn = s.tsfn) (hpending : t.pending = s.pending) :
    t.Counted := by
  have hincomplete := h.incomplete hworker
  have hlive := h.live.mp hincomplete
  refine ⟨?_, ?_, ?_, fun hc => ?_, fun hfinal => ?_⟩
  · rw [hcount, h.count, holders, holders, hcompleted, htsfn, hpending]
  · rw [hdeletions, hcount, h.deletions]
  · rw [hcompleted, htsfn, h.live]
  · rw [hcompleted, hincomplete] at hc
    cases hc
  · rw [htsfn, hlive] at hfinal
    cases hfinal

/-- So does the JS thread between two tasks of it. -/
theorem Counted.of_js (h : s.Counted) (hfinal : s.tsfn ≠ .finalized) (hcount : t.refCount = s.refCount)
    (hdeletions : t.deletions = s.deletions) (hcompleted : t.completed = s.completed)
    (htsfn : t.tsfn = s.tsfn) (hpending : t.pending = s.pending) (hworker : t.worker = s.worker) :
    t.Counted := by
  refine ⟨?_, ?_, ?_, fun hc => ?_, fun hf => ?_⟩
  · rw [hcount, h.count, holders, holders, hcompleted, htsfn, hpending]
  · rw [hdeletions, hcount, h.deletions]
  · rw [hcompleted, htsfn, h.live]
  · rw [hworker]
    exact h.returned (hcompleted ▸ hc)
  · exact absurd (htsfn ▸ hf) hfinal

/-- A reference that is dropped deletes the state exactly if there is no other. -/
theorem deletions_release (h : s.Counted) (hpos : 0 < s.holders) :
    (if s.refCount = 1 then s.deletions + 1 else s.deletions) = if s.refCount - 1 = 0 then 1 else 0 := by
  have halive := h.alive hpos
  split_ifs <;> omega

theorem Counted.move (h : s.Counted) (hmove : Move consume script s t) : t.Counted := by
  have hjs {pc : JsPc} (hpc : s.js = pc) (hne : pc ≠ .idle) : s.tsfn ≠ .finalized := h.not_finalized_of_js (hpc ▸ hne)
  have hqueue {ev : QueuedEvent} {queue : List QueuedEvent} (hq : s.queue = ev :: queue) : s.tsfn ≠ .finalized :=
    h.not_finalized_of_queue (hq ▸ List.cons_ne_nil _ _)
  cases hmove with
  | refuse hw => exact h.of_worker (by simp [hw]) rfl rfl rfl rfl rfl
  | start hw => exact h.of_worker (by simp [hw]) rfl rfl rfl rfl rfl
  | stop hw => exact h.of_worker (by simp [hw]) rfl rfl rfl rfl rfl
  | goOn hw => exact h.of_worker (by simp [hw]) rfl rfl rfl rfl rfl
  | @beginEmit ev _ hw => cases ev <;> exact h.of_worker (by simp [hw]) rfl rfl rfl rfl rfl
  | enqueue hw => exact h.of_worker (by simp [hw]) rfl rfl rfl rfl rfl
  | callFailed hw => exact h.of_worker (by simp [hw]) rfl rfl rfl rfl rfl
  | wakeAborted hw => exact h.of_worker (by simp [hw]) rfl rfl rfl rfl rfl
  | wake hw => exact h.of_worker (by simp [hw]) rfl rfl rfl rfl rfl
  | timeOut hw => exact h.of_worker (by simp [hw]) rfl rfl rfl rfl rfl
  | abort hw => exact h.of_worker (by simp [hw]) rfl rfl rfl rfl rfl
  | finish hw => exact h.of_worker (by simp [hw]) rfl rfl rfl rfl rfl
  | leave hw => exact h.of_worker (by simp [hw]) rfl rfl rfl rfl rfl
  | takeFailed _ hq => exact h.of_js (hqueue hq) rfl rfl rfl rfl rfl rfl
  | takeFile _ hq => exact h.of_js (hqueue hq) rfl rfl rfl rfl rfl rfl
  | drop _ hq => exact h.of_js (hqueue hq) rfl rfl rfl rfl rfl rfl
  | copyFailed _ hq => exact h.of_js (hqueue hq) rfl rfl rfl rfl rfl rfl
  | takeChunk _ hq => exact h.of_js (hqueue hq) rfl rfl rfl rfl rfl rfl
  | @callEmit _ threw hpc => cases threw <;> exact h.of_js (hjs hpc (by simp)) rfl rfl rfl rfl rfl rfl
  | @attach accepted result hpc =>
    have hfinal := hjs hpc (by simp)
    have hpos := tsfn_holds hfinal
    have hcount := h.count
    cases result with
    | noThen => exact h.of_js hfinal rfl rfl rfl rfl rfl rfl
    | threw =>
      refine h.of_js hfinal ?_ ?_ rfl rfl rfl rfl
      · change s.refCount + 1 - 1 = s.refCount
        omega
      · change (if s.refCount + 1 = 1 then s.deletions + 1 else s.deletions) = s.deletions
        exact if_neg (by omega)
    | attached =>
      refine ⟨?_, ?_, h.live, h.returned, fun hf => absurd hf hfinal⟩
      · change s.refCount + 1 = holders { s with pending := s.pending ++ [accepted] }
        rw [hcount, holders, holders, List.length_append, List.length_singleton]
        push_cast
        omega
      · change s.deletions = if s.refCount + 1 = 0 then 1 else 0
        rw [h.alive hpos, if_neg (by omega)]
  | @acknowledge promise _ ok message hpc hp _ =>
    have hlength : (s.pending.eraseIdx promise).length + 1 = s.pending.length :=
      List.length_eraseIdx_add_one (List.getElem?_eq_some_iff.mp hp).1
    have hcount : s.refCount - 1 = holders { s with pending := s.pending.eraseIdx promise } := by
      rw [h.count, holders, holders, ← hlength]
      push_cast
      ring
    have hdeletions := deletions_release h (pending_holds hp)
    cases ok <;> exact ⟨hcount, hdeletions, h.live, h.returned, h.finalized⟩
  | complete hpc hworker hincomplete =>
    have hlive := h.live.mp hincomplete
    have hcount : s.refCount - 1 = holders { s with completed := true, tsfn := .released } := by
      rw [h.count, holders, holders, hincomplete, hlive]
      simp
      ring
    have hdeletions := deletions_release h (holders_pos_iff.mpr (.inl hincomplete))
    have hreleased : true = false ↔ TsfnPhase.released = .live := by simp
    exact ⟨hcount, hdeletions, hreleased, fun _ => hworker, fun hf => by cases hf⟩
  | finalize hpc htsfn hq =>
    have hcompleted : s.completed = true := by
      cases hc : s.completed with
      | true => rfl
      | false => rw [h.live.mp hc] at htsfn; cases htsfn
    have hcount : s.refCount - 1 = holders { s with tsfn := .finalized } := by
      rw [h.count, holders, holders, htsfn]
      simp
      ring
    refine ⟨hcount, deletions_release h (tsfn_holds (by rw [htsfn]; simp)), ?_, h.returned, fun _ => ⟨hq, hpc⟩⟩
    change s.completed = false ↔ TsfnPhase.finalized = .live
    rw [hcompleted]
    simp

end References

section Phases

/-- The consumer after the events. -/
def consumeAll (consume : κ → StreamEvent → Bool × κ) (first : κ) (evs : List StreamEvent) : κ :=
  evs.foldl (fun c ev => (consume c ev).2) first

/-- It takes every one of them. -/
def accepts (consume : κ → StreamEvent → Bool × κ) : κ → List StreamEvent → Bool
  | _, [] => true
  | c, ev :: evs => (consume c ev).1 && accepts consume (consume c ev).2 evs

theorem consumeAll_snoc (first : κ) (evs : List StreamEvent) (ev : StreamEvent) :
    consumeAll consume first (evs ++ [ev]) = (consume (consumeAll consume first evs) ev).2 := by
  rw [consumeAll, List.foldl_append]
  rfl

theorem accepts_snoc (first : κ) (evs : List StreamEvent) (ev : StreamEvent) :
    accepts consume first (evs ++ [ev]) = (accepts consume first evs &&
      (consume (consumeAll consume first evs) ev).1) := by
  induction evs generalizing first with
  | nil =>
    rw [List.nil_append, accepts, accepts, accepts, Bool.and_true, Bool.true_and]
    rfl
  | cons e evs ih =>
    rw [List.cons_append, accepts, ih, accepts, Bool.and_assoc]
    rfl

/-- What is left of the script. -/
def remaining (script : Script) : WorkerPc → Option (List WorkerStep)
  | .queued => some script.steps
  | .running todo => some todo
  | .calling ev todo => some (.emit ev :: todo)
  | _ => none

/-- Nothing is on its way. -/
structure Quiet (s : Stream κ) : Prop where
  queue : s.queue = []
  js : s.js = .idle
  pending : s.pending = []

/-- Where an event is on its way, before `emit` is called for it and after, and whether it can be acknowledged. -/
inductive InFlight (s : Stream κ) : Option StreamEvent → Bool → Prop
  | queued {ev} : s.queue = [queuedEvent ev] → s.js = .idle → s.pending = [] → InFlight s (some ev) true
  | emitting {ev} : s.queue = [] → s.js = .emitting ev → s.pending = [] → InFlight s (some ev) true
  | attaching {ok} : s.queue = [] → s.js = .attaching ok → s.pending = [] → InFlight s none ok
  | pending {ok} : s.queue = [] → s.js = .idle → s.pending = [ok] → InFlight s none ok

/-- The worker's memory holds the data of the event. -/
def Lends (s : Stream κ) (ev : StreamEvent) : Prop := ∀ data, ev = .chunk data → s.lent = some data

variable (consume script) (first : κ) (s : Stream κ)

/-- The worker has `todo` before it, and all that comes before has been taken. -/
structure Working (todo : List WorkerStep) : Prop where
  remaining : remaining script s.worker = some todo
  quiet : s.Quiet
  aborted : s.aborted = false
  delivered : s.delivered ++ events todo = events script.steps
  accepted : accepts consume first s.delivered = true
  calling : ∀ ev todo, s.worker = .calling ev todo → s.Lends ev ∧ s.ackReady = false

/-- The worker waits for `ev`, which is on its way. -/
structure Handed (ev : StreamEvent) (todo : List WorkerStep) (next : Option StreamEvent) (ok : Bool) : Prop where
  worker : s.worker = .waiting ev todo
  inFlight : s.InFlight next ok
  aborted : s.aborted = false
  ackReady : s.ackReady = false
  same : ∀ ev' ∈ next, ev' = ev
  lends : s.Lends ev
  delivered : s.delivered ++ next.toList ++ events todo = events script.steps
  accepted : ok = true → accepts consume first s.delivered = true

/-- The worker waits, and its event is acknowledged. -/
structure Acked (ev : StreamEvent) (todo : List WorkerStep) : Prop where
  worker : s.worker = .waiting ev todo
  quiet : s.Quiet
  ackReady : s.ackReady = true
  delivered : s.delivered <+: events script.steps
  accepted : s.aborted = false → s.delivered ++ events todo = events script.steps ∧
    accepts consume first s.delivered = true

/-- The worker has given up; an event may still be on its way. -/
structure Stopped (next : Option StreamEvent) : Prop where
  worker : s.worker = .aborting ∨ (∃ e, s.worker = .leaving (.error e)) ∨ s.worker = .returned ∧
    ∃ e, s.status = .error e
  inFlight : s.Quiet ∧ next = none ∨ ∃ ok, s.InFlight next ok
  aborted : s.aborted = true
  delivered : s.delivered ++ next.toList <+: events script.steps

/-- The worker has left its script with `status`. -/
structure Left (status : Status) : Prop where
  worker : s.worker = .leaving status ∨ s.worker = .returned ∧ s.status = status
  quiet : s.Quiet
  aborted : s.aborted = false
  delivered : s.delivered <+: events script.steps
  complete : status = .ok () → s.delivered = events script.steps ∧ accepts consume first s.delivered = true ∧
    script.status = .ok ()

inductive Phase : Prop
  | working (todo : List WorkerStep) : Working consume script first s todo → Phase
  | handed (ev : StreamEvent) (todo : List WorkerStep) (next : Option StreamEvent) (ok : Bool) :
      Handed consume script first s ev todo next ok → Phase
  | acked (ev : StreamEvent) (todo : List WorkerStep) : Acked consume script first s ev todo → Phase
  | stopped (next : Option StreamEvent) : Stopped script s next → Phase
  | left (status : Status) : Left consume script first s status → Phase

variable {consume script first s}
variable {t : Stream κ} {ev : StreamEvent} {todo : List WorkerStep} {next : Option StreamEvent} {ok : Bool}

theorem InFlight.of_queue (h : s.InFlight next ok) {q : QueuedEvent} {queue : List QueuedEvent}
    (hq : s.queue = q :: queue) :
    ∃ ev, next = some ev ∧ q = queuedEvent ev ∧ queue = [] ∧ s.js = .idle ∧ s.pending = [] ∧ ok = true := by
  cases h with
  | @queued ev hq' hj hp =>
    obtain ⟨rfl, rfl⟩ := List.cons_eq_cons.mp (hq.symm.trans hq')
    exact ⟨ev, rfl, rfl, rfl, hj, hp, rfl⟩
  | emitting hq' _ _ => simp [hq'] at hq
  | attaching hq' _ _ => simp [hq'] at hq
  | pending hq' _ _ => simp [hq'] at hq

theorem InFlight.of_emitting (h : s.InFlight next ok) (hjs : s.js = .emitting ev) :
    next = some ev ∧ ok = true ∧ s.queue = [] ∧ s.pending = [] := by
  cases h with
  | queued _ hj _ => simp [hj] at hjs
  | emitting hq hj hp =>
    rw [hj] at hjs
    cases hjs
    exact ⟨rfl, rfl, hq, hp⟩
  | attaching _ hj _ => simp [hj] at hjs
  | pending _ hj _ => simp [hj] at hjs

theorem InFlight.of_attaching (h : s.InFlight next ok) {accepted : Bool} (hjs : s.js = .attaching accepted) :
    next = none ∧ ok = accepted ∧ s.queue = [] ∧ s.pending = [] := by
  cases h with
  | queued _ hj _ => simp [hj] at hjs
  | emitting _ hj _ => simp [hj] at hjs
  | attaching hq hj hp =>
    rw [hj] at hjs
    cases hjs
    exact ⟨rfl, rfl, hq, hp⟩
  | pending _ hj _ => simp [hj] at hjs

theorem InFlight.of_pending (h : s.InFlight next ok) {promise : ℕ} {accepted : Bool}
    (hpending : s.pending[promise]? = some accepted) :
    next = none ∧ ok = accepted ∧ s.queue = [] ∧ s.js = .idle ∧ s.pending.eraseIdx promise = [] := by
  cases h with
  | queued _ _ hp => simp [hp] at hpending
  | emitting _ _ hp => simp [hp] at hpending
  | attaching _ _ hp => simp [hp] at hpending
  | pending hq hj hp =>
    rw [hp] at hpending ⊢
    rw [List.getElem?_singleton] at hpending
    split_ifs at hpending with hzero
    obtain rfl := Option.some.inj hpending
    subst hzero
    exact ⟨rfl, rfl, hq, hj, rfl⟩

theorem Phase.working_of (h : Phase consume script first s) (todo : List WorkerStep)
    (hworker : remaining script s.worker = some todo) :
    Working consume script first s todo := by
  cases h with
  | working _ h =>
    obtain rfl := Option.some.inj (hworker.symm.trans h.remaining)
    exact h
  | handed _ _ _ _ h => rw [h.worker] at hworker; cases hworker
  | acked _ _ h => rw [h.worker] at hworker; cases hworker
  | stopped _ h => obtain hw | ⟨e, hw⟩ | ⟨hw, -⟩ := h.worker <;> · rw [hw] at hworker; cases hworker
  | left _ h => obtain hw | ⟨hw, -⟩ := h.worker <;> · rw [hw] at hworker; cases hworker

theorem Phase.waiting_of (h : Phase consume script first s) (hworker : s.worker = .waiting ev todo) :
    (∃ next ok, Handed consume script first s ev todo next ok) ∨ Acked consume script first s ev todo := by
  cases h with
  | working _ h =>
    have hr := h.remaining
    rw [hworker] at hr
    cases hr
  | handed _ _ next ok h =>
    have hw := h.worker
    rw [hworker] at hw
    cases hw
    exact .inl ⟨next, ok, h⟩
  | acked _ _ h =>
    have hw := h.worker
    rw [hworker] at hw
    cases hw
    exact .inr h
  | stopped _ h => obtain hw | ⟨e, hw⟩ | ⟨hw, -⟩ := h.worker <;> simp [hworker] at hw
  | left _ h => obtain hw | ⟨hw, -⟩ := h.worker <;> simp [hworker] at hw

theorem Phase.stopped_of (h : Phase consume script first s) (hworker : s.worker = .aborting) :
    ∃ next, Stopped script s next := by
  cases h with
  | working _ h =>
    have hr := h.remaining
    rw [hworker] at hr
    cases hr
  | handed _ _ _ _ h => have hw := h.worker; simp [hworker] at hw
  | acked _ _ h => have hw := h.worker; simp [hworker] at hw
  | stopped _ h => exact ⟨_, h⟩
  | left _ h => obtain hw | ⟨hw, -⟩ := h.worker <;> simp [hworker] at hw

theorem Phase.leaving_of (h : Phase consume script first s) {status : Status} (hworker : s.worker = .leaving status) :
    (∃ next, Stopped script s next ∧ ∃ e, status = .error e) ∨ Left consume script first s status := by
  cases h with
  | working _ h =>
    have hr := h.remaining
    rw [hworker] at hr
    cases hr
  | handed _ _ _ _ h => have hw := h.worker; simp [hworker] at hw
  | acked _ _ h => have hw := h.worker; simp [hworker] at hw
  | stopped _ h =>
    obtain hw | ⟨e, hw⟩ | ⟨hw, -⟩ := h.worker
    · simp [hworker] at hw
    · rw [hworker] at hw
      cases hw
      exact .inl ⟨_, h, e, rfl⟩
    · simp [hworker] at hw
  | left _ h =>
    obtain hw | ⟨hw, -⟩ := h.worker
    · rw [hworker] at hw
      cases hw
      exact .inr h
    · simp [hworker] at hw

/-- What is on its way was handed over, and the worker waits for it or has given up. -/
theorem Phase.busy_of (h : Phase consume script first s) (hbusy : ¬ s.Quiet) :
    ∃ next ok, s.InFlight next ok ∧ ((∃ ev todo, Handed consume script first s ev todo next ok) ∨
      Stopped script s next) := by
  cases h with
  | working _ h => exact absurd h.quiet hbusy
  | handed ev todo next ok h => exact ⟨next, ok, h.inFlight, .inl ⟨ev, todo, h⟩⟩
  | acked _ _ h => exact absurd h.quiet hbusy
  | stopped next h =>
    rcases h.inFlight with ⟨hquiet, -⟩ | ⟨ok, hflight⟩
    · exact absurd hquiet hbusy
    · exact ⟨next, ok, hflight, .inr h⟩
  | left _ h => exact absurd h.quiet hbusy

end Phases

section PhaseMoves

variable {first : κ} {s t : Stream κ} {ev : StreamEvent} {todo : List WorkerStep}
    {next : Option StreamEvent} {ok : Bool}

theorem Quiet.congr (h : s.Quiet) (hqueue : t.queue = s.queue) (hjs : t.js = s.js)
    (hpending : t.pending = s.pending) : t.Quiet :=
  ⟨hqueue.trans h.queue, hjs.trans h.js, hpending.trans h.pending⟩

theorem InFlight.congr (h : s.InFlight next ok) (hqueue : t.queue = s.queue) (hjs : t.js = s.js)
    (hpending : t.pending = s.pending) :
    t.InFlight next ok := by
  cases h with
  | queued hq hj hp => exact .queued (hqueue.trans hq) (hjs.trans hj) (hpending.trans hp)
  | emitting hq hj hp => exact .emitting (hqueue.trans hq) (hjs.trans hj) (hpending.trans hp)
  | attaching hq hj hp => exact .attaching (hqueue.trans hq) (hjs.trans hj) (hpending.trans hp)
  | pending hq hj hp => exact .pending (hqueue.trans hq) (hjs.trans hj) (hpending.trans hp)

theorem Lends.congr (h : s.Lends ev) (hlent : t.lent = s.lent) : t.Lends ev :=
  fun data hdata => hlent.trans (h data hdata)

/-- The phase does not depend on the references, the environment and the promise. -/
theorem Phase.congr (h : Phase consume script first s) (hworker : t.worker = s.worker)
    (hready : t.ackReady = s.ackReady) (haborted : t.aborted = s.aborted) (hstatus : t.status = s.status)
    (hlent : t.lent = s.lent) (hjs : t.js = s.js) (hqueue : t.queue = s.queue)
    (hpending : t.pending = s.pending) (hdelivered : t.delivered = s.delivered) :
    Phase consume script first t := by
  cases h with
  | working _ h =>
    refine .working _ ⟨by rw [hworker, h.remaining], h.quiet.congr hqueue hjs hpending,
      haborted.trans h.aborted, by rw [hdelivered, h.delivered], by rw [hdelivered, h.accepted],
      fun ev todo hw => (h.calling ev todo (hworker ▸ hw)).imp (fun hl => hl.congr hlent) fun hr => hready.trans hr⟩
  | handed _ _ _ _ h =>
    refine .handed _ _ _ _ ⟨hworker.trans h.worker, h.inFlight.congr hqueue hjs hpending, haborted.trans h.aborted,
      hready.trans h.ackReady, h.same,
      h.lends.congr hlent, by rw [hdelivered, h.delivered], by rw [hdelivered]; exact h.accepted⟩
  | acked _ _ h =>
    refine .acked _ _ ⟨hworker.trans h.worker, h.quiet.congr hqueue hjs hpending,
      hready.trans h.ackReady, by rw [hdelivered]; exact h.delivered, ?_⟩
    rw [haborted, hdelivered]
    exact h.accepted
  | stopped _ h =>
    refine .stopped _ ⟨by rw [hworker, hstatus]; exact h.worker, ?_,
      haborted.trans h.aborted, by rw [hdelivered]; exact h.delivered⟩
    exact h.inFlight.imp (fun hq => ⟨hq.1.congr hqueue hjs hpending, hq.2⟩) fun hf => hf.imp fun _ hf =>
      hf.congr hqueue hjs hpending
  | left _ h =>
    refine .left _ ⟨by rw [hworker, hstatus]; exact h.worker, h.quiet.congr hqueue hjs hpending,
      haborted.trans h.aborted,
      by rw [hdelivered]; exact h.delivered, by rw [hdelivered]; exact h.complete⟩

theorem events_cons_emit (ev : StreamEvent) (todo : List WorkerStep) :
    events (.emit ev :: todo) = ev :: events todo := rfl

/-- The worker goes from one step of its script to the next. -/
theorem Working.proceed {todo' : List WorkerStep} (h : Working consume script first s todo)
    (hworker : t.worker = .running todo') (hevents : events todo' = events todo)
    (haborted : t.aborted = s.aborted) (hjs : t.js = s.js) (hqueue : t.queue = s.queue)
    (hpending : t.pending = s.pending) (hdelivered : t.delivered = s.delivered) :
    Phase consume script first t := by
  refine .working todo' ⟨by rw [hworker]; rfl, h.quiet.congr hqueue hjs hpending, haborted.trans h.aborted, ?_,
    ?_, fun ev todo hw => ?_⟩
  · rw [hdelivered, hevents, h.delivered]
  · rw [hdelivered, h.accepted]
  · rw [hworker] at hw
    cases hw

/-- The worker leaves its script before it has handed everything over, or with all of it. -/
theorem Working.depart {status : Status} (h : Working consume script first s todo)
    (hstatus : status = .ok () → events todo = [] ∧ script.status = .ok ()) :
    Phase consume script first (s.depart status) := by
  refine .left status ⟨.inl rfl, h.quiet.congr rfl rfl rfl, h.aborted, ⟨_, h.delivered⟩,
    fun hok => ⟨?_, h.accepted, (hstatus hok).2⟩⟩
  have hall := h.delivered
  rwa [(hstatus hok).1, List.append_nil] at hall

theorem Handed.prefix (h : Handed consume script first s ev todo next ok) :
    s.delivered ++ next.toList <+: events script.steps :=
  ⟨_, h.delivered⟩

/-- The worker gives up. -/
theorem Phase.stop (next : Option StreamEvent)
    (hflight : s.Quiet ∧ next = none ∨ ∃ ok, s.InFlight next ok)
    (hdelivered : s.delivered ++ next.toList <+: events script.steps) (hworker : t.worker = .aborting)
    (haborted : t.aborted = true) (hjs : t.js = s.js) (hqueue : t.queue = s.queue)
    (hpending : t.pending = s.pending) (hsame : t.delivered = s.delivered) :
    Phase consume script first t := by
  refine .stopped next ⟨.inl hworker, ?_, haborted, by rw [hsame]; exact hdelivered⟩
  exact hflight.imp (fun hq => ⟨hq.1.congr hqueue hjs hpending, hq.2⟩) fun hf => hf.imp fun _ hf =>
    hf.congr hqueue hjs hpending

/-- Nothing is on its way any more, and the worker is told to give up. -/
theorem Phase.nack
    (hbusy : (∃ ev todo, Handed consume script first s ev todo next ok) ∨ Stopped script s next)
    (hquiet : t.Quiet) (hworker : t.worker = s.worker) (hstatus : t.status = s.status)
    (haborted : t.aborted = true) (hready : t.ackReady = true)
    (hdelivered : t.delivered <+: s.delivered ++ next.toList) : Phase consume script first t := by
  rcases hbusy with ⟨ev, todo, h⟩ | h
  · refine .acked _ _ ⟨hworker.trans h.worker, hquiet, hready, hdelivered.trans h.prefix, fun hnot => ?_⟩
    rw [haborted] at hnot
    cases hnot
  · refine .stopped none ⟨by rw [hworker, hstatus]; exact h.worker, .inl ⟨hquiet, rfl⟩, haborted, ?_⟩
    rw [Option.toList_none, List.append_nil]
    exact hdelivered.trans h.delivered

/-- What was on its way is acknowledged. -/
theorem Phase.ack
    (hbusy : (∃ ev todo, Handed consume script first s ev todo none true) ∨ Stopped script s none)
    (hquiet : t.Quiet) (hworker : t.worker = s.worker) (hstatus : t.status = s.status)
    (haborted : t.aborted = s.aborted) (hready : t.ackReady = true)
    (hdelivered : t.delivered = s.delivered) : Phase consume script first t := by
  rcases hbusy with ⟨ev, todo, h⟩ | h
  · have hall := h.delivered
    have hpre := h.prefix
    rw [Option.toList_none, List.append_nil] at hall hpre
    refine .acked _ _ ⟨hworker.trans h.worker, hquiet, hready, by rw [hdelivered]; exact hpre, fun _ => ?_⟩
    rw [hdelivered]
    exact ⟨hall, h.accepted rfl⟩
  · refine .stopped none ⟨by rw [hworker, hstatus]; exact h.worker, .inl ⟨hquiet, rfl⟩, haborted.trans h.aborted, ?_⟩
    rw [hdelivered]
    exact h.delivered

/-- What was on its way is at another place. -/
theorem Phase.pass {next' : Option StreamEvent} {ok' : Bool}
    (hbusy : (∃ ev todo, Handed consume script first s ev todo next ok) ∨ Stopped script s next)
    (hflight : t.InFlight next' ok') (hworker : t.worker = s.worker) (hstatus : t.status = s.status)
    (haborted : t.aborted = s.aborted) (hready : t.ackReady = s.ackReady) (hlent : t.lent = s.lent)
    (hnext : ∀ ev ∈ next', ev ∈ next)
    (hdelivered : t.delivered ++ next'.toList = s.delivered ++ next.toList)
    (haccepted : ok' = true → (ok = true → accepts consume first s.delivered = true) →
      accepts consume first t.delivered = true) :
    Phase consume script first t := by
  rcases hbusy with ⟨ev, todo, h⟩ | h
  · refine .handed _ _ _ _ ⟨hworker.trans h.worker, hflight, haborted.trans h.aborted, hready.trans h.ackReady,
      fun ev' hev' => h.same ev' (hnext ev' hev'),
      h.lends.congr hlent, by rw [hdelivered, h.delivered], fun hok => haccepted hok h.accepted⟩
  · exact .stopped _ ⟨by rw [hworker, hstatus]; exact h.worker, .inr ⟨ok', hflight⟩,
      haborted.trans h.aborted, by rw [hdelivered]; exact h.delivered⟩

theorem not_quiet_of_queue {q : QueuedEvent} {queue : List QueuedEvent} (hq : s.queue = q :: queue) : ¬ s.Quiet := by
  intro h
  rw [h.queue] at hq
  cases hq

theorem not_quiet_of_js {pc : JsPc} (hjs : s.js = pc) (hpc : pc ≠ .idle) : ¬ s.Quiet :=
  fun h => hpc (hjs.symm.trans h.js)

theorem Phase.move (h : Phase consume script first s) (hconsumer : s.consumer = consumeAll consume first s.delivered)
    (hmove : Move consume script s t) : Phase consume script first t := by
  cases hmove with
  | refuse hw => exact (h.working_of _ (by rw [hw]; rfl)).depart fun herr => by cases herr
  | start hw => exact (h.working_of _ (by rw [hw]; rfl)).proceed rfl rfl rfl rfl rfl rfl rfl
  | stop hw => exact (h.working_of _ (by rw [hw]; rfl)).depart fun herr => by cases herr
  | @goOn todo hw =>
    have hwork := h.working_of (.checkCancelled :: todo) (by rw [hw]; rfl)
    exact hwork.proceed rfl rfl rfl rfl rfl rfl rfl
  | @beginEmit ev todo hw =>
    have hwork := h.working_of (.emit ev :: todo) (by rw [hw]; rfl)
    cases ev with
    | file name fileSize mtime =>
      exact .working (.emit (.file name fileSize mtime) :: todo)
        ⟨rfl, hwork.quiet.congr rfl rfl rfl, hwork.aborted, hwork.delivered, hwork.accepted,
          fun _ _ hcall => by cases hcall; exact ⟨fun _ hdata => (by cases hdata), rfl⟩⟩
    | chunk data =>
      exact .working (.emit (.chunk data) :: todo)
        ⟨rfl, hwork.quiet.congr rfl rfl rfl, hwork.aborted, hwork.delivered, hwork.accepted,
          fun _ _ hcall => by cases hcall; exact ⟨fun _ hdata => (by cases hdata; rfl), rfl⟩⟩
  | @enqueue ev todo hw =>
    have hwork := h.working_of (.emit ev :: todo) (by rw [hw]; rfl)
    have hqueue : s.queue ++ [queuedEvent ev] = [queuedEvent ev] := by rw [hwork.quiet.queue, List.nil_append]
    obtain ⟨hlends, hready⟩ := hwork.calling ev todo hw
    refine .handed ev todo (some ev) true ⟨rfl, .queued hqueue hwork.quiet.js hwork.quiet.pending,
      hwork.aborted, hready,
      fun ev' hev' => (Option.some.inj hev').symm, hlends.congr rfl, ?_, fun _ => hwork.accepted⟩
    rw [Option.toList_some, List.append_assoc, List.singleton_append, ← events_cons_emit]
    exact hwork.delivered
  | @callFailed ev todo hw =>
    have hwork := h.working_of (.emit ev :: todo) (by rw [hw]; rfl)
    refine Phase.stop none (.inl ⟨hwork.quiet, rfl⟩) ?_ rfl rfl rfl rfl rfl rfl
    rw [Option.toList_none, List.append_nil]
    exact ⟨_, hwork.delivered⟩
  | wakeAborted hw hready haborted =>
    rcases h.waiting_of hw with ⟨next, ok, hh⟩ | ha
    · rw [hh.ackReady] at hready
      cases hready
    · refine Phase.stop none (.inl ⟨ha.quiet, rfl⟩) ?_ rfl haborted rfl rfl rfl rfl
      rw [Option.toList_none, List.append_nil]
      exact ha.delivered
  | @wake ev todo hw hready haborted =>
    rcases h.waiting_of hw with ⟨next, ok, hh⟩ | ha
    · rw [hh.ackReady] at hready
      cases hready
    · obtain ⟨hall, haccepted⟩ := ha.accepted haborted
      exact .working todo ⟨rfl, ha.quiet.congr rfl rfl rfl, haborted, hall, haccepted, fun _ _ hcall => by cases hcall⟩
  | timeOut hw hready =>
    rcases h.waiting_of hw with ⟨next, ok, hh⟩ | ha
    · exact Phase.stop _ (.inr ⟨ok, hh.inFlight⟩) hh.prefix rfl rfl rfl rfl rfl rfl
    · rw [ha.ackReady] at hready
      cases hready
  | abort hw =>
    obtain ⟨next, hs⟩ := h.stopped_of hw
    exact .stopped _ ⟨.inr (.inl ⟨_, rfl⟩), hs.inFlight.imp (fun hq => ⟨hq.1.congr rfl rfl rfl, hq.2⟩) fun hf =>
      hf.imp fun _ hf => hf.congr rfl rfl rfl,
      hs.aborted, hs.delivered⟩
  | finish hw => exact (h.working_of [] (by rw [hw]; rfl)).depart fun hok => ⟨rfl, hok⟩
  | @leave status hw =>
    rcases h.leaving_of hw with ⟨next, hs, e, rfl⟩ | hl
    · exact .stopped _ ⟨.inr (.inr ⟨rfl, e, rfl⟩), hs.inFlight.imp (fun hq => ⟨hq.1.congr rfl rfl rfl, hq.2⟩)
        fun hf => hf.imp fun _ hf => hf.congr rfl rfl rfl,
        hs.aborted, hs.delivered⟩
    · exact .left _ ⟨.inr ⟨rfl, rfl⟩, hl.quiet.congr rfl rfl rfl, hl.aborted, hl.delivered, hl.complete⟩
  | takeFailed hjs hq =>
    obtain ⟨next, ok, hflight, hbusy⟩ := h.busy_of (not_quiet_of_queue hq)
    obtain ⟨ev, rfl, rfl, rfl, -, hpending, rfl⟩ := hflight.of_queue hq
    exact Phase.nack hbusy ⟨rfl, hjs, hpending⟩ rfl rfl rfl rfl (List.prefix_append _ _)
  | takeFile hjs hq =>
    obtain ⟨next, ok, hflight, hbusy⟩ := h.busy_of (not_quiet_of_queue hq)
    obtain ⟨ev, rfl, hev, rfl, -, hpending, rfl⟩ := hflight.of_queue hq
    cases ev with
    | chunk data => cases hev
    | file name fileSize mtime =>
      cases hev
      exact Phase.pass hbusy (.emitting rfl rfl hpending) rfl rfl rfl rfl rfl (fun _ hev => hev) rfl
        fun hok hold => hold hok
  | drop hjs hq haborted =>
    obtain ⟨next, ok, hflight, hbusy⟩ := h.busy_of (not_quiet_of_queue hq)
    obtain ⟨ev, rfl, hev, rfl, -, hpending, rfl⟩ := hflight.of_queue hq
    rcases hbusy with ⟨ev, todo, hh⟩ | hs
    · rw [hh.aborted] at haborted
      cases haborted
    · refine .stopped none ⟨hs.worker, .inl ⟨⟨rfl, hjs, hpending⟩, rfl⟩, haborted, ?_⟩
      exact (List.prefix_append_right_inj _ |>.mpr (List.nil_prefix)).trans hs.delivered
  | copyFailed hjs hq haborted =>
    obtain ⟨next, ok, hflight, hbusy⟩ := h.busy_of (not_quiet_of_queue hq)
    obtain ⟨ev, rfl, hev, rfl, -, hpending, rfl⟩ := hflight.of_queue hq
    exact Phase.nack hbusy ⟨rfl, hjs, hpending⟩ rfl rfl rfl rfl (List.prefix_append _ _)
  | @takeChunk size queue hjs hq haborted =>
    obtain ⟨next, ok, hflight, hbusy⟩ := h.busy_of (not_quiet_of_queue hq)
    obtain ⟨ev, rfl, hev, rfl, -, hpending, rfl⟩ := hflight.of_queue hq
    have hcopied : JsPc.emitting (.chunk ((s.lent.getD []).take size)) = .emitting ev := by
      rcases hbusy with ⟨ev', todo, hh⟩ | hs
      · obtain rfl := hh.same ev rfl
        cases ev with
        | file name fileSize mtime => cases hev
        | chunk data =>
          cases hev
          rw [hh.lends data rfl, Option.getD_some, List.take_length]
      · rw [hs.aborted] at haborted
        cases haborted
    exact Phase.pass hbusy (.emitting rfl hcopied hpending) rfl rfl rfl rfl rfl (fun _ hev => hev) rfl
      fun hok hold => hold hok
  | @callEmit ev threw hjs =>
    obtain ⟨next, ok, hflight, hbusy⟩ := h.busy_of (not_quiet_of_js hjs (by simp))
    obtain ⟨rfl, rfl, hqueue, hpending⟩ := hflight.of_emitting hjs
    cases threw with
    | true => exact Phase.nack hbusy ⟨hqueue, rfl, hpending⟩ rfl rfl rfl rfl (List.prefix_refl _)
    | false =>
      refine Phase.pass hbusy (.attaching hqueue rfl hpending) rfl rfl rfl rfl rfl
        (fun _ hev => by cases hev) ?_ fun hok hold => ?_
      · exact List.append_nil _
      · have hfirst : accepts consume first s.delivered = true := hold rfl
        change accepts consume first (s.delivered ++ [ev]) = true
        rw [accepts_snoc, hfirst, ← hconsumer, hok, Bool.and_self]
  | @attach accepted result hjs =>
    obtain ⟨next, ok, hflight, hbusy⟩ := h.busy_of (not_quiet_of_js hjs (by simp))
    obtain ⟨rfl, rfl, hqueue, hpending⟩ := hflight.of_attaching hjs
    cases result with
    | noThen => exact Phase.nack hbusy ⟨hqueue, rfl, hpending⟩ rfl rfl rfl rfl (List.prefix_append _ _)
    | threw => exact Phase.nack hbusy ⟨hqueue, rfl, hpending⟩ rfl rfl rfl rfl (List.prefix_append _ _)
    | attached =>
      have hone : s.pending ++ [ok] = [ok] := by rw [hpending, List.nil_append]
      exact Phase.pass hbusy (.pending hqueue rfl hone) rfl rfl rfl rfl rfl (fun _ hev => hev) rfl
        fun hok hold => hold hok
  | @acknowledge promise accepted ok' message hjs hp hok =>
    have hnot : ¬ s.Quiet := fun hquiet => by rw [hquiet.pending] at hp; cases hp
    obtain ⟨next, ok, hflight, hbusy⟩ := h.busy_of hnot
    obtain ⟨rfl, rfl, hqueue, -, hgone⟩ := hflight.of_pending hp
    cases ok' with
    | false => exact Phase.nack hbusy ⟨hqueue, hjs, hgone⟩ rfl rfl rfl rfl (List.prefix_append _ _)
    | true =>
      obtain rfl := hok rfl
      exact Phase.ack hbusy ⟨hqueue, hjs, hgone⟩ rfl rfl rfl rfl rfl
  | complete hjs hw hincomplete => exact h.congr rfl rfl rfl rfl rfl rfl rfl rfl rfl
  | finalize hjs htsfn hq => exact h.congr rfl rfl rfl rfl rfl rfl rfl rfl rfl

end PhaseMoves

end Stream
end BackupStream
end RocksdbJs
