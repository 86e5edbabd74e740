import RocksdbJs.Sanity.StreamHandshake

/-! Whatever the two threads of a streamed backup do, in any order, and whenever the database
closes: the state they share is not touched after it is deleted, the events arrive once and in their
order, and no thread waits for ever. -/

namespace RocksdbJs
namespace BackupStream
namespace Stream

variable {κ : Type} {consume : κ → StreamEvent → Bool × κ} {script : Script} {first : κ} {s t : Stream κ}
    {as : List StreamAction}

/-- What holds in every run. -/
structure Sound (consume : κ → StreamEvent → Bool × κ) (script : Script) (first : κ) (s : Stream κ) : Prop where
  counted : s.Counted
  phase : Phase consume script first s
  consumer : s.consumer = consumeAll consume first s.delivered
  faulted : s.faulted = false
  settled : s.settled = if s.completed then [settlement s.status] else []
  claimed : s.worker ≠ .returned → s.operationsInFlight = 1
  unclaimed : s.worker = .returned → s.operationsInFlight = 0

theorem touch_faulted (hfault : s.faulted = false) (halive : s.deletions = 0) : s.touch.faulted = false := by
  change (s.faulted || decide (0 < s.deletions)) = false
  rw [hfault, halive]
  rfl

/-- A chunk is copied only while the worker keeps its memory. -/
theorem Phase.lends (h : Phase consume script first s) {size : ℕ} {queue : List QueuedEvent}
    (hq : s.queue = .chunk size :: queue) (haborted : s.aborted = false) : s.lent.isNone = false := by
  obtain ⟨next, ok, hflight, hbusy⟩ := h.busy_of (not_quiet_of_queue hq)
  obtain ⟨ev, rfl, hev, -⟩ := hflight.of_queue hq
  rcases hbusy with ⟨ev', todo, hh⟩ | hs
  · obtain rfl := hh.same ev rfl
    cases ev with
    | file name fileSize mtime => cases hev
    | chunk data =>
      rw [hh.lends data rfl]
      rfl
  · rw [hs.aborted] at haborted
    cases haborted

theorem Sound.faultless (h : Sound consume script first s) (hmove : Move consume script s t) : t.faulted = false := by
  have hworker (hne : s.worker ≠ .returned) : s.touch.faulted = false :=
    touch_faulted h.faulted (h.counted.alive (h.counted.worker_holds hne))
  have htsfn (hlive : s.tsfn ≠ .finalized) : s.deletions = 0 := h.counted.alive (tsfn_holds hlive)
  have hqueue {q : QueuedEvent} {queue : List QueuedEvent} (hq : s.queue = q :: queue) : s.touch.faulted = false :=
    touch_faulted h.faulted (htsfn (h.counted.not_finalized_of_queue (hq ▸ List.cons_ne_nil _ _)))
  have hjs {pc : JsPc} (hpc : s.js = pc) (hne : pc ≠ .idle) : s.deletions = 0 :=
    htsfn (h.counted.not_finalized_of_js (hpc ▸ hne))
  cases hmove with
  | refuse hw => exact hworker (by simp [hw])
  | start hw => exact hworker (by simp [hw])
  | stop hw => exact hworker (by simp [hw])
  | goOn hw => exact hworker (by simp [hw])
  | @beginEmit ev _ hw => cases ev <;> exact hworker (by simp [hw])
  | enqueue hw => exact hworker (by simp [hw])
  | callFailed hw => exact hworker (by simp [hw])
  | wakeAborted hw => exact hworker (by simp [hw])
  | wake hw => exact hworker (by simp [hw])
  | timeOut hw => exact hworker (by simp [hw])
  | abort hw => exact hworker (by simp [hw])
  | finish hw => exact hworker (by simp [hw])
  | leave hw => exact hworker (by simp [hw])
  | takeFailed _ hq => exact hqueue hq
  | takeFile _ _ => exact h.faulted
  | drop _ hq _ => exact hqueue hq
  | @copyFailed size queue _ hq haborted =>
    have hlent := h.phase.lends hq haborted
    have halive := htsfn (h.counted.not_finalized_of_queue (hq ▸ List.cons_ne_nil _ _))
    simp [signalAck, touch, h.faulted, halive, hlent]
  | @takeChunk size queue _ hq haborted =>
    have hlent := h.phase.lends hq haborted
    have halive := htsfn (h.counted.not_finalized_of_queue (hq ▸ List.cons_ne_nil _ _))
    simp [touch, h.faulted, halive, hlent]
  | @callEmit _ threw hpc =>
    have halive := hjs hpc (by simp)
    cases threw <;> simp [callEmit, signalAck, touch, h.faulted, halive]
  | @attach _ result hpc =>
    have halive := hjs hpc (by simp)
    cases result <;> simp [attach, acquire, release, signalAck, touch, h.faulted, halive]
  | @acknowledge promise _ ok message _ hp _ =>
    have halive := h.counted.alive (pending_holds hp)
    cases ok <;> simp [acknowledge, release, signalAck, touch, h.faulted, halive]
  | complete _ _ hincomplete =>
    have halive := h.counted.alive (holders_pos_iff.mpr (.inl hincomplete))
    simp [complete, release, touch, h.faulted, halive]
  | finalize _ hreleased _ =>
    have halive := htsfn (by rw [hreleased]; simp)
    simp [release, touch, h.faulted, halive]

theorem Sound.settled_move (h : Sound consume script first s) (hmove : Move consume script s t) :
    t.settled = if t.completed then [settlement t.status] else [] := by
  cases hmove with
  | @beginEmit ev _ _ => cases ev <;> exact h.settled
  | @leave status hw =>
    have hincomplete := h.counted.incomplete (by simp [hw])
    change s.settled = if s.completed then [settlement status] else []
    rw [h.settled, hincomplete]
    rfl
  | @callEmit _ threw _ => cases threw <;> exact h.settled
  | @attach _ result _ => cases result <;> exact h.settled
  | @acknowledge _ _ ok _ _ _ _ => cases ok <;> exact h.settled
  | complete _ _ hincomplete =>
    change s.settled ++ [settlement s.status] = [settlement s.status]
    rw [h.settled, hincomplete]
    rfl
  | _ => exact h.settled

theorem Sound.consumer_move (h : Sound consume script first s) (hmove : Move consume script s t) :
    t.consumer = consumeAll consume first t.delivered := by
  cases hmove with
  | @beginEmit ev _ _ => cases ev <;> exact h.consumer
  | @callEmit ev threw _ =>
    have hnext : (consume s.consumer ev).2 = consumeAll consume first (s.delivered ++ [ev]) := by
      rw [consumeAll_snoc, h.consumer]
    cases threw <;> exact hnext
  | @attach _ result _ => cases result <;> exact h.consumer
  | @acknowledge _ _ ok _ _ _ _ => cases ok <;> exact h.consumer
  | _ => exact h.consumer

/-- The claim on the database is dropped with the return of the worker. -/
theorem Sound.claim_move (h : Sound consume script first s) (hmove : Move consume script s t) :
    (t.worker ≠ .returned → t.operationsInFlight = 1) ∧ (t.worker = .returned → t.operationsInFlight = 0) := by
  have hgoesOn (hw : s.worker ≠ .returned) (hsame : t.operationsInFlight = s.operationsInFlight)
    (hw' : t.worker ≠ .returned) :
      (t.worker ≠ .returned → t.operationsInFlight = 1) ∧ (t.worker = .returned → t.operationsInFlight = 0) :=
    ⟨fun _ => hsame.trans (h.claimed hw), fun heq => absurd heq hw'⟩
  cases hmove with
  | refuse hw => exact hgoesOn (by simp [hw]) rfl (by simp [depart])
  | start hw => exact hgoesOn (by simp [hw]) rfl (by simp)
  | stop hw => exact hgoesOn (by simp [hw]) rfl (by simp [depart])
  | goOn hw => exact hgoesOn (by simp [hw]) rfl (by simp)
  | @beginEmit ev _ hw => cases ev <;> exact hgoesOn (by simp [hw]) rfl (by simp [lend])
  | enqueue hw => exact hgoesOn (by simp [hw]) rfl (by simp)
  | callFailed hw => exact hgoesOn (by simp [hw]) rfl (by simp [abortWith])
  | wakeAborted hw => exact hgoesOn (by simp [hw]) rfl (by simp)
  | wake hw => exact hgoesOn (by simp [hw]) rfl (by simp)
  | timeOut hw => exact hgoesOn (by simp [hw]) rfl (by simp [abortWith])
  | abort hw => exact hgoesOn (by simp [hw]) rfl (by simp [depart])
  | finish hw => exact hgoesOn (by simp [hw]) rfl (by simp [depart])
  | leave hw =>
    refine ⟨fun hne => absurd rfl hne, fun _ => ?_⟩
    change s.operationsInFlight - 1 = 0
    rw [h.claimed (by simp [hw])]
  | @callEmit _ threw _ => cases threw <;> exact ⟨h.claimed, h.unclaimed⟩
  | @attach _ result _ => cases result <;> exact ⟨h.claimed, h.unclaimed⟩
  | @acknowledge _ _ ok _ _ _ _ => cases ok <;> exact ⟨h.claimed, h.unclaimed⟩
  | _ => exact ⟨h.claimed, h.unclaimed⟩

theorem Sound.move (h : Sound consume script first s) (hmove : Move consume script s t) :
    Sound consume script first t :=
  ⟨h.counted.move hmove, h.phase.move h.consumer hmove, h.consumer_move hmove, h.faultless hmove, h.settled_move hmove,
    (h.claim_move hmove).1, (h.claim_move hmove).2⟩

theorem Sound.next (h : Sound consume script first s) {a : StreamAction} (hstep : s.step consume script a = some t) :
    Sound consume script first t := by
  rcases step_move hstep with ⟨-, hmove⟩ | ⟨-, rfl | rfl⟩
  · exact h.move hmove
  -- the environment sets its flags only
  all_goals
    exact ⟨⟨h.counted.count, h.counted.deletions, h.counted.live, h.counted.returned, h.counted.finalized⟩,
      h.phase.congr rfl rfl rfl rfl rfl rfl rfl rfl rfl, h.consumer, h.faulted, h.settled, h.claimed, h.unclaimed⟩

theorem sound_initial (consume : κ → StreamEvent → Bool × κ) (script : Script) (first : κ) :
    Sound consume script first { consumer := first } := by
  refine ⟨⟨by simp [holders], by simp, by simp, by simp, by simp⟩, ?_, rfl, rfl, rfl, fun _ => rfl,
    fun hw => by cases hw⟩
  exact .working script.steps ⟨rfl, ⟨rfl, rfl, rfl⟩, rfl, rfl, rfl, fun _ _ hw => by cases hw⟩

theorem run_sound (hrun : Runs.exec (step consume script) { consumer := first } as = some t) :
    Sound consume script first t :=
  Runs.exec_preserves (fun _ _ _ h hstep => h.next hstep) (sound_initial consume script first) hrun

/-- Nothing can happen any more but for the environment. -/
structure Over (s : Stream κ) : Prop where
  worker : s.worker = .returned
  quiet : s.Quiet
  completed : s.completed = true
  finalized : s.tsfn = .finalized

theorem Counted.deleted_of_over (h : s.Counted) (hover : s.Over) : s.deletions = 1 := by
  have hnone : s.refCount = 0 := by
    rw [h.count, holders, hover.completed, hover.finalized, hover.quiet.pending]
    rfl
  rw [h.deletions, if_pos hnone]

/-- The state is deleted only when nothing will touch it. -/
theorem Sound.over_of_deleted (h : Sound consume script first s) (hdeleted : 0 < s.deletions) : s.Over := by
  have hnone : ¬ 0 < s.holders := fun hpos => by
    rw [h.counted.alive hpos] at hdeleted
    exact absurd hdeleted (Nat.lt_irrefl 0)
  rw [holders_pos_iff, not_or, not_or, not_not, not_not, Bool.not_eq_false] at hnone
  obtain ⟨hcompleted, hfinal, hpending⟩ := hnone
  obtain ⟨hqueue, hjs⟩ := h.counted.finalized hfinal
  exact ⟨h.counted.returned hcompleted, ⟨hqueue, hjs, hpending⟩, hcompleted, hfinal⟩

/-- In every run the shared state is deleted at most once, and only when no thread will touch it
again; and the bytes of a chunk are never read after the worker has let go of them. -/
theorem stream_memory_safe (hrun : Runs.exec (step consume script) { consumer := first } as = some t) :
    t.faulted = false ∧ t.deletions ≤ 1 ∧ (0 < t.deletions → t.Over) :=
  ⟨(run_sound hrun).faulted, (run_sound hrun).counted.deletions_le, (run_sound hrun).over_of_deleted⟩

/-- A consumer that counts what it takes. -/
def counting (n : ℕ) (_ : StreamEvent) : Bool × ℕ := (true, n + 1)

def oneFile : Script := ⟨[.checkCancelled, .emit (.file "CURRENT" 1 0), .emit (.chunk [7])], .ok ()⟩

/-- An event is handed over, taken and its promise attached. -/
def handOver : List StreamAction := [.beginEmit, .callTsfn true, .trampoline .built, .callEmit false, .attach .attached]

/-- The database closes while the promise of the chunk is pending, which is fulfilled after the work is complete. -/
def abandoned : List StreamAction :=
  [.start, .checkCancelled] ++ handOver ++ [.resolve 0, .wake] ++ handOver ++ [.close, .timeOut, .abort, .leave,
    .complete, .finalize, .resolve 0]

theorem stream_memory_safe_abandoned :
    (Runs.final (step counting oneFile) { consumer := 0 } abandoned).faulted = false ∧
      (Runs.final (step counting oneFile) { consumer := 0 } abandoned).deletions = 1 ∧
      (Runs.final (step counting oneFile) { consumer := 0 } abandoned).Over := by
  have hrun : Runs.exec (step counting oneFile) { consumer := 0 } abandoned =
      some (Runs.final (step counting oneFile) { consumer := 0 } abandoned) :=
    Runs.exec_final _ _ _ rfl
  have hdeleted : (Runs.final (step counting oneFile) { consumer := 0 } abandoned).deletions = 1 := rfl
  obtain ⟨hfault, -, hover⟩ := stream_memory_safe hrun
  exact ⟨hfault, hdeleted, hover (by rw [hdeleted]; exact Nat.one_pos)⟩

section Order

theorem Phase.single (h : Phase consume script first s) : s.Quiet ∨ ∃ next ok, s.InFlight next ok := by
  cases h with
  | working _ h => exact .inl h.quiet
  | handed _ _ _ _ h => exact .inr ⟨_, _, h.inFlight⟩
  | acked _ _ h => exact .inl h.quiet
  | stopped _ h =>
    rcases h.inFlight with ⟨hquiet, -⟩ | ⟨ok, hflight⟩
    · exact .inl hquiet
    · exact .inr ⟨_, ok, hflight⟩
  | left _ h => exact .inl h.quiet

theorem Phase.delivered (h : Phase consume script first s) : s.delivered <+: events script.steps := by
  cases h with
  | working _ h => exact ⟨_, h.delivered⟩
  | handed _ _ _ _ h => exact (List.prefix_append _ _).trans h.prefix
  | acked _ _ h => exact h.delivered
  | stopped _ h => exact (List.prefix_append _ _).trans h.delivered
  | left _ h => exact h.delivered

theorem Sound.resolved (h : Sound consume script first s) (hresolved : .resolved ∈ s.settled) :
    s.delivered = events script.steps ∧ accepts consume first s.delivered = true ∧ script.status = .ok () := by
  rw [h.settled] at hresolved
  split_ifs at hresolved with hcompleted
  · have hworker := h.counted.returned hcompleted
    have hstatus : s.status = .ok () := by
      cases hs : s.status with
      | ok u => rfl
      | error e =>
        rw [hs, List.mem_singleton] at hresolved
        cases hresolved
    cases h.phase with
    | working _ hp =>
      have hr := hp.remaining
      rw [hworker] at hr
      cases hr
    | handed _ _ _ _ hp => have hw := hp.worker; simp [hworker] at hw
    | acked _ _ hp => have hw := hp.worker; simp [hworker] at hw
    | stopped _ hp =>
      obtain hw | ⟨e, hw⟩ | ⟨-, e, he⟩ := hp.worker
      · simp [hworker] at hw
      · simp [hworker] at hw
      · rw [hstatus] at he
        cases he
    | left _ hp =>
      obtain hw | ⟨-, hs⟩ := hp.worker
      · simp [hworker] at hw
      · exact hp.complete (hs.symm.trans hstatus)
  · cases hresolved

/-- In every run at most one event is on its way, `emit` is called with the events of the script in
their order and with each at most once, and with all of them, each of which it takes, before the
promise is resolved. -/
theorem stream_in_order (hrun : Runs.exec (step consume script) { consumer := first } as = some t) :
    (t.Quiet ∨ ∃ next ok, t.InFlight next ok) ∧ t.delivered <+: events script.steps ∧
      t.consumer = consumeAll consume first t.delivered ∧
      (.resolved ∈ t.settled → t.delivered = events script.steps ∧ accepts consume first t.delivered = true ∧
        script.status = .ok ()) :=
  ⟨(run_sound hrun).phase.single, (run_sound hrun).phase.delivered, (run_sound hrun).consumer,
    (run_sound hrun).resolved⟩

/-- Both events are acknowledged. -/
def acknowledged : List StreamAction :=
  [.start, .checkCancelled] ++ handOver ++ [.resolve 0, .wake] ++ handOver ++
    [.resolve 0, .wake, .finish, .leave, .complete]

theorem stream_in_order_acknowledged :
    (Runs.final (step counting oneFile) { consumer := 0 } acknowledged).delivered = [.file "CURRENT" 1 0, .chunk [7]] ∧
      (Runs.final (step counting oneFile) { consumer := 0 } acknowledged).consumer = 2 := by
  have hrun : Runs.exec (step counting oneFile) { consumer := 0 } acknowledged =
      some (Runs.final (step counting oneFile) { consumer := 0 } acknowledged) := Runs.exec_final _ _ _ rfl
  have hsettled : (Runs.final (step counting oneFile) { consumer := 0 } acknowledged).settled = [.resolved] := rfl
  obtain ⟨-, -, hconsumer, hall⟩ := stream_in_order hrun
  have hdelivered := (hall (by rw [hsettled]; exact List.mem_singleton.mpr rfl)).1
  exact ⟨hdelivered, by rw [hconsumer, hdelivered]; rfl⟩

end Order

section Progress

def workerEffort (script : Script) : WorkerPc → ℕ
  | .queued => 10 * script.steps.length + 6
  | .running todo => 10 * todo.length + 5
  | .calling _ todo => 10 * todo.length + 14
  | .waiting _ todo => 10 * todo.length + 8
  | .aborting => 4
  | .leaving _ => 3
  | .returned => 0

def jsEffort : JsPc → ℕ
  | .idle => 0
  | .emitting _ => 3
  | .attaching _ => 2

def tsfnEffort : TsfnPhase → ℕ
  | .live => 2
  | .released => 1
  | .finalized => 0

/-- What is left to do for the two threads. -/
def effort (script : Script) (s : Stream κ) : ℕ :=
  workerEffort script s.worker + 4 * s.queue.length + jsEffort s.js + s.pending.length + (if s.completed then 0
    else 2) + tsfnEffort s.tsfn

theorem Counted.effort_lt (h : s.Counted) (hmove : Move consume script s t) : effort script t < effort script s := by
  cases hmove with
  | refuse hw => simp [effort, depart, touch, workerEffort, hw]
  | start hw => simp [effort, touch, workerEffort, hw]
  | stop hw => simp [effort, depart, touch, workerEffort, hw]
  | goOn hw => simp [effort, touch, workerEffort, hw]
  | @beginEmit ev _ hw => cases ev <;> simp [effort, lend, touch, workerEffort, hw] <;> omega
  | enqueue hw => simp [effort, touch, workerEffort, hw]; omega
  | callFailed hw => simp [effort, abortWith, touch, workerEffort, hw]
  | wakeAborted hw => simp [effort, touch, workerEffort, hw]
  | wake hw => simp [effort, touch, workerEffort, hw]
  | timeOut hw => simp [effort, abortWith, touch, workerEffort, hw]
  | abort hw => simp [effort, depart, touch, workerEffort, hw]
  | finish hw => simp [effort, depart, touch, workerEffort, hw]
  | leave hw => simp [effort, leave, touch, workerEffort, hw]
  | takeFailed hjs hq => simp [effort, signalAck, touch, jsEffort, hjs, hq]
  | takeFile hjs hq => simp [effort, jsEffort, hjs, hq]; omega
  | drop hjs hq => simp [effort, touch, jsEffort, hjs, hq]
  | copyFailed hjs hq => simp [effort, signalAck, touch, jsEffort, hjs, hq]
  | takeChunk hjs hq => simp [effort, touch, jsEffort, hjs, hq]; omega
  | @callEmit _ threw hjs => cases threw <;> simp [effort, callEmit, signalAck, touch, jsEffort, hjs]
  | @attach _ result hjs =>
    cases result <;> simp [effort, attach, acquire, release, signalAck, touch, jsEffort, hjs]; omega
  | @acknowledge promise _ ok _ hjs hp _ =>
    have hlength : (s.pending.eraseIdx promise).length + 1 = s.pending.length :=
      List.length_eraseIdx_add_one (List.getElem?_eq_some_iff.mp hp).1
    cases ok <;> simp [effort, acknowledge, release, signalAck, touch] <;> omega
  | complete hjs hw hincomplete =>
    have hlive := h.live.mp hincomplete
    simp [effort, complete, release, touch, tsfnEffort, hincomplete, hlive]
  | finalize hjs hreleased hq => simp [effort, release, touch, tsfnEffort, hreleased]

/-- A thread can go on. -/
def Enabled (consume : κ → StreamEvent → Bool × κ) (script : Script) (s : Stream κ) : Prop :=
  ∃ a, environment a = false ∧ (s.step consume script a).isSome = true

variable {next : Option StreamEvent} {ok : Bool}

theorem InFlight.enabled (h : s.InFlight next ok) : Enabled consume script s := by
  cases h with
  | queued hq hj _ => exact ⟨.trampoline .built, rfl, by simp [step, workerStep, jsStep, hq, hj]⟩
  | emitting _ hj _ => exact ⟨.callEmit false, rfl, by simp [step, workerStep, jsStep, hj]⟩
  | attaching _ hj _ => exact ⟨.attach .attached, rfl, by simp [step, workerStep, jsStep, hj]⟩
  | pending _ hj hp => exact ⟨.reject 0 "", rfl, by simp [step, workerStep, jsStep, hj, hp]⟩

theorem Counted.enabled_or_over (h : s.Counted) (hworker : s.worker = .returned) (hquiet : s.Quiet) :
    Enabled consume script s ∨ s.Over := by
  cases hcompleted : s.completed with
  | false => exact .inl ⟨.complete, rfl, by simp [step, workerStep, jsStep, hquiet.js, hworker, hcompleted]⟩
  | true =>
    cases htsfn : s.tsfn with
    | live =>
      rw [h.live.mpr htsfn] at hcompleted
      cases hcompleted
    | released => exact .inl ⟨.finalize, rfl, by simp [step, workerStep, jsStep, hquiet.js, hquiet.queue, htsfn]⟩
    | finalized => exact .inr ⟨hworker, hquiet, hcompleted, htsfn⟩

theorem Working.enabled {todo : List WorkerStep} (h : Working consume script first s todo) :
    Enabled consume script s := by
  cases hw : s.worker with
  | queued => exact ⟨.start, rfl, by simp only [step, workerStep, hw]; split_ifs <;> rfl⟩
  | running todo =>
    rcases todo with _ | ⟨_ | ev, todo⟩
    · exact ⟨.finish, rfl, by simp [step, workerStep, hw]⟩
    · exact ⟨.checkCancelled, rfl, by simp only [step, workerStep, hw]; split_ifs <;> rfl⟩
    · exact ⟨.beginEmit, rfl, by simp [step, workerStep, hw]⟩
  | calling ev todo => exact ⟨.callTsfn true, rfl, by simp [step, workerStep, hw]⟩
  | _ =>
    have hr := h.remaining
    rw [hw] at hr
    cases hr

theorem Acked.enabled {ev : StreamEvent} {todo : List WorkerStep}
    (h : Acked consume script first s ev todo) : Enabled consume script s := by
  refine ⟨.wake, rfl, ?_⟩
  cases haborted : s.aborted <;> simp [step, workerStep, h.worker, h.ackReady, haborted]

theorem Sound.enabled_or_over (h : Sound consume script first s) : Enabled consume script s ∨ s.Over := by
  cases h.phase with
  | working _ hp => exact .inl hp.enabled
  | handed _ _ _ _ hp => exact .inl hp.inFlight.enabled
  | acked _ _ hp => exact .inl hp.enabled
  | stopped _ hp =>
    obtain hw | ⟨e, hw⟩ | ⟨hw, -⟩ := hp.worker
    · exact .inl ⟨.abort, rfl, by simp [step, workerStep, hw]⟩
    · exact .inl ⟨.leave, rfl, by simp [step, workerStep, hw]⟩
    · rcases hp.inFlight with ⟨hquiet, -⟩ | ⟨ok, hflight⟩
      · exact h.counted.enabled_or_over hw hquiet
      · exact .inl hflight.enabled
  | left _ hp =>
    obtain hw | ⟨hw, -⟩ := hp.worker
    · exact .inl ⟨.leave, rfl, by simp [step, workerStep, hw]⟩
    · exact h.counted.enabled_or_over hw hp.quiet

/-- The steps of the threads in a run. -/
def threadSteps (as : List StreamAction) : ℕ := as.countP fun a => !environment a

theorem Sound.effort_run (h : Sound consume script first s) (hrun : Runs.exec (step consume script) s as = some t) :
    threadSteps as + effort script t ≤ effort script s := by
  induction as generalizing s with
  | nil =>
    obtain rfl : s = t := by simpa [Runs.exec] using hrun
    simp [threadSteps]
  | cons a as ih =>
    obtain ⟨u, hu, hut⟩ := Runs.exec_cons.mp hrun
    have hrest := ih (h.next hu) hut
    rw [threadSteps] at hrest ⊢
    rw [List.countP_cons]
    rcases step_move hu with ⟨ha, hmove⟩ | ⟨ha, hu | hu⟩
    · have hless := h.counted.effort_lt hmove
      simp only [ha, Bool.not_false, if_true]
      omega
    all_goals
      have hsame : effort script u = effort script s := by rw [hu]; rfl
      simp only [ha, Bool.not_true, Bool.false_eq_true, if_false]
      omega

/-- In every run the worker that waits is woken or is owed its acknowledgement; the threads make a
bounded number of steps; and once none of them can go on the state is deleted, the promise is
settled once and the claim on the database is dropped. -/
theorem stream_ends (hrun : Runs.exec (step consume script) { consumer := first } as = some t) :
    (∀ ev todo, t.worker = .waiting ev todo → t.ackReady = true ∨ ∃ next ok, t.InFlight next ok) ∧
      threadSteps as ≤ 10 * script.steps.length + 10 ∧
      ((∀ a, environment a = false → t.step consume script a = none) →
        t.deletions = 1 ∧ t.settled = [settlement t.status] ∧ t.operationsInFlight = 0) := by
  have h := run_sound hrun
  refine ⟨fun ev todo hw => ?_, ?_, fun hstuck => ?_⟩
  · rcases h.phase.waiting_of hw with ⟨next, ok, hh⟩ | ha
    · exact .inr ⟨next, ok, hh.inFlight⟩
    · exact .inl ha.ackReady
  · have hle := (sound_initial consume script first).effort_run hrun
    have hfirst : effort script ({ consumer := first } : Stream κ) = 10 * script.steps.length + 10 := rfl
    omega
  · rcases h.enabled_or_over with ⟨a, ha, hsome⟩ | hover
    · rw [hstuck a ha] at hsome
      cases hsome
    · refine ⟨h.counted.deleted_of_over hover, ?_, h.unclaimed hover.worker⟩
      rw [h.settled, hover.completed]
      rfl

theorem stream_ends_abandoned :
    threadSteps abandoned ≤ 40 ∧ (Runs.final (step counting oneFile) { consumer := 0 } abandoned).settled =
      [.rejected (.aborted "Database closing during backup stream operation")] := by
  have hrun : Runs.exec (step counting oneFile) { consumer := 0 } abandoned =
      some (Runs.final (step counting oneFile) { consumer := 0 } abandoned) :=
    Runs.exec_final _ _ _ rfl
  have hstuck : ∀ a, environment a = false → (Runs.final (step counting oneFile) { consumer := 0 } abandoned).step
      counting oneFile a = none := by
    intro a ha
    cases a <;> first | rfl | cases ha
  obtain ⟨-, hsteps, hend⟩ := stream_ends hrun
  exact ⟨hsteps, (hend hstuck).2.1⟩

end Progress

end Stream
end BackupStream
end RocksdbJs
