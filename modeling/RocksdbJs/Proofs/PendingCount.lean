import RocksdbJs.Lib.Runs
import RocksdbJs.Sanity.Sessions

/-! When `pendingTransactionCount` is the number of live transactions that are bound and have not
written. `writeBatch` takes its position before it can fail, and `close` reads a position as a
batch that was written and leaves the count alone. So the count is exact until a
transaction is closed after a `writeBatch` of its own took a position and threw, and it is one
too high from then on. -/

namespace RocksdbJs

open TransactionLogStore

namespace Session

/-- The count is the number of live transactions bound to the store without a written batch. -/
def CountExact (y : Session) : Prop :=
  y.world.store.pendingTransactionCount = y.handles.countP TransactionHandle.isPending ∧
    0 ≤ y.world.store.pendingTransactionCount

instance (y : Session) : Decidable y.CountExact := inferInstanceAs (Decidable (_ ∧ _))

/-- The step closes a transaction that has taken a position and whose batch was not written through. -/
def strands (y : Session) : SessionAction → Bool
  | .close i => (y.handles[i]?).any fun h => h.hasPosition && !h.wrote
  | .abort i => (y.handles[i]?).any fun h => decide (h.state = .pending) && h.hasPosition && !h.wrote
  | _ => false

def stranded (y : Session) : ℕ := y.handles.countP TransactionHandle.isStranded

section
variable {cfg : StoreConfig} {y y' : Session} {i : ℕ} {h h' : TransactionHandle}

/-- A handle that is live before and after is stranded at neither time. -/
theorem stranded_set (hh : y.handles[i]? = some h) (hlive : h.closed = false) (hlive' : h'.closed = false) :
    (y.handles.set i h').countP TransactionHandle.isStranded = y.stranded := by
  have hset := List.countP_set_add TransactionHandle.isStranded hh h'
  have h1 : h.isStranded = false := by simp [TransactionHandle.isStranded, hlive]
  have h2 : h'.isStranded = false := by simp [TransactionHandle.isStranded, hlive']
  rw [h1, h2] at hset
  exact hset

theorem stranded_giveBack (hh : y.handles[i]? = some h) (hlive : h.closed = false)
    (hlive' : h'.closed = false) (give : TransactionLogStore → LogPosition → TransactionLogStore) :
    (y.giveBack i h' give).stranded = y.stranded := by
  unfold giveBack
  split_ifs
  · exact stranded_set hh hlive hlive'
  · exact stranded_set hh hlive hlive'

theorem stranded_bind (hh : y.handles[i]? = some h) (hlive : h.closed = false) {z : Session × TransactionHandle}
    (hb : y.bind i h = some z) : z.1.stranded = y.stranded := by
  unfold Session.bind at hb
  split_ifs at hb
  · obtain rfl := Option.some.inj hb
    rfl
  · obtain rfl := Option.some.inj hb
    exact stranded_set hh hlive hlive

theorem closeHandle_handles (y : Session) (i : ℕ) (h : TransactionHandle) :
    ∃ decided, (y.closeHandle i h).handles = y.handles.set i { h.shut with decided := decided } := by
  unfold closeHandle giveBack
  dsimp only
  split_ifs
  · exact ⟨_, rfl⟩
  · exact ⟨true, rfl⟩
  · exact ⟨_, rfl⟩
  · exact ⟨_, rfl⟩

theorem stranded_closeHandle (hi : Inv y) (hh : y.handles[i]? = some h) (hlive : h.closed = false) :
    (y.closeHandle i h).stranded = y.stranded + if h.hasPosition && !h.wrote then 1 else 0 := by
  obtain ⟨decided, hhandles⟩ := closeHandle_handles y i h
  have hset := List.countP_set_add TransactionHandle.isStranded hh { h.shut with decided := decided }
  have h1 : h.isStranded = false := by simp [TransactionHandle.isStranded, hlive]
  have h2 : ({ h.shut with decided := decided } : TransactionHandle).isStranded = (h.hasPosition && !h.wrote) := by
    change (true && h.bound && !h.wrote && h.hasPosition) = _
    cases hp : h.hasPosition with
    | false => simp
    | true => simp [(hi.handles hh).position hp]
  rw [h1, h2] at hset
  rw [stranded, hhandles]
  exact hset

/-- A transaction is stranded by the close that strands it, and by nothing else. -/
theorem stranded_step {a : SessionAction} (hi : Inv y) (hstep : step cfg y a = some y') :
    y'.stranded = y.stranded + if y.strands a then 1 else 0 := by
  cases a with
  | newTransaction ts =>
    obtain rfl := Option.some.inj hstep
    exact List.countP_append
  | useLog i =>
    obtain ⟨h, hl, rfl⟩ := Option.map_eq_some_iff.mp hstep
    obtain ⟨hh, hlive⟩ := live_some hl
    cases hb : y.bind i h with
    | none => rfl
    | some z => exact stranded_bind hh hlive hb
  | addLogEntry i entry =>
    obtain ⟨h, hl, rfl | ⟨hnw, -, z, g, hb, rfl⟩⟩ := addLogEntry_cases hstep
    · rfl
    · obtain ⟨hh, hlive⟩ := live_some hl
      obtain ⟨-, hg, hglive, -⟩ := hi.bind hh hlive hnw hb
      have hset : (z.handles.set i (g.stage entry)).countP TransactionHandle.isStranded = z.stranded :=
        stranded_set hg hglive hglive
      exact hset.trans (stranded_bind hh hlive hb)
  | commit i sync =>
    obtain ⟨h, hl, hstep⟩ := Option.bind_eq_some_iff.mp hstep
    obtain ⟨hh, hlive⟩ := live_some hl
    split_ifs at hstep with hpc hstate
    · unfold beginCommit at hstep
      dsimp only at hstep
      split at hstep
      · obtain rfl := Option.some.inj hstep
        exact stranded_set hh hlive hlive
      · split_ifs at hstep
        all_goals
          obtain rfl := Option.some.inj hstep
          exact stranded_set hh hlive hlive
    · obtain rfl := Option.some.inj hstep
      rfl
  | writer io =>
    obtain ⟨h, sync, wr, w', wr', hw, -, -, rfl⟩ := stepWrite_cases hi hstep
    have hlive : h.closed = false := (hi.handles hw.handle).live (by rw [hw.pc]; simp)
    have hlive' : (h.afterWriterStep sync wr').closed = false := by
      rcases afterWriterStep_cases h sync wr' with ⟨-, hg⟩ | ⟨-, -, hg⟩ | ⟨-, hg⟩
      all_goals
        rw [hg]
        exact hlive
    have hset := stranded_set hw.handle hlive hlive'
    change Session.stranded (if wr'.pc = .returned then _ else _) = y.stranded
    split_ifs
    · exact hset
    · exact hset
  | commitFailed i latest =>
    obtain ⟨h, hl, hstep⟩ := Option.bind_eq_some_iff.mp hstep
    obtain ⟨hh, hlive⟩ := live_some hl
    split_ifs at hstep with hpc
    obtain rfl := Option.some.inj hstep
    exact stranded_giveBack hh hlive (by exact hlive) _
  | commitResult i status latest =>
    obtain ⟨h, hl, hstep⟩ := Option.bind_eq_some_iff.mp hstep
    obtain ⟨hh, hlive⟩ := live_some hl
    split_ifs at hstep with hpc
    obtain rfl := Option.some.inj hstep
    cases status with
    | ok => exact stranded_giveBack hh hlive (by exact hlive) _
    | isBusy => exact stranded_set hh hlive (by exact hlive)
    | error => exact stranded_giveBack hh hlive (by exact hlive) _
  | abort i =>
    obtain ⟨h, hl, hstep⟩ := Option.bind_eq_some_iff.mp hstep
    obtain ⟨hh, hlive⟩ := live_some hl
    rw [strands, hh, Option.any_some]
    split_ifs at hstep with hpc hstate
    · obtain rfl := Option.some.inj hstep
      rw [stranded_closeHandle hi hh hlive, decide_eq_true hstate, Bool.true_and]
    · obtain rfl := Option.some.inj hstep
      rw [decide_eq_false hstate]
      rfl
  | close i =>
    obtain ⟨h, hl, hstep⟩ := Option.bind_eq_some_iff.mp hstep
    obtain ⟨hh, hlive⟩ := live_some hl
    rw [strands, hh, Option.any_some]
    split_ifs at hstep with hpc
    obtain rfl := Option.some.inj hstep
    exact stranded_closeHandle hi hh hlive
  | tryClose =>
    simp only [Session.step] at hstep
    split_ifs at hstep
    all_goals
      obtain rfl := Option.some.inj hstep
      rfl
  | closePhase k io =>
    obtain ⟨c, hc, hstep⟩ := Option.bind_eq_some_iff.mp hstep
    obtain ⟨r, hphase, rfl⟩ := Option.map_eq_some_iff.mp hstep
    rfl

theorem owes_count (y : Session) : y.handles.countP TransactionHandle.owes =
    y.handles.countP TransactionHandle.isPending + y.stranded := by
  rw [stranded]
  induction y.handles with
  | nil => rfl
  | cons h hs ih =>
    simp only [List.countP_cons, ih, TransactionHandle.owes_eq]
    have hexcl : ¬ (h.isPending = true ∧ h.isStranded = true) := by
      simp only [TransactionHandle.isPending, TransactionHandle.isStranded]
      cases h.closed <;> simp
    cases hp : h.isPending <;> cases hs : h.isStranded <;> simp_all <;> omega

/-- Where the count is exact nobody is stranded, and conversely. -/
theorem countExact_iff (hi : Inv y) : y.CountExact ↔ y.stranded = 0 := by
  have hcount := hi.count
  rw [owes_count] at hcount
  unfold CountExact
  omega

theorem initial_inv (h : Initial cfg y) : Inv y ∧ y.stranded = 0 := by
  obtain ⟨hhandles, hcalls, hwriter, hstore⟩ := h
  have hs : NextOk y.world.store ∧ y.world.store.pendingTransactionCount = 0 ∧ y.world.store.isClosing = false := by
    rcases hstore with hnew | ⟨d, order, io, hload⟩
    · rw [hnew]
      exact ⟨⟨by decide, by decide, fun _ => rfl, nofun⟩, rfl, rfl⟩
    · exact load_nextOk hload
  have hidle : y.world.busy = false := by rw [World.busy, hwriter]; rfl
  refine ⟨⟨hs.1, fun hb => ?_, fun hk => ?_, ?_, fun hc => ?_, fun c hc => ?_⟩, ?_⟩
  · exact absurd (hidle.symm.trans hb) Bool.false_ne_true
  · rw [hhandles] at hk
    cases hk
  · rw [hhandles]
    exact hs.2.1
  · exact absurd (hs.2.2.symm.trans hc) Bool.false_ne_true
  · rw [hcalls] at hc
    cases hc
  · rw [stranded, hhandles]
    rfl

/-- Along a run the stranded transactions are those of the closes that strand one. -/
theorem stranded_run {as : List SessionAction} (hi : Inv y) (hrun : Runs.exec (step cfg) y as = some y') :
    Inv y' ∧ (y'.stranded = 0 ↔ y.stranded = 0 ∧ Runs.Along (step cfg) (fun z a => z.strands a = false) y as) := by
  induction as generalizing y with
  | nil =>
    obtain rfl : y = y' := by simpa [Runs.exec] using hrun
    exact ⟨hi, by simp [Runs.Along]⟩
  | cons a as ih =>
    obtain ⟨z, hz, hrest⟩ := Runs.exec_cons.mp hrun
    obtain ⟨hinv, hiff⟩ := ih (hi.step hz) hrest
    refine ⟨hinv, hiff.trans ?_⟩
    rw [stranded_step hi hz]
    constructor
    · rintro ⟨hzero, halong⟩
      split_ifs at hzero with hs
      refine ⟨hzero, Bool.eq_false_of_not_eq_true hs, fun t ht => ?_⟩
      obtain rfl := Option.some.inj (hz.symm.trans ht)
      exact halong
    · rintro ⟨hzero, hs, halong⟩
      refine ⟨?_, halong z hz⟩
      rw [hzero, hs]
      rfl

/-- In every reachable state `pendingTransactionCount` is exact if and only if no step of the run
closed a transaction with a position whose batch was not written through. -/
theorem count_exact_iff {y0 : Session} {as : List SessionAction} (h0 : Initial cfg y0)
    (hrun : Runs.exec (step cfg) y0 as = some y) :
    y.CountExact ↔ Runs.Along (step cfg) (fun z a => z.strands a = false) y0 as := by
  obtain ⟨hi0, hfree⟩ := initial_inv h0
  obtain ⟨hi, hiff⟩ := stranded_run hi0 hrun
  rw [countExact_iff hi, hiff]
  exact ⟨And.right, fun h => ⟨hfree, h⟩⟩

end

/-- A first transaction whose append fails with the disk full. -/
def failedCommit : List SessionAction :=
  [.newTransaction ⟨5⟩, .addLogEntry 0 (oneByteEntry 7), .commit 0 false, .writer {}, .writer {},
    .writer {}, .writer {},
    .writer { results := [.error] }, .commitFailed 0 9]

theorem initial_new (cfg : StoreConfig) : Initial cfg {} := ⟨rfl, rfl, rfl, Or.inl rfl⟩

/-- The failed commit is tried again before the close, and a second transaction only binds. -/
theorem count_exact_retried :
    (Runs.final (step { maxFileSize := 200 }) {} (failedCommit ++
      [.commit 0 false, .newTransaction ⟨6⟩, .useLog 1, .writer {}, .commitResult 0 .ok 10, .close 0])).CountExact :=
  (count_exact_iff (initial_new _) (Runs.exec_final _ _ _ (by decide +kernel))).mpr (by decide +kernel)

/-- The transaction is aborted after the failed append, and the count stays at one with no
transaction left. -/
theorem count_left_behind :
    ¬ ∀ (cfg : StoreConfig) (y0 y : Session) (as : List SessionAction), Initial cfg y0 →
      Runs.exec (step cfg) y0 as = some y → y.CountExact := by
  intro h
  have hexact := h _ _ _ _ (initial_new { maxFileSize := 200 })
    (Runs.exec_final _ _ (failedCommit ++ [.abort 0]) (by decide +kernel))
  revert hexact
  decide +kernel

end Session

end RocksdbJs
