import RocksdbJs.Proofs.Watermark

/-! Replay safety of the flushed position. A sample pairs a RocksDB sequence number with
the watermark of the same moment; a flush persists the greatest position whose number it
covers. Along the runs of the watermark's theorem this is safe when, besides, the number
that a `commitFinished` call brings is not behind the commits it is about to expose. The
number is read outside the store's lock, so it can be. -/

namespace RocksdbJs

open TransactionLogStore

namespace Sys

/-- Replaying from `F` skips nothing that a flush up to `s` has not made durable. -/
def ReplaySafe (txns : List Txn) (s : ℕ) (F : LogPosition) : Prop :=
  ∀ x ∈ txns, ∀ l ∈ x.locations, l < F → x.decided = true ∧ ∀ c ∈ x.rocksCommit, c ≤ s

instance (txns : List Txn) (s : ℕ) (F : LogPosition) : Decidable (ReplaySafe txns s F) :=
  inferInstanceAs (Decidable (∀ x ∈ txns, ∀ l ∈ x.locations, l < F → _ ∧ ∀ c ∈ x.rocksCommit, c ≤ s))

/-- The sequence number that transaction `i` has read is at or above the commit of every
decided transaction with an entry before all the positions that stay registered. -/
def InOrder (y : Sys) (i : ℕ) : Prop :=
  ∀ x ∈ y.txns[i]?, ∀ q ∈ x.latestRead, ∀ x' ∈ y.txns, x'.decided = true → ∀ l ∈ x'.locations,
    (∀ p ∈ y.world.store.uncommittedTransactionPositions.elems, p ≠ x.committedPosition → l < p) →
      ∀ c ∈ x'.rocksCommit, c ≤ q

instance (y : Sys) (i : ℕ) : Decidable (y.InOrder i) := inferInstanceAs (Decidable (∀ x ∈ y.txns[i]?, _))

def FlushStepOk (cfg : StoreConfig) (y : Sys) (a : Action) : Prop :=
  StepOk cfg y a ∧ match a with
    | .commitFinished i => y.InOrder i
    | _ => True

instance (cfg : StoreConfig) (y : Sys) : ∀ a : Action, Decidable (FlushStepOk cfg y a)
  | .commitFinished i => inferInstanceAs (Decidable (_ ∧ y.InOrder i))
  | .beginWrite _ => inferInstanceAs (Decidable (_ ∧ True))
  | .writer _ => inferInstanceAs (Decidable (_ ∧ True))
  | .commitAborted _ => inferInstanceAs (Decidable (_ ∧ True))
  | .rocksCommit _ _ => inferInstanceAs (Decidable (_ ∧ True))
  | .rocksOther _ => inferInstanceAs (Decidable (_ ∧ True))
  | .getLatestSequenceNumber _ => inferInstanceAs (Decidable (_ ∧ True))
  | .flushScan _ => inferInstanceAs (Decidable (_ ∧ True))
  | .flushWrite _ => inferInstanceAs (Decidable (_ ∧ True))

/-- A sequence number beside a position that a flush may use, is using or has used. -/
inductive Pair (y : Sys) : ℕ → LogPosition → Prop
  | sample {sp : SequencePosition} :
      sp ∈ y.world.store.recentlyCommittedSequencePositions → Pair y sp.rocksSequenceNumber sp.position
  | flush {s : ℕ} {p : LogPosition} : (s, p) ∈ y.flushes → Pair y s p
  | persisted {s : ℕ} {p : LogPosition} : (s, p) ∈ y.persisted → Pair y s p

structure FlushInv (y : Sys) : Prop extends Inv y where
  pairs : ∀ s p, Pair y s p → p ≤ y.ceiling ∧ ReplaySafe y.txns s p
  commits : ∀ x ∈ y.txns, ∀ c ∈ x.rocksCommit, c ≤ y.latestSequenceNumber ∧ ∀ q ∈ x.latestRead, c ≤ q

/-- What a step can do to the transactions: an entry it adds lies at or after the ceiling,
and a decided one stays as it is. -/
def TxnsKept (y y' : Sys) : Prop :=
  ∀ x' ∈ y'.txns, ∀ l ∈ x'.locations, y.ceiling ≤ l ∨
    ∃ x ∈ y.txns, l ∈ x.locations ∧ (x.decided = true → x'.decided = true ∧ x'.rocksCommit = x.rocksCommit)

theorem ReplaySafe.kept {y y' : Sys} {s : ℕ} {p : LogPosition} (hk : TxnsKept y y') (hp : p ≤ y.ceiling)
    (h : ReplaySafe y.txns s p) : ReplaySafe y'.txns s p := by
  intro x' hx' l hl hlt
  rcases hk x' hx' l hl with hge | ⟨x, hx, hlx, hsame⟩
  · exact absurd hlt (not_lt.mpr (hp.trans hge))
  · obtain ⟨hd, hc⟩ := h x hx l hlx hlt
    obtain ⟨hd', hc'⟩ := hsame hd
    exact ⟨hd', hc' ▸ hc⟩

theorem txnsKept_refl {y y' : Sys} (h : y'.txns = y.txns) : TxnsKept y y' := by
  intro x' hx' l hl
  rw [h] at hx'
  exact Or.inr ⟨x', hx', hl, fun hd => ⟨hd, rfl⟩⟩

theorem txnsKept_set {y y' : Sys} {i : ℕ} {x x' : Txn} (hx : y.txns[i]? = some x) (h : y'.txns = y.txns.set i x')
    (hl : x'.locations = x.locations)
    (hd : x.decided = true → x'.decided = true ∧ x'.rocksCommit = x.rocksCommit) : TxnsKept y y' := by
  intro x1 hx1 l hl1
  rw [h] at hx1
  rcases List.mem_set_cases hx1 with rfl | ⟨j, -, hget⟩
  · exact Or.inr ⟨x, List.mem_of_getElem? hx, hl ▸ hl1, hd⟩
  · exact Or.inr ⟨x1, List.mem_of_getElem? hget, hl1, fun hd => ⟨hd, rfl⟩⟩

section
variable {cfg : StoreConfig} {y y' : Sys}

theorem txnsKept_step {a : Action} (hi : Inv y) (hok : StepOk cfg y a) (h : step cfg y a = some y') :
    TxnsKept y y' := by
  cases a with
  | beginWrite batch =>
    simp only [step] at h
    split_ifs at h
    obtain rfl := Option.some.inj h
    intro x' hx' l hl
    rcases List.mem_cons.mp hx' with rfl | hx'
    · simp at hl
    · exact Or.inr ⟨x', hx', hl, fun hd => ⟨hd, rfl⟩⟩
  | writer io =>
    obtain ⟨wr, wr', x, rest, hwr, hbusy, htxns, hdec, -, -, hstep, hy'⟩ := step_writer hi hok h
    intro x' hx' l hl
    rw [hy'] at hx'
    rcases List.mem_cons.mp hx' with rfl | hx'
    · rcases List.mem_append.mp hl with hl | hl
      · refine Or.inr ⟨x, by rw [htxns]; exact List.mem_cons_self, hl, fun hd => ?_⟩
        rw [hdec] at hd
        cases hd
      · rw [ceiling_busy hwr hbusy]
        exact Or.inl (hstep.locations l hl).1
    · exact Or.inr ⟨x', by rw [htxns]; exact List.mem_cons_of_mem _ hx', hl, fun hd => ⟨hd, rfl⟩⟩
  | rocksCommit i n =>
    simp only [step, Option.bind_eq_some_iff] at h
    obtain ⟨x, hx, h⟩ := h
    split_ifs at h with hc
    obtain rfl := Option.some.inj h
    refine txnsKept_set (ended_spec hx).1 rfl rfl fun hd => ?_
    exact absurd (Or.inl hd) hc
  | rocksOther n =>
    obtain rfl := Option.some.inj h
    exact txnsKept_refl rfl
  | getLatestSequenceNumber i =>
    simp only [step, Option.bind_eq_some_iff] at h
    obtain ⟨x, hx, h⟩ := h
    split_ifs at h
    obtain rfl := Option.some.inj h
    exact txnsKept_set (ended_spec hx).1 rfl rfl fun hd => ⟨hd, rfl⟩
  | commitFinished i =>
    simp only [step, Option.bind_eq_some_iff] at h
    obtain ⟨x, hx, q, hq, h⟩ := h
    split_ifs at h
    obtain rfl := Option.some.inj h
    exact txnsKept_set (ended_spec hx).1 rfl rfl fun _ => ⟨rfl, rfl⟩
  | commitAborted i =>
    simp only [step, Option.bind_eq_some_iff] at h
    obtain ⟨x, hx, h⟩ := h
    split_ifs at h
    obtain rfl := Option.some.inj h
    exact txnsKept_set (ended_spec hx).1 rfl rfl fun _ => ⟨rfl, rfl⟩
  | flushScan n =>
    obtain rfl := Option.some.inj h
    exact txnsKept_refl rfl
  | flushWrite k =>
    simp only [step, Option.bind_eq_some_iff] at h
    obtain ⟨fl, -, h⟩ := h
    obtain rfl := Option.some.inj h
    exact txnsKept_refl rfl

theorem ReplaySafe.mono {txns : List Txn} {s s' : ℕ} {p : LogPosition} (h : ReplaySafe txns s p) (hs : s ≤ s') :
    ReplaySafe txns s' p :=
  fun x hx l hl hlt => ⟨(h x hx l hl hlt).1, fun c hc => ((h x hx l hl hlt).2 c hc).trans hs⟩

theorem replaySafe_zero (txns : List Txn) (s : ℕ) : ReplaySafe txns s ⟨0, 0⟩ :=
  fun _ _ l _ hlt => absurd hlt (not_lt.mpr (LogPosition.zero_le l))

/-- Where the pairs of the next state come from. -/
def PairsFrom (y y' : Sys) : Prop := ∀ s p, Pair y' s p → p = ⟨0, 0⟩ ∨ ∃ s0, s0 ≤ s ∧ Pair y s0 p

theorem pairsFrom_same {y y' : Sys}
    (hs : y'.world.store.recentlyCommittedSequencePositions = y.world.store.recentlyCommittedSequencePositions)
    (hf : ∀ fl ∈ y'.flushes, fl ∈ y.flushes) (hp : ∀ fl ∈ y'.persisted, fl ∈ y.persisted ∨ fl ∈ y.flushes) :
    PairsFrom y y' := by
  intro s p h
  right
  cases h with
  | sample hm => exact ⟨_, le_rfl, .sample (hs ▸ hm)⟩
  | flush hm => exact ⟨s, le_rfl, .flush (hf _ hm)⟩
  | persisted hm =>
    rcases hp _ hm with hm | hm
    · exact ⟨s, le_rfl, .persisted hm⟩
    · exact ⟨s, le_rfl, .flush hm⟩

/-- Every step but `commitFinished` only hands old pairs on. -/
theorem pairsFrom_step {a : Action} (hi : Inv y) (hok : StepOk cfg y a) (ha : ∀ i, a ≠ .commitFinished i)
    (h : step cfg y a = some y') : PairsFrom y y' := by
  cases a with
  | beginWrite batch =>
    simp only [step] at h
    split_ifs at h with hc
    obtain rfl := Option.some.inj h
    have hopen : y.world.store.isClosing = false := by simpa using (not_or.mp hc).2
    refine pairsFrom_same ?_ (fun _ h => h) fun _ h => Or.inl h
    simp only [RocksdbJs.beginWrite, hopen, Bool.false_eq_true, if_false]
    rfl
  | writer io =>
    obtain ⟨wr, wr', x, rest, -, -, -, -, -, -, hstep, hy'⟩ := step_writer hi hok h
    exact pairsFrom_same hstep.samples (by rw [hy']; exact fun _ h => h) (by rw [hy']; exact fun _ h => Or.inl h)
  | rocksCommit i n =>
    simp only [step, Option.bind_eq_some_iff] at h
    obtain ⟨x, hx, h⟩ := h
    split_ifs at h
    obtain rfl := Option.some.inj h
    exact pairsFrom_same rfl (fun _ h => h) fun _ h => Or.inl h
  | rocksOther n =>
    obtain rfl := Option.some.inj h
    exact pairsFrom_same rfl (fun _ h => h) fun _ h => Or.inl h
  | getLatestSequenceNumber i =>
    simp only [step, Option.bind_eq_some_iff] at h
    obtain ⟨x, hx, h⟩ := h
    split_ifs at h
    obtain rfl := Option.some.inj h
    exact pairsFrom_same rfl (fun _ h => h) fun _ h => Or.inl h
  | commitFinished i => exact absurd rfl (ha i)
  | commitAborted i =>
    simp only [step, Option.bind_eq_some_iff] at h
    obtain ⟨x, hx, h⟩ := h
    split_ifs at h
    obtain rfl := Option.some.inj h
    exact pairsFrom_same rfl (fun _ h => h) fun _ h => Or.inl h
  | flushScan n =>
    obtain rfl := Option.some.inj h
    intro s p hp
    cases hp with
    | sample hm => exact Or.inr ⟨_, le_rfl, .sample hm⟩
    | persisted hm => exact Or.inr ⟨s, le_rfl, .persisted hm⟩
    | flush hm =>
      rcases List.mem_cons.mp hm with he | hm
      · obtain ⟨rfl, rfl⟩ := Prod.mk.inj he
        rcases latestSequencePosition_spec y.world.store s with hz | ⟨sp, hsp, hle, he⟩
        · exact Or.inl hz
        · exact Or.inr ⟨_, hle, he ▸ Pair.sample hsp⟩
      · exact Or.inr ⟨s, le_rfl, .flush hm⟩
  | flushWrite k =>
    simp only [step, Option.bind_eq_some_iff] at h
    obtain ⟨fl, hfl, h⟩ := h
    obtain ⟨stream, written, state, hw⟩ := writeFlushedPosition_cases y.world.store y.world.disk fl.2
    rw [hw] at h
    obtain rfl := Option.some.inj h
    refine pairsFrom_same rfl (fun _ h => List.mem_of_mem_eraseIdx h) fun fl' hm => ?_
    simp only at hm
    split_ifs at hm
    · rcases List.mem_cons.mp hm with rfl | hm
      · exact Or.inr (List.mem_of_getElem? hfl)
      · exact Or.inl hm
    · exact Or.inl hm

/-- The sample that a `commitFinished` call records is safe: what lies before the new
watermark is decided, and its commits are covered by the number the call brings. -/
theorem replaySafe_sample {i : ℕ} {x : Txn} {q : ℕ} (hi : FlushInv y) (hx : y.ended i = some x)
    (hq : x.latestRead = some q) (hsole : y.SoleHolder i) (hord : y.InOrder i) :
    ReplaySafe (y.txns.set i { x with decided := true, latestRead := none }) q
      (y.world.store.commitAborted x.committedPosition).lastCommittedPosition := by
  obtain ⟨hxi, -⟩ := ended_spec hx
  set s' := y.world.store.commitAborted x.committedPosition
  have hmem : ∀ p, p ∈ s'.uncommittedTransactionPositions ↔
      p ≠ x.committedPosition ∧ p ∈ y.world.store.uncommittedTransactionPositions := fun p =>
    SortedVec.mem_erase
  have hlow : ∀ p ∈ s'.uncommittedTransactionPositions, s'.lastCommittedPosition ≤ p := by
    intro p hp
    change s'.uncommittedTransactionPositions.front?.getD s'.nextLogPosition ≤ p
    cases hfront : s'.uncommittedTransactionPositions.front? with
    | some m => exact SortedVec.front?_le hfront hp
    | none => exact absurd hp (SortedVec.front?_eq_none.mp hfront p)
  intro x1 hx1 l hl hlt
  rcases List.mem_set_cases hx1 with rfl | ⟨j, hj, hget⟩
  · exact ⟨rfl, fun c hc => (hi.commits x (List.mem_of_getElem? hxi) c hc).2 q hq⟩
  have hin : x1 ∈ y.txns := List.mem_of_getElem? hget
  cases hd : x1.decided with
  | true =>
    refine ⟨rfl, fun c hc => hord x hxi q hq x1 hin hd l hl (fun p hp hne => ?_) c hc⟩
    exact hlt.trans_le (hlow p ((hmem p).mpr ⟨hne, hp⟩))
  | false =>
    -- an undecided one keeps its position, and the watermark with it
    have hne := hsole x hxi x1 (List.mem_eraseIdx_iff_getElem?.mpr ⟨j, hj, hget⟩) hd
    obtain ⟨h1, -, h3⟩ := hi.pending x1 hin hd l hl
    exact absurd hlt (not_lt.mpr ((hlow _ ((hmem _).mpr ⟨hne, h1⟩)).trans h3))

theorem commits_step {a : Action} (hi : FlushInv y) (hok : StepOk cfg y a) (h : step cfg y a = some y') :
    ∀ x ∈ y'.txns, ∀ c ∈ x.rocksCommit, c ≤ y'.latestSequenceNumber ∧ ∀ q ∈ x.latestRead, c ≤ q := by
  have hset : ∀ i x' (n : ℕ), y.latestSequenceNumber ≤ n →
      (∀ c ∈ x'.rocksCommit, c ≤ n ∧ ∀ q ∈ x'.latestRead, c ≤ q) →
      ∀ x1 ∈ y.txns.set i x', ∀ c ∈ x1.rocksCommit, c ≤ n ∧ ∀ q ∈ x1.latestRead, c ≤ q := by
    intro i x' n hn hx' x1 hx1 c hc
    rcases List.mem_set_cases hx1 with rfl | ⟨j, -, hget⟩
    · exact hx' c hc
    · obtain ⟨hle, hread⟩ := hi.commits x1 (List.mem_of_getElem? hget) c hc
      exact ⟨hle.trans hn, hread⟩
  cases a with
  | beginWrite batch =>
    simp only [step] at h
    split_ifs at h
    obtain rfl := Option.some.inj h
    intro x hx c hc
    rcases List.mem_cons.mp hx with rfl | hx
    · cases hc
    · exact hi.commits x hx c hc
  | writer io =>
    obtain ⟨wr, wr', x, rest, -, -, htxns, -, -, -, -, hy'⟩ := step_writer hi.toInv hok h
    rw [hy']
    intro x1 hx1 c hc
    rcases List.mem_cons.mp hx1 with rfl | hx1
    · exact hi.commits x (by rw [htxns]; exact List.mem_cons_self) c hc
    · exact hi.commits x1 (by rw [htxns]; exact List.mem_cons_of_mem _ hx1) c hc
  | rocksCommit i n =>
    simp only [step, Option.bind_eq_some_iff] at h
    obtain ⟨x, hx, h⟩ := h
    split_ifs at h with hc
    obtain rfl := Option.some.inj h
    refine hset i _ _ (Nat.le_add_right _ _) fun c hcm => ?_
    obtain rfl := Option.some.inj hcm
    refine ⟨le_rfl, fun q hq => ?_⟩
    exact absurd (Or.inr (Or.inr (by rw [show x.latestRead = some q from hq]; rfl))) hc
  | rocksOther n =>
    obtain rfl := Option.some.inj h
    intro x hx c hc
    obtain ⟨hle, hread⟩ := hi.commits x hx c hc
    exact ⟨hle.trans (Nat.le_add_right _ _), hread⟩
  | getLatestSequenceNumber i =>
    simp only [step, Option.bind_eq_some_iff] at h
    obtain ⟨x, hx, h⟩ := h
    split_ifs at h
    obtain rfl := Option.some.inj h
    refine hset i _ _ le_rfl fun c hc => ?_
    have hle := (hi.commits x (List.mem_of_getElem? (ended_spec hx).1) c hc).1
    refine ⟨hle, fun q hq => ?_⟩
    obtain rfl := Option.some.inj hq
    exact hle
  | commitFinished i =>
    simp only [step, Option.bind_eq_some_iff] at h
    obtain ⟨x, hx, q, hq, h⟩ := h
    split_ifs at h
    obtain rfl := Option.some.inj h
    refine hset i _ _ le_rfl fun c hc => ⟨?_, fun q hq => by cases hq⟩
    exact (hi.commits x (List.mem_of_getElem? (ended_spec hx).1) c hc).1
  | commitAborted i =>
    simp only [step, Option.bind_eq_some_iff] at h
    obtain ⟨x, hx, h⟩ := h
    split_ifs at h
    obtain rfl := Option.some.inj h
    exact hset i _ _ le_rfl fun c hc => hi.commits x (List.mem_of_getElem? (ended_spec hx).1) c hc
  | flushScan n =>
    obtain rfl := Option.some.inj h
    exact hi.commits
  | flushWrite k =>
    simp only [step, Option.bind_eq_some_iff] at h
    obtain ⟨fl, -, h⟩ := h
    obtain rfl := Option.some.inj h
    exact hi.commits

theorem flushInv_step {a : Action} (hi : FlushInv y) (hok : FlushStepOk cfg y a) (h : step cfg y a = some y') :
    FlushInv y' := by
  obtain ⟨hinv, hceil⟩ := inv_step hi.toInv hok.1 h
  have hkept := txnsKept_step hi.toInv hok.1 h
  refine ⟨hinv, ?_, commits_step hi hok.1 h⟩
  have hold : ∀ s p, Pair y s p → p ≤ y'.ceiling ∧ ReplaySafe y'.txns s p := fun s p hp =>
    ⟨(hi.pairs s p hp).1.trans hceil, (hi.pairs s p hp).2.kept hkept (hi.pairs s p hp).1⟩
  by_cases ha : ∃ i, a = .commitFinished i
  · obtain ⟨i, rfl⟩ := ha
    have hord : y.InOrder i := hok.2
    have hsole : y.SoleHolder i := hok.1
    simp only [step, Option.bind_eq_some_iff] at h
    obtain ⟨x, hx, q, hq, h⟩ := h
    split_ifs at h
    obtain rfl := Option.some.inj h
    intro s p hp
    cases hp with
    | sample hm =>
      rcases List.mem_or_eq_of_mem_set hm with hm | rfl
      · exact hold _ _ (.sample hm)
      · exact ⟨hinv.committed, replaySafe_sample hi hx hq hsole hord⟩
    | flush hm => exact hold _ _ (.flush hm)
    | persisted hm => exact hold _ _ (.persisted hm)
  · intro s p hp
    rcases pairsFrom_step hi.toInv hok.1 (fun i hi => ha ⟨i, hi⟩) h s p hp with rfl | ⟨s0, hs0, hp⟩
    · exact ⟨LogPosition.zero_le _, replaySafe_zero _ _⟩
    · exact ⟨(hold s0 p hp).1, (hold s0 p hp).2.mono hs0⟩

theorem flushInv_initial (h : Initial cfg y) : FlushInv y := by
  refine ⟨inv_initial h, ?_, ?_⟩
  all_goals obtain ⟨htxns, hf, hp, hwr, hstore⟩ := h
  · have hsamples : ∀ sp ∈ y.world.store.recentlyCommittedSequencePositions, sp.position = ⟨0, 0⟩ := by
      intro sp hsp
      rcases hstore with ⟨hs, -⟩ | ⟨d, order, io, hio, hload⟩
      · rw [hs] at hsp
        rw [List.eq_of_mem_replicate hsp]
      · rw [(load_loaded (fun seq _ => hio seq) hload).samples] at hsp
        rw [List.eq_of_mem_replicate hsp]
    intro s p hpair
    cases hpair with
    | sample hm =>
      rw [hsamples _ hm]
      exact ⟨LogPosition.zero_le _, replaySafe_zero _ _⟩
    | flush hm => rw [hf] at hm; cases hm
    | persisted hm => rw [hp] at hm; cases hm
  · intro x hx
    rw [htxns] at hx
    cases hx

/-- Along every run that meets the condition, each position ever persisted is one that a
replay may start from. -/
theorem persisted_replay_safe {as : List Action} (h0 : Initial cfg y)
    (hok : Runs.Along (step cfg) (FlushStepOk cfg) y as) (hrun : Runs.exec (step cfg) y as = some y') :
    ∀ fl ∈ y'.persisted, ReplaySafe y'.txns fl.1 fl.2 :=
  fun fl hfl => ((Runs.exec_invariant (fun _ _ _ hi ho hs => flushInv_step hi ho hs)
    (flushInv_initial h0) hok hrun).pairs
    fl.1 fl.2 (.persisted hfl)).2

/-- Two transactions that finish in log order, then a flush that covers both. -/
def flushAfterBoth : List Action :=
  bothWritten ++ wholeCommit 1 ++ wholeCommit 0 ++ [.flushScan 2, .flushWrite 0]

theorem persisted_replay_safe_afterBoth :
    ∃ y, Runs.exec (step ⟨200, 0, none⟩) {} flushAfterBoth = some y ∧ y.persisted = [(2, ⟨79, 1⟩)] ∧
      ReplaySafe y.txns 2 ⟨79, 1⟩ := by
  refine ⟨(Runs.exec (step ⟨200, 0, none⟩) {} flushAfterBoth).get (by decide +kernel), (Option.some_get _).symm,
    by decide +kernel, ?_⟩
  exact persisted_replay_safe ⟨rfl, rfl, rfl, rfl, Or.inl ⟨rfl, rfl⟩⟩ (by decide +kernel) (Option.some_get _).symm
    (2, ⟨79, 1⟩) (by decide +kernel)

/-- The flush comes after the second transaction of `fillThenWrite` has written its entry. -/
def fillThenFlush : List Action := fillThenWrite ++ [.flushScan 1, .flushWrite 0]

theorem persisted_past_undecided :
    ∃ y, Initial ⟨30, 0, none⟩ {} ∧ Runs.exec (step ⟨30, 0, none⟩) {} fillThenFlush = some y ∧
      ¬ ∀ fl ∈ y.persisted, ReplaySafe y.txns fl.1 fl.2 := by
  refine ⟨(Runs.exec (step ⟨30, 0, none⟩) {} fillThenFlush).get (by decide +kernel),
    ⟨rfl, rfl, rfl, rfl, Or.inl ⟨rfl, rfl⟩⟩, (Option.some_get _).symm, ?_⟩
  decide +kernel

end

end Sys

end RocksdbJs
