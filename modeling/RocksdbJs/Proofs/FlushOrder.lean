import RocksdbJs.Sanity.Lifecycle
import RocksdbJs.Sanity.Recovery

/-! The order of the flushed positions. `databaseFlushed` writes the best of the samples that
are left, and whatever it found under the one mutex it writes under the other. The position in
`txn.state` does not fall as long as the calls write in the order in which they looked, and each
still finds a sample no older than the newest one found before. Commits newer than the flush can
have overwritten them all. -/

namespace RocksdbJs

open TransactionLogStore

/-- A flush does nothing, or notes its position and writes it where `txn.state` still is. -/
theorem writeFlushedPosition_writes (s : TransactionLogStore) (d : Disk) (p : LogPosition) :
    let r := s.writeFlushedPosition d p
    (r.1.lastWrittenFlushedPosition = s.lastWrittenFlushedPosition ∧ r.2.txnState = d.txnState) ∨
      (p ≠ s.lastWrittenFlushedPosition ∧ r.1.lastWrittenFlushedPosition = p ∧
        (r.2.txnState = some p ∨ r.2.txnState = d.txnState)) := by
  simp only [writeFlushedPosition]
  by_cases heq : p = s.lastWrittenFlushedPosition
  · rw [if_pos heq]
    exact Or.inl ⟨rfl, rfl⟩
  · rw [if_neg heq]
    split
    · exact Or.inl ⟨rfl, rfl⟩
    · exact Or.inr ⟨heq, rfl, Or.inl rfl⟩
    · exact Or.inr ⟨heq, rfl, Or.inr rfl⟩

theorem sampleIndex_lt (count : ℕ) : sampleIndex count < RECENTLY_COMMITTED_POSITIONS_SIZE := by
  unfold sampleIndex
  cases hf : (List.range (RECENTLY_COMMITTED_POSITIONS_SIZE - 1)).find? count.testBit with
  | none => exact Nat.lt_succ_self _
  | some i =>
    have hmem := List.mem_range.mp (List.mem_of_find?_eq_some hf)
    exact hmem.trans (Nat.lt_succ_self _)

/-- What `databaseFlushed` reads and writes of a store and its directory has not changed. -/
structure FlushSame (s s' : TransactionLogStore) (d d' : Disk) : Prop where
  samples : s'.recentlyCommittedSequencePositions = s.recentlyCommittedSequencePositions
  written : s'.lastWrittenFlushedPosition = s.lastWrittenFlushedPosition
  txnState : d'.txnState = d.txnState

theorem writerStep_flushSame {cfg : StoreConfig} {w w' : World} {wr : Writer} {io : WriterCalls}
    (h : writerStep cfg w wr io = some w') : FlushSame w.store w'.store w.disk w'.disk := by
  have hframe := writerStep_frame h
  exact ⟨hframe.samples, hframe.written, hframe.txnState⟩

theorem foldl_forgetFile_flush (l : List ℕ) (s : TransactionLogStore) :
    (l.foldl forgetFile s).recentlyCommittedSequencePositions = s.recentlyCommittedSequencePositions ∧
      (l.foldl forgetFile s).lastWrittenFlushedPosition = s.lastWrittenFlushedPosition := by
  induction l generalizing s with
  | nil => exact ⟨rfl, rfl⟩
  | cons seq l ih =>
    obtain ⟨h1, h2⟩ := ih (s.forgetFile seq)
    rw [List.foldl_cons, h1, h2]
    unfold forgetFile
    split_ifs <;> exact ⟨rfl, rfl⟩

theorem doPurge_flushSame {cfg : StoreConfig} {s : TransactionLogStore} {d : Disk} {all : Bool}
    {before : ℕ} {io : FilesCalls} (h : (doPurge cfg s d all before io).2.txnState = d.txnState) :
    FlushSame s (doPurge cfg s d all before io).1 d (doPurge cfg s d all before io).2 := by
  obtain ⟨h1, h2⟩ := foldl_forgetFile_flush (purgedSequences cfg s d all before io) s
  refine ⟨?_, ?_, h⟩
  · simp only [doPurge]
    split <;> exact h1
  · simp only [doPurge]
    split <;> exact h2

/-- The steps of an open store that have nothing to do with a flush. -/
theorem stepOpen_flushSame {cfg : StoreConfig} {l l' : Life} {e : Event} (h : l.stepOpen cfg e = some l')
    (hpurge : ∀ all before io, e = .purge all before io →
      (l.world.store.doPurge cfg l.world.disk all before io).2.txnState = l.world.disk.txnState)
    (he : ∀ position seq, e ≠ .commitFinished position seq) (hs : ∀ seq, e ≠ .flushScan seq)
    (hw : ∀ k, e ≠ .flushWrite k) (hend : l'.isOpen = true) :
    FlushSame l.world.store l'.world.store l.world.disk l'.world.disk ∧ l'.flushes = l.flushes := by
  cases e with
  | create => cases h
  | load order io => cases h
  | commitFinished position seq => exact absurd rfl (he position seq)
  | flushScan seq => exact absurd rfl (hs seq)
  | flushWrite k => exact absurd rfl (hw k)
  | beginWrite batch =>
    simp only [Life.stepOpen] at h
    split_ifs at h
    obtain rfl := Option.some.inj h
    refine ⟨?_, rfl⟩
    simp only [Life.moveTo, beginWrite]
    split_ifs <;> exact ⟨rfl, rfl, rfl⟩
  | writer io =>
    simp only [Life.stepOpen, Option.map_eq_some_iff] at h
    obtain ⟨w', hw', rfl⟩ := h
    simp only [stepWriter, Option.bind_eq_some_iff] at hw'
    obtain ⟨wr, -, hw'⟩ := hw'
    exact ⟨writerStep_flushSame hw', rfl⟩
  | commitAborted position =>
    obtain rfl := Option.some.inj h
    exact ⟨⟨rfl, rfl, rfl⟩, rfl⟩
  | getLastCommittedPosition =>
    obtain rfl := Option.some.inj h
    obtain ⟨position, hp⟩ := getLastCommittedPosition_store l.world.store l.world.disk
    rw [hp]
    exact ⟨⟨rfl, rfl, rfl⟩, rfl⟩
  | getLogFileSize seq io =>
    obtain rfl := Option.some.inj h
    refine ⟨?_, rfl⟩
    rcases getLogFileSize_spec l.world.store l.world.disk seq io with hr | ⟨f, hf, hr⟩
    · simp only [hr]
      exact ⟨rfl, rfl, rfl⟩
    · simp only [hr]
      have hstate := ensureOpen_txnState l.world.store l.world.disk seq f (io.openCalls seq)
      obtain ⟨g, hg | hg⟩ := ensureOpen_store l.world.store l.world.disk seq f (io.openCalls seq)
      · exact ⟨congrArg _ hg, congrArg _ hg, hstate⟩
      · exact ⟨(congrArg recentlyCommittedSequencePositions hg).trans rfl,
          (congrArg lastWrittenFlushedPosition hg).trans rfl, hstate⟩
  | findPosition timestamp io =>
    obtain rfl := Option.some.inj h
    obtain ⟨files, hf, -⟩ := findPosition_store cfg l.world.store l.world.disk timestamp io
    rw [hf]
    exact ⟨⟨rfl, rfl, rfl⟩, rfl⟩
  | purge all before io =>
    simp only [Life.stepOpen] at h
    split_ifs at h
    obtain rfl := Option.some.inj h
    exact ⟨doPurge_flushSame (hpurge all before io rfl), rfl⟩
  | close io =>
    simp only [Life.stepOpen] at h
    split_ifs at h
    obtain rfl := Option.some.inj h
    cases hend
  | crash =>
    obtain rfl := Option.some.inj h
    cases hend

/-- A run of one directory with each sample marked by the number of the commit that recorded it,
0 for none, and the number of the newest sample that a flush has found. -/
structure Flushing where
  life : Life := {}
  marks : List (ℕ × SequencePosition) := List.replicate RECENTLY_COMMITTED_POSITIONS_SIZE (0, ⟨NO_SEQUENCE, ⟨0, 0⟩⟩)
  commits : ℕ := 0
  found : ℕ := 0

namespace Flushing

/-- The number of the newest sample that a flush with this number covers. -/
def newestCovered (y : Flushing) (rocksSequenceNumber : ℕ) : ℕ :=
  (y.marks.filter fun m => m.2.rocksSequenceNumber ≤ rocksSequenceNumber).foldr (fun m n => max m.1 n) 0

/-- The marks move with the samples; a new store has none. -/
def step (cfg : StoreConfig) (y : Flushing) (e : Event) : Option Flushing :=
  (y.life.step cfg e).map fun life =>
    match e with
    | .commitFinished _ seq => { y with
        life := life
        marks := y.marks.set (sampleIndex y.life.world.store.nextSequencePositionsCount)
          (y.commits + 1, ⟨seq, life.world.store.lastCommittedPosition⟩)
        commits := y.commits + 1 }
    | .flushScan seq => { y with life := life, found := max y.found (y.newestCovered seq) }
    | .create => { life := life }
    | .load _ _ => { life := life }
    | _ => { y with life := life }

def flushed (y : Flushing) : LogPosition := getLastFlushedPosition y.life.world.disk

/-- What a step has to meet. The watermark a commit publishes is not below the earlier samples
and the flushed position. A flush still finds a sample that it covers and that is no older than
the newest one found before, and flushes write in the order in which they looked. A purge leaves
`txn.state`. -/
def FlushOk (cfg : StoreConfig) (y : Flushing) : Event → Prop
  | .commitFinished position _ =>
    (∀ m ∈ y.marks, m.2.position ≤ (y.life.world.store.commitAborted position).lastCommittedPosition) ∧
      y.flushed ≤ (y.life.world.store.commitAborted position).lastCommittedPosition
  | .flushScan seq => y.found = 0 ∨ ∃ m ∈ y.marks, y.found ≤ m.1 ∧ m.2.rocksSequenceNumber ≤ seq
  | .flushWrite k => k + 1 = y.life.flushes.length
  | .purge all before io =>
    (y.life.world.store.doPurge cfg y.life.world.disk all before io).2.txnState = y.life.world.disk.txnState
  | _ => True

instance (cfg : StoreConfig) (y : Flushing) : ∀ e : Event, Decidable (FlushOk cfg y e)
  | .commitFinished position _ => inferInstanceAs (Decidable
      ((∀ m ∈ y.marks, m.2.position ≤ (y.life.world.store.commitAborted position).lastCommittedPosition) ∧
        y.flushed ≤ (y.life.world.store.commitAborted position).lastCommittedPosition))
  | .flushScan seq =>
    inferInstanceAs (Decidable (y.found = 0 ∨ ∃ m ∈ y.marks, y.found ≤ m.1 ∧ m.2.rocksSequenceNumber ≤ seq))
  | .flushWrite k => inferInstanceAs (Decidable (k + 1 = y.life.flushes.length))
  | .purge all before io => inferInstanceAs (Decidable
      ((y.life.world.store.doPurge cfg y.life.world.disk all before io).2.txnState = y.life.world.disk.txnState))
  | .beginWrite _ => isTrue trivial
  | .writer _ => isTrue trivial
  | .commitAborted _ => isTrue trivial
  | .getLastCommittedPosition => isTrue trivial
  | .getLogFileSize _ _ => isTrue trivial
  | .findPosition _ _ => isTrue trivial
  | .load _ _ => isTrue trivial
  | .create => isTrue trivial
  | .close _ => isTrue trivial
  | .crash => isTrue trivial

/-- The flushes in progress, newest first, and what was written last. -/
def chain (y : Flushing) : List LogPosition := y.life.flushes ++ [y.life.world.store.lastWrittenFlushedPosition]

/-- The marks belong to the samples and order their positions; the flushes in progress follow
one another and what is written, behind every sample they could still find. -/
structure Inv (y : Flushing) : Prop where
  samples : y.life.world.store.recentlyCommittedSequencePositions = y.marks.map Prod.snd
  length : y.marks.length = RECENTLY_COMMITTED_POSITIONS_SIZE
  le_commits : ∀ m ∈ y.marks, m.1 ≤ y.commits
  none : ∀ m ∈ y.marks, m.1 = 0 → m.2.position = ⟨0, 0⟩
  order : ∀ m ∈ y.marks, ∀ n ∈ y.marks, m.1 ≤ n.1 → m.2.position ≤ n.2.position
  chain : y.chain.Pairwise (· ≥ ·)
  sampled : ∀ p ∈ y.chain, p = ⟨0, 0⟩ ∨ ∃ m ∈ y.marks, p ≤ m.2.position
  ahead : ∀ m ∈ y.marks, m.1 ≠ 0 → y.found ≤ m.1 → y.flushed ≤ m.2.position ∧ ∀ p ∈ y.chain, p ≤ m.2.position
  flushed : ∀ p ∈ y.life.flushes, p = ⟨0, 0⟩ ∨ y.flushed ≤ p
  unfound : y.found = 0 → ∀ p ∈ y.chain, p = ⟨0, 0⟩

theorem le_newestCovered {y : Flushing} {seq : ℕ} {m : ℕ × SequencePosition} (hm : m ∈ y.marks)
    (hle : m.2.rocksSequenceNumber ≤ seq) : m.1 ≤ y.newestCovered seq := by
  unfold newestCovered
  have hmem : m ∈ y.marks.filter fun m => m.2.rocksSequenceNumber ≤ seq := List.mem_filter.mpr ⟨hm, by simpa using hle⟩
  generalize y.marks.filter (fun m => decide (m.2.rocksSequenceNumber ≤ seq)) = l at hmem
  induction l with
  | nil => cases hmem
  | cons n l ih =>
    rw [List.foldr_cons]
    rcases List.mem_cons.mp hmem with rfl | hmem
    · exact le_max_left _ _
    · exact (ih hmem).trans (le_max_right _ _)

section
variable {cfg : StoreConfig} {y y' : Flushing}

theorem inv_same (hi : Inv y)
    (hs : FlushSame y.life.world.store y'.life.world.store y.life.world.disk y'.life.world.disk)
    (hf : y'.life.flushes = y.life.flushes) (hm : y'.marks = y.marks) (hc : y'.commits = y.commits)
    (hn : y'.found = y.found) :
    Inv y' ∧ y'.flushed = y.flushed := by
  have hF : y'.flushed = y.flushed := by
    rw [Flushing.flushed, Flushing.flushed, getLastFlushedPosition, hs.txnState]; rfl
  have hch : y'.chain = y.chain := by rw [Flushing.chain, Flushing.chain, hf, hs.written]
  refine ⟨⟨?_, ?_, ?_, ?_, ?_, ?_, ?_, ?_, ?_, ?_⟩, hF⟩
  · rw [hs.samples, hm]
    exact hi.samples
  · rw [hm]
    exact hi.length
  · rw [hm, hc]
    exact hi.le_commits
  · rw [hm]
    exact hi.none
  · rw [hm]
    exact hi.order
  · rw [hch]
    exact hi.chain
  · rw [hch, hm]
    exact hi.sampled
  · rw [hm, hn, hF, hch]
    exact hi.ahead
  · rw [hf, hF]
    exact hi.flushed
  · rw [hn, hch]
    exact hi.unfound

/-- A store with no samples and nothing written. -/
theorem inv_new (hs : y.life.world.store.recentlyCommittedSequencePositions =
      List.replicate RECENTLY_COMMITTED_POSITIONS_SIZE ⟨NO_SEQUENCE, ⟨0, 0⟩⟩)
    (hw : y.life.world.store.lastWrittenFlushedPosition = ⟨0, 0⟩) (hf : y.life.flushes = [])
    (hm : y.marks = List.replicate RECENTLY_COMMITTED_POSITIONS_SIZE (0, ⟨NO_SEQUENCE, ⟨0, 0⟩⟩)) : Inv y := by
  have hmark : ∀ m ∈ y.marks, m = (0, ⟨NO_SEQUENCE, ⟨0, 0⟩⟩) := by
    rw [hm]
    exact fun m h => List.eq_of_mem_replicate h
  have hch : y.chain = [⟨0, 0⟩] := by rw [Flushing.chain, hf, hw]; rfl
  refine ⟨?_, ?_, ?_, ?_, ?_, ?_, ?_, ?_, ?_, ?_⟩
  · rw [hs, hm, List.map_replicate]
  · rw [hm, List.length_replicate]
  · intro m h
    rw [hmark m h]
    exact Nat.zero_le _
  · intro m h _
    rw [hmark m h]
  · intro m h n h' _
    rw [hmark m h, hmark n h']
  · rw [hch]
    exact List.pairwise_singleton _ _
  · intro p hp
    rw [hch] at hp
    exact Or.inl (List.mem_singleton.mp hp)
  · intro m h hne
    rw [hmark m h] at hne
    exact absurd rfl hne
  · intro p hp
    rw [hf] at hp
    cases hp
  · intro _ p hp
    rw [hch] at hp
    exact List.mem_singleton.mp hp

theorem inv_commit {position : LogPosition} {seq : ℕ} (hi : Inv y) (hok : FlushOk cfg y (.commitFinished position seq))
    (hl : y'.life = y.life.withStore (y.life.world.store.commitFinished position seq))
    (hm : y'.marks = y.marks.set (sampleIndex y.life.world.store.nextSequencePositionsCount)
      (y.commits + 1, ⟨seq, y'.life.world.store.lastCommittedPosition⟩))
    (hc : y'.commits = y.commits + 1) (hn : y'.found = y.found) : Inv y' ∧ y.flushed ≤ y'.flushed := by
  set W := (y.life.world.store.commitAborted position).lastCommittedPosition with hW
  have hW' : y'.life.world.store.lastCommittedPosition = W := by rw [hl]; rfl
  rw [hW'] at hm
  obtain ⟨habove, hflushed⟩ := hok
  have hF : y'.flushed = y.flushed := by rw [Flushing.flushed, hl]; rfl
  have hch : y'.chain = y.chain := by rw [Flushing.chain, hl]; rfl
  have hfl : y'.life.flushes = y.life.flushes := by rw [hl]; rfl
  have hmem : ∀ m ∈ y'.marks, m = (y.commits + 1, ⟨seq, W⟩) ∨ m ∈ y.marks := by
    intro m h
    rw [hm] at h
    exact (List.mem_or_eq_of_mem_set h).symm
  -- every position in the chain is that of a sample, so not above the new watermark
  have hchain : ∀ p ∈ y.chain, p ≤ W := by
    intro p hp
    rcases hi.sampled p hp with rfl | ⟨m, hmm, hle⟩
    · exact LogPosition.zero_le _
    · exact hle.trans (habove m hmm)
  refine ⟨⟨?_, ?_, ?_, ?_, ?_, ?_, ?_, ?_, ?_, ?_⟩, hF.ge⟩
  · rw [hl, hm, List.map_set, ← hi.samples]
    rfl
  · rw [hm, List.length_set]
    exact hi.length
  · intro m h
    rw [hc]
    rcases hmem m h with rfl | h
    · exact le_rfl
    · exact (hi.le_commits m h).trans (Nat.le_succ _)
  · intro m h h0
    rcases hmem m h with rfl | h
    · cases h0
    · exact hi.none m h h0
  · intro m h n h' hle
    rcases hmem m h with rfl | h
    · rcases hmem n h' with rfl | h'
      · exact le_rfl
      · have := hi.le_commits n h'
        simp only at hle
        omega
    · rcases hmem n h' with rfl | h'
      · exact habove m h
      · exact hi.order m h n h' hle
  · rw [hch]
    exact hi.chain
  · intro p hp
    rw [hch] at hp
    refine Or.inr ⟨(y.commits + 1, ⟨seq, W⟩), ?_, hchain p hp⟩
    rw [hm]
    exact List.mem_set (hi.length ▸ sampleIndex_lt _) _
  · rw [hn, hF, hch]
    intro m h hne hle
    rcases hmem m h with rfl | h
    · exact ⟨hflushed, hchain⟩
    · exact hi.ahead m h hne hle
  · rw [hfl, hF]
    exact hi.flushed
  · rw [hn, hch]
    exact hi.unfound

/-- What the sample behind a flush's position says of it. -/
theorem found_sample (hi : Inv y) (seq : ℕ) : y.life.world.store.latestSequencePosition seq = ⟨0, 0⟩ ∨
    ∃ m ∈ y.marks, m.1 ≠ 0 ∧ m.2.rocksSequenceNumber ≤ seq ∧
      m.2.position = y.life.world.store.latestSequencePosition seq := by
  rcases latestSequencePosition_spec y.life.world.store seq with hz | ⟨sp, hsp, hle, he⟩
  · exact Or.inl hz
  · rw [hi.samples] at hsp
    obtain ⟨m, hm, rfl⟩ := List.mem_map.mp hsp
    by_cases h0 : m.1 = 0
    · exact Or.inl (he.symm.trans (hi.none m hm h0))
    · exact Or.inr ⟨m, hm, h0, hle, he⟩

theorem inv_scan {seq : ℕ} (hi : Inv y) (hok : FlushOk cfg y (.flushScan seq))
    (hl : y'.life = { y.life with flushes := y.life.world.store.latestSequencePosition seq :: y.life.flushes })
    (hm : y'.marks = y.marks) (hc : y'.commits = y.commits) (hn : y'.found = max y.found (y.newestCovered seq)) :
    Inv y' ∧ y.flushed ≤ y'.flushed := by
  set P := y.life.world.store.latestSequencePosition seq with hP
  have hF : y'.flushed = y.flushed := by rw [Flushing.flushed, hl]; rfl
  have hfl : y'.life.flushes = P :: y.life.flushes := by rw [hl]
  have hch : y'.chain = P :: y.chain := by rw [Flushing.chain, hl]; rfl
  have hfound := found_sample hi seq
  rw [← hP] at hfound
  -- what the flush finds is not below what was found before
  have hle : ∀ p ∈ y.chain, p ≤ P := by
    intro p hp
    rcases hok with h0 | ⟨m, hmm, hnew, hcov⟩
    · rw [hi.unfound h0 p hp]
      exact LogPosition.zero_le _
    · by_cases h0 : m.1 = 0
      · rw [hi.unfound (by omega) p hp]
        exact LogPosition.zero_le _
      · refine ((hi.ahead m hmm h0 hnew).2 p hp).trans (le_latestSequencePosition ?_ hcov)
        rw [hi.samples]
        exact List.mem_map_of_mem hmm
  have hflushedP : P = ⟨0, 0⟩ ∨ y.flushed ≤ P := by
    by_cases h0 : P = ⟨0, 0⟩
    · exact Or.inl h0
    obtain ⟨m, hmm, hne, hcov, he⟩ := hfound.resolve_left h0
    rcases hok with hz | ⟨n, hnn, hnew, hcov'⟩
    · exact Or.inr ((hi.ahead m hmm hne (hz ▸ Nat.zero_le _)).1.trans he.le)
    · by_cases hn0 : n.1 = 0
      · exact Or.inr ((hi.ahead m hmm hne (by omega)).1.trans he.le)
      · refine Or.inr ((hi.ahead n hnn hn0 hnew).1.trans (le_latestSequencePosition ?_ hcov'))
        rw [hi.samples]
        exact List.mem_map_of_mem hnn
  refine ⟨⟨?_, ?_, ?_, ?_, ?_, ?_, ?_, ?_, ?_, ?_⟩, hF.ge⟩
  · rw [hl, hm]
    exact hi.samples
  · rw [hm]
    exact hi.length
  · rw [hm, hc]
    exact hi.le_commits
  · rw [hm]
    exact hi.none
  · rw [hm]
    exact hi.order
  · rw [hch]
    exact List.pairwise_cons.mpr ⟨hle, hi.chain⟩
  · rw [hch, hm]
    intro p hp
    rcases List.mem_cons.mp hp with rfl | hp
    · exact hfound.imp_right fun ⟨m, hmm, _, _, he⟩ => ⟨m, hmm, he.ge⟩
    · exact hi.sampled p hp
  · rw [hm, hn, hF, hch]
    intro n hnn hne hge
    obtain ⟨h1, h2⟩ := hi.ahead n hnn hne ((le_max_left _ _).trans hge)
    refine ⟨h1, fun p hp => ?_⟩
    rcases List.mem_cons.mp hp with rfl | hp
    · rcases hfound with h0 | ⟨m, hmm, -, hcov, he⟩
      · rw [h0]
        exact LogPosition.zero_le _
      · rw [← he]
        exact hi.order m hmm n hnn ((le_newestCovered hmm hcov).trans ((le_max_right _ _).trans hge))
    · exact h2 p hp
  · rw [hfl, hF]
    intro p hp
    rcases List.mem_cons.mp hp with rfl | hp
    · exact hflushedP
    · exact hi.flushed p hp
  · rw [hn, hch]
    intro h0 p hp
    have h1 : y.found = 0 := by omega
    have h2 : y.newestCovered seq = 0 := by omega
    rcases List.mem_cons.mp hp with rfl | hp
    · rcases hfound with hz | ⟨m, hmm, hne, hcov, -⟩
      · exact hz
      · have := le_newestCovered hmm hcov
        omega
    · exact hi.unfound h1 p hp

theorem eraseIdx_last {α : Type*} {l : List α} {k : ℕ} {x : α} (hk : k + 1 = l.length) (hx : l[k]? = some x) :
    l = l.eraseIdx k ++ [x] := by
  induction l generalizing k with
  | nil => cases hx
  | cons a l ih =>
    cases k with
    | zero =>
      obtain rfl : l = [] := List.length_eq_zero_iff.mp (by simpa using hk.symm)
      simpa using hx
    | succ k =>
      rw [List.eraseIdx_cons_succ, List.cons_append, ← ih (by simpa using hk) (by simpa using hx)]

/-- The oldest flush in progress writes what it found: it follows what was written last. -/
theorem inv_write {k : ℕ} {position : LogPosition} (hi : Inv y) (hk : k + 1 = y.life.flushes.length)
    (hp : y.life.flushes[k]? = some position)
    (hl : y'.life = { y.life.moveTo { y.life.world with
        store := (y.life.world.store.writeFlushedPosition y.life.world.disk position).1
        disk := (y.life.world.store.writeFlushedPosition y.life.world.disk position).2 } with
      flushes := y.life.flushes.eraseIdx k })
    (hm : y'.marks = y.marks) (hc : y'.commits = y.commits) (hn : y'.found = y.found) :
    Inv y' ∧ y.flushed ≤ y'.flushed := by
  have hsplit := eraseIdx_last hk hp
  have hfl : y'.life.flushes = y.life.flushes.eraseIdx k := by rw [hl]
  have hmem : position ∈ y.life.flushes := List.mem_of_getElem? hp
  set s := y.life.world.store
  set d := y.life.world.disk
  have hsamples : y'.life.world.store.recentlyCommittedSequencePositions = s.recentlyCommittedSequencePositions := by
    obtain ⟨stream, written, state, hw⟩ := writeFlushedPosition_cases s d position
    rw [hl, hw]
    rfl
  have hchain := hi.chain
  rw [Flushing.chain, hsplit, List.append_assoc] at hchain
  -- the two members at the end: the flush that writes now and the one that wrote last
  have hlast : s.lastWrittenFlushedPosition ≤ position := by
    have h2 := (List.pairwise_append.mp hchain).2.1
    exact (List.pairwise_cons.mp h2).1 _ List.mem_cons_self
  have hnew : ∀ p ∈ y.life.flushes.eraseIdx k, position ≤ p := fun p hpm =>
    (List.pairwise_append.mp hchain).2.2 p hpm position List.mem_cons_self
  have hwritten : (y'.life.world.store.lastWrittenFlushedPosition = s.lastWrittenFlushedPosition ∨
      y'.life.world.store.lastWrittenFlushedPosition = position) ∧
      (y'.flushed = y.flushed ∨ y'.flushed = position ∧ position ≠ ⟨0, 0⟩) := by
    have hst : y'.life.world.store = (s.writeFlushedPosition d position).1 := by rw [hl]; rfl
    have hdk : y'.life.world.disk = (s.writeFlushedPosition d position).2 := by rw [hl]; rfl
    rw [Flushing.flushed, Flushing.flushed, getLastFlushedPosition, getLastFlushedPosition, hst, hdk]
    rcases writeFlushedPosition_writes s d position with ⟨h1, h2⟩ | ⟨hne, h1, h2⟩
    · rw [h1, h2]
      exact ⟨Or.inl rfl, Or.inl rfl⟩
    · refine ⟨Or.inr h1, ?_⟩
      rcases h2 with h2 | h2
      · rw [h2]
        refine Or.inr ⟨rfl, fun h0 => hne ?_⟩
        rw [h0] at hlast ⊢
        exact le_antisymm (LogPosition.zero_le _) hlast
      · rw [h2]
        exact Or.inl rfl
  have hF : y.flushed ≤ y'.flushed := by
    rcases hwritten.2 with he | ⟨he, hne⟩
    · exact he.ge
    · rw [he]
      exact (hi.flushed position hmem).resolve_left hne
  have hmem' : ∀ p ∈ y'.chain, p ∈ y.chain := by
    intro p hpm
    rw [Flushing.chain, hfl] at hpm
    rw [Flushing.chain]
    rcases List.mem_append.mp hpm with hpm | hpm
    · exact List.mem_append_left _ (List.mem_of_mem_eraseIdx hpm)
    · rw [List.mem_singleton.mp hpm]
      rcases hwritten.1 with he | he
      · rw [he]
        exact List.mem_append_right _ List.mem_cons_self
      · rw [he]
        exact List.mem_append_left _ hmem
  refine ⟨⟨?_, ?_, ?_, ?_, ?_, ?_, ?_, ?_, ?_, ?_⟩, hF⟩
  · rw [hsamples, hm]
    exact hi.samples
  · rw [hm]
    exact hi.length
  · rw [hm, hc]
    exact hi.le_commits
  · rw [hm]
    exact hi.none
  · rw [hm]
    exact hi.order
  · rw [Flushing.chain, hfl]
    refine List.pairwise_append.mpr ⟨(List.pairwise_append.mp hchain).1,
      List.pairwise_singleton _ _, fun p hpm q hq => ?_⟩
    rw [List.mem_singleton.mp hq]
    rcases hwritten.1 with he | he
    · rw [he]
      exact hlast.trans (hnew p hpm)
    · rw [he]
      exact hnew p hpm
  · rw [hm]
    exact fun p hpm => hi.sampled p (hmem' p hpm)
  · rw [hm, hn]
    intro m hmm hne hle
    obtain ⟨h1, h2⟩ := hi.ahead m hmm hne hle
    refine ⟨?_, fun p hpm => h2 p (hmem' p hpm)⟩
    rcases hwritten.2 with he | ⟨he, -⟩
    · rw [he]
      exact h1
    · rw [he]
      exact h2 position (List.mem_append_left _ hmem)
  · rw [hfl]
    intro p hpm
    rcases hwritten.2 with he | ⟨he, -⟩
    · rw [he]
      exact hi.flushed p (List.mem_of_mem_eraseIdx hpm)
    · rw [he]
      exact Or.inr (hnew p hpm)
  · rw [hn]
    exact fun h0 p hpm => hi.unfound h0 p (hmem' p hpm)

theorem load_txnState (cfg : StoreConfig) (d : Disk) (order : List ℕ) (io : FilesCalls) :
    (load cfg d order io).2.txnState = d.txnState := by
  have hscan := scan_txnState cfg io order ({}, d)
  unfold load
  generalize order.foldl (loadFile cfg io) ({}, d) = sd at hscan
  simp only
  cases hf : sd.1.sequenceFiles.get? sd.1.currentSequenceNumber with
  | none => exact hscan
  | some f =>
    have hopen := ensureOpen_txnState sd.1 sd.2 sd.1.currentSequenceNumber f (io.openCalls sd.1.currentSequenceNumber)
    simp only
    split
    · exact hopen.trans hscan
    · exact hopen.trans hscan

theorem load_new {d d' : Disk} {order : List ℕ} {io : FilesCalls} {s : TransactionLogStore}
    (h : load cfg d order io = (some s, d')) : s.recentlyCommittedSequencePositions =
      List.replicate RECENTLY_COMMITTED_POSITIONS_SIZE ⟨NO_SEQUENCE, ⟨0, 0⟩⟩ ∧ s.lastWrittenFlushedPosition = ⟨0, 0⟩ ∧
      s.nextSequencePositionsCount = 0 := by
  have hshape := scan_scanned cfg io order ({}, d) ⟨_, _, _, _, rfl⟩
  unfold load at h
  generalize order.foldl (loadFile cfg io) ({}, d) = sd at hshape h
  simp only at h
  cases hf : sd.1.sequenceFiles.get? sd.1.currentSequenceNumber with
  | none =>
    simp only [hf, Prod.mk.injEq, Option.some.injEq] at h
    obtain ⟨_, _, _, _, hs⟩ := hshape
    rw [← h.1, hs]
    exact ⟨rfl, rfl, rfl⟩
  | some f =>
    simp only [hf] at h
    obtain ⟨_, _, _, _, hs⟩ := ensureOpen_scanned hshape sd.2 sd.1.currentSequenceNumber f
      (io.openCalls sd.1.currentSequenceNumber)
    split at h
    · cases h
    · simp only [Prod.mk.injEq, Option.some.injEq] at h
      rw [← h.1, hs]
      exact ⟨rfl, rfl, rfl⟩

/-- Where no store is open no flush is in progress. -/
structure Held (y : Flushing) : Prop where
  opened : y.life.isOpen = true → Inv y
  closed : y.life.isOpen = false → y.life.flushes = []

theorem stepOpen_held {e : Event} {life : Life} (hi : Inv y) (hopen : y.life.isOpen = true) (hok : FlushOk cfg y e)
    (h : y.life.stepOpen cfg e = some life) (hy : step cfg y e = some y') : Held y' ∧ y.flushed ≤ y'.flushed := by
  have hstep : y.life.step cfg e = some life := by rw [Life.step, if_pos hopen]; exact h
  simp only [step, hstep, Option.map_some, Option.some.injEq] at hy
  have hheld : ∀ (hinv : Inv y' ∧ y.flushed ≤ y'.flushed), y'.life.isOpen = true → Held y' ∧ y.flushed ≤ y'.flushed :=
    fun hinv ho => ⟨⟨fun _ => hinv.1, fun hc => absurd (ho.symm.trans hc) (by decide)⟩, hinv.2⟩
  -- the steps that leave the marks and what the flush reads and writes
  have hother : ∀ (hp : ∀ all before io, e = .purge all before io →
        (y.life.world.store.doPurge cfg y.life.world.disk all before io).2.txnState = y.life.world.disk.txnState)
      (he : ∀ position seq, e ≠ .commitFinished position seq) (hs : ∀ seq, e ≠ .flushScan seq)
      (hw : ∀ k, e ≠ .flushWrite k) (ho : life.isOpen = true) (hy' : y' = { y with life := life }),
      Held y' ∧ y.flushed ≤ y'.flushed := by
    rintro hp he hs hw ho rfl
    obtain ⟨hsame, hfl⟩ := stepOpen_flushSame h hp he hs hw ho
    have hsame' : Inv { y with life := life } ∧ Flushing.flushed { y with life := life } = y.flushed :=
      inv_same hi hsame hfl rfl rfl rfl
    obtain ⟨h1, h2⟩ := hsame'
    exact hheld ⟨h1, h2.ge⟩ ho
  cases e with
  | create => cases h
  | load order io => cases h
  | commitFinished position seq =>
    obtain rfl := Option.some.inj h
    subst hy
    refine hheld ?_ hopen
    exact inv_commit hi hok rfl rfl rfl rfl
  | flushScan seq =>
    obtain rfl := Option.some.inj h
    subst hy
    exact hheld (inv_scan hi hok rfl rfl rfl rfl) hopen
  | flushWrite k =>
    simp only [Life.stepOpen, Option.map_eq_some_iff] at h
    obtain ⟨position, hp, rfl⟩ := h
    subst hy
    exact hheld (inv_write hi hok hp rfl rfl rfl rfl) hopen
  | close io =>
    simp only [Life.stepOpen] at h
    split_ifs at h
    obtain rfl := Option.some.inj h
    subst hy
    refine ⟨⟨fun ho => absurd ho Bool.false_ne_true, fun _ => rfl⟩, ?_⟩
    rw [Flushing.flushed, Flushing.flushed]
    simp only [Life.moveTo, (doClose_disk cfg y.life.world.store y.life.world.disk io).1]
    exact le_rfl
  | crash =>
    obtain rfl := Option.some.inj h
    subst hy
    exact ⟨⟨fun ho => absurd ho Bool.false_ne_true, fun _ => rfl⟩, le_rfl⟩
  | purge all before io =>
    have ho : life.isOpen = true := by
      simp only [Life.stepOpen] at h
      split_ifs at h
      obtain rfl := Option.some.inj h
      exact hopen
    refine hother (fun a b i he => ?_) (by simp) (by simp) (by simp) ho hy.symm
    cases he
    exact hok
  | beginWrite batch =>
    have ho : life.isOpen = true := by
      simp only [Life.stepOpen] at h
      split_ifs at h
      obtain rfl := Option.some.inj h
      exact hopen
    exact hother (by simp) (by simp) (by simp) (by simp) ho hy.symm
  | writer io =>
    have ho : life.isOpen = true := by
      simp only [Life.stepOpen, Option.map_eq_some_iff] at h
      obtain ⟨w', -, rfl⟩ := h
      exact hopen
    exact hother (by simp) (by simp) (by simp) (by simp) ho hy.symm
  | _ =>
    have ho : life.isOpen = true := by
      obtain rfl := Option.some.inj h
      exact hopen
    exact hother (by simp) (by simp) (by simp) (by simp) ho hy.symm

theorem stepClosed_held {e : Event} {life : Life} (hi : Held y) (hclosed : y.life.isOpen = false)
    (h : y.life.stepClosed cfg e = some life) (hy : step cfg y e = some y') : Held y' ∧ y.flushed ≤ y'.flushed := by
  have hstep : y.life.step cfg e = some life := by
    rw [Life.step, hclosed]
    exact h
  simp only [step, hstep, Option.map_some, Option.some.injEq] at hy
  have hfl := hi.closed hclosed
  cases e with
  | create =>
    simp only [Life.stepClosed] at h
    split_ifs at h
    obtain rfl := Option.some.inj h
    subst hy
    exact ⟨⟨fun _ => inv_new rfl rfl hfl rfl, fun _ => hfl⟩, le_rfl⟩
  | load order io =>
    have hstate := load_txnState cfg y.life.world.disk order io
    simp only [Life.stepClosed] at h
    split_ifs at h
    cases hl : TransactionLogStore.load cfg y.life.world.disk order io with
    | mk s d =>
      rw [hl] at h hstate
      cases s with
      | none =>
        obtain rfl := Option.some.inj h
        subst hy
        refine ⟨⟨fun ho => absurd (ho.symm.trans hclosed) (by decide), fun _ => hfl⟩, ?_⟩
        rw [Flushing.flushed, Flushing.flushed, getLastFlushedPosition, getLastFlushedPosition]
        simp only [Life.moveTo]
        rw [hstate]
      | some s =>
        obtain rfl := Option.some.inj h
        subst hy
        obtain ⟨h1, h2, -⟩ := load_new hl
        refine ⟨⟨fun _ => inv_new h1 h2 hfl rfl, fun _ => hfl⟩, ?_⟩
        rw [Flushing.flushed, Flushing.flushed, getLastFlushedPosition, getLastFlushedPosition]
        simp only [Life.moveTo]
        rw [hstate]
  | _ => cases h

theorem step_held {e : Event} (hi : Held y) (hok : FlushOk cfg y e) (h : step cfg y e = some y') :
    Held y' ∧ y.flushed ≤ y'.flushed := by
  have h' := h
  simp only [step, Option.map_eq_some_iff] at h'
  obtain ⟨life, hlife, -⟩ := h'
  unfold Life.step at hlife
  split_ifs at hlife with ho
  · exact stepOpen_held (hi.opened ho) ho hok hlife h
  · exact stepClosed_held hi (Bool.not_eq_true _ ▸ ho) hlife h

/-- From any state that steps which all meet the condition have led to, along further such
steps: the position in `txn.state` never falls. -/
theorem flushed_never_falls {es later : List Event} (hrun : Runs.exec (step cfg) {} es = some y)
    (hall : Runs.Along (step cfg) (FlushOk cfg) {} es) (hrun' : Runs.exec (step cfg) y later = some y')
    (hall' : Runs.Along (step cfg) (FlushOk cfg) y later) : y.flushed ≤ y'.flushed := by
  have h0 : Held {} := ⟨fun ho => absurd ho Bool.false_ne_true, fun _ => rfl⟩
  have hi : Held y := Runs.exec_invariant (fun _ _ _ hi ho hs => (step_held hi ho hs).1) h0 hall hrun
  have hstep : ∀ u e v, (Held u ∧ y.flushed ≤ u.flushed) → FlushOk cfg u e → step cfg u e = some v →
      Held v ∧ y.flushed ≤ v.flushed := by
    intro u e v hu ho hs
    obtain ⟨h1, h2⟩ := step_held hu.1 ho hs
    exact ⟨h1, hu.2.trans h2⟩
  exact (Runs.exec_invariant hstep ⟨hi, le_rfl⟩ hall' hrun').2

end

/-- Batch `k` of four equal ones, written and committed with number `k + 1`. -/
def committed (k : ℕ) (position : LogPosition) : List Event :=
  (.beginWrite ⟨⟨5⟩, [oneByteEntry 7], 0⟩ :: List.replicate 8 (.writer { results := [.count 14] })) ++
    [.commitFinished position (k + 1)]

/-- The state after two commits and a flush that covers both. -/
def flushedTwo : List Event := .create :: committed 0 ⟨0, 1⟩ ++ committed 1 ⟨27, 1⟩ ++ [.flushScan 2, .flushWrite 0]

/-- Two overlapping flushes that write in order, behind two more commits. -/
def overlapping : List Event :=
  committed 2 ⟨41, 1⟩ ++ [.flushScan 3] ++ committed 3 ⟨55, 1⟩ ++ [.flushScan 4, .flushWrite 1, .flushWrite 0]

theorem flushed_never_falls_overlapping : ∃ y y', Runs.exec (step ⟨200, 0, none⟩) {} flushedTwo = some y ∧
    Runs.exec (step ⟨200, 0, none⟩) y overlapping = some y' ∧ y.flushed = ⟨41, 1⟩ ∧ y'.flushed = ⟨69, 1⟩ ∧
    y.flushed ≤ y'.flushed := by
  have hrun := Runs.exec_final (step ⟨200, 0, none⟩) {} flushedTwo (by decide +kernel)
  have hrun' := Runs.exec_final (step ⟨200, 0, none⟩) (Runs.final (step ⟨200, 0, none⟩) {} flushedTwo) overlapping
    (by decide +kernel)
  refine ⟨_, _, hrun, hrun', by decide +kernel, by decide +kernel, ?_⟩
  exact flushed_never_falls hrun (by decide +kernel) hrun' (by decide +kernel)

/-- Two commits later the sample is overwritten, and the same flush goes back to the first. -/
def flushedAgain : List Event := committed 2 ⟨41, 1⟩ ++ committed 3 ⟨55, 1⟩ ++ [.flushScan 2, .flushWrite 0]

theorem flushed_falls : ∃ y y', Runs.exec (step ⟨200, 0, none⟩) {} flushedTwo = some y ∧
    Runs.exec (step ⟨200, 0, none⟩) y flushedAgain = some y' ∧ ¬ y.flushed ≤ y'.flushed := by
  refine ⟨_, _, Runs.exec_final _ _ _ ?_, Runs.exec_final _ _ _ ?_, ?_⟩
  all_goals decide +kernel

end Flushing

end RocksdbJs
