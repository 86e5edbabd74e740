import RocksdbJs.Sanity.Iterators
import RocksdbJs.Proofs.WatermarkOrder
import RocksdbJs.Spec.Querying

/-! What a committed reader may yield. The limit of an iterator is taken from the watermark in
two of the three places where it enters a file; the third, after an entry out of the range at
the end of a file, takes the size of the next file even when that is the watermark's own. -/

namespace RocksdbJs

open TransactionLogStore

namespace Reading

/-- The reader as a query finds it, the watermark initialised by the first one. -/
def firstQuery (y : Reading) : Reading :=
  if y.log.queried then y
  else { y with
    store := y.store.getLastCommittedPosition y.disk
    log := { y.log with queried := true, logBuffers := SeqMap.empty } }

/-- The file that the flushed position or the lookup of a timestamp gives a query to start in. -/
def startFile (cfg : StoreConfig) (y : Reading) (options : TransactionLogQueryOptions) (io : ReadCalls) : Option ℕ :=
  let find (timestamp : Binary64) : Option ℕ :=
    (y.store.findPositionByTimestamp cfg y.disk timestamp io).1.toOption.map LogPosition.logSequenceNumber
  if options.startFromLastFlushed then
    let flushed := getLastFlushedPosition y.disk
    if flushed.isZero then find Binary64.zero else some flushed.logSequenceNumber
  else options.start.bind find

/-- Within the call, the loop of `next` passes an entry out of the range at the end of a file
and goes on in the watermark's file, which is longer than the watermark. -/
def overrun : LoopTrap where
  leaves _ _ := false
  enters y logId size :=
    decide (logId = y.store.lastCommittedPosition.logSequenceNumber ∧
      y.store.lastCommittedPosition.positionInLogFile < size)
  unmapped := false

theorem overrun_enters {y : Reading} {logId size : ℕ} (h : overrun.enters y logId size = false) :
    ¬ (logId = y.store.lastCommittedPosition.logSequenceNumber ∧
      y.store.lastCommittedPosition.positionInLogFile < size) :=
  of_decide_eq_false h

def callOverruns (cfg : StoreConfig) (y : Reading) (it : LogIterator) (io : ReadCalls) : Bool :=
  callMeets overrun cfg y it io

variable {cfg : StoreConfig} {y : Reading} {it : LogIterator} {io : ReadCalls}

/-- A call moves the iterator, in the same mode, and in the committed one it stays within the watermark. -/
structure Carries (y : Reading) (it : LogIterator) (y' : Reading) (it' : LogIterator) : Prop where
  keeps : Keeps y y'
  mode : it'.readUncommitted = it.readUncommitted
  within : it.readUncommitted = false → y.Keyed → it.Within y.store.lastCommittedPosition →
    it'.Within y.store.lastCommittedPosition

theorem loadLastPosition_committed (y : Reading) (io : ReadCalls) : y.loadLastPosition false io =
    (.ok (y.store.lastCommittedPosition.logSequenceNumber, y.store.lastCommittedPosition.positionInLogFile), y) := rfl

/-- An iterator that takes the watermark for its limit and is not in a file before it. -/
theorem within_watermark {it : LogIterator} {p : LogPosition} (h : it.Within p) :
    { it with size := some p.positionInLogFile }.Within p := by
  rcases h with h | ⟨h, -⟩
  · exact Or.inl h
  · exact Or.inr ⟨h, fun size hs => (Option.some.inj hs).ge⟩

/-- An iterator that has moved on to a file, unless it is the watermark's and the limit past it. -/
theorem within_entered {it : LogIterator} {p : LogPosition} {limit : ℕ}
    (hle : it.logId ≤ p.logSequenceNumber) (hsize : it.size = some limit)
    (hno : ¬ (it.logId = p.logSequenceNumber ∧ p.positionInLogFile < limit)) : it.Within p := by
  rcases hle.lt_or_eq with hlt | heq
  · exact Or.inl hlt
  · refine Or.inr ⟨heq, fun size hs => ?_⟩
    obtain rfl := Option.some.inj (hs.symm.trans hsize)
    exact not_lt.mp fun hlt => hno ⟨heq, hlt⟩

theorem nextHead_carries (cfg : StoreConfig) (y : Reading) (it : LogIterator) (io : ReadCalls) :
    Carries y it (y.nextHead cfg it io).2.1 (y.nextHead cfg it io).2.2 := by
  unfold nextHead
  split_ifs
  · have hload := loadLastPosition_keeps y it.readUncommitted io
    -- in the committed mode the latest position is the watermark
    have hlatest : it.readUncommitted = false → (y.loadLastPosition it.readUncommitted io).1 =
        .ok (y.store.lastCommittedPosition.logSequenceNumber, y.store.lastCommittedPosition.positionInLogFile) :=
      fun hmode => by rw [hmode, loadLastPosition_committed]
    rcases hl : y.loadLastPosition it.readUncommitted io with ⟨e | ⟨latestLogId, latestSize⟩, y₁⟩
    · rw [hl] at hload
      exact ⟨hload, rfl, fun _ _ => id⟩
    rw [hl] at hload hlatest
    simp only
    have hat : it.readUncommitted = false → latestLogId = y.store.lastCommittedPosition.logSequenceNumber ∧
        latestSize = y.store.lastCommittedPosition.positionInLogFile := by
      intro hmode
      have heq := hlatest hmode
      simp only [Except.ok.injEq, Prod.mk.injEq] at heq
      exact heq
    split_ifs with hbefore
    · have hcached := cachedSize_keeps y₁ (y₁.buffer it.logId) io
      rcases hc : y₁.cachedSize (y₁.buffer it.logId) io with ⟨e | size, y₂⟩
      · rw [hc] at hcached
        exact ⟨hload.trans hcached, rfl, fun hmode _ _ => Or.inl ((hat hmode).1 ▸ hbefore)⟩
      rw [hc] at hcached
      simp only
      split_ifs
      · have hmap := getLogMemoryMap_keeps cfg y₂ (it.logId + 1) io
        have hid : ∀ b, y₂.Keyed → (y₂.getLogMemoryMap cfg (it.logId + 1) io).1 = .ok (some b) →
            b.logId = it.logId + 1 :=
          fun b hk hb => getLogMemoryMap_logId hk hb
        have hkeeps := hload.trans hcached
        rcases hm : y₂.getLogMemoryMap cfg (it.logId + 1) io with ⟨e | _ | b, y₃⟩
        · rw [hm] at hmap
          exact ⟨hkeeps.trans hmap, rfl, fun hmode _ _ => Or.inl ((hat hmode).1 ▸ hbefore)⟩
        · rw [hm] at hmap
          exact ⟨hkeeps.trans hmap, rfl, fun hmode _ _ => Or.inl ((hat hmode).1 ▸ hbefore)⟩
        rw [hm] at hmap hid
        simp only
        split_ifs with hnotlast
        · have hnext := cachedSize_keeps y₃ b io
          rcases hn : y₃.cachedSize b io with ⟨e | size', y₄⟩
          · rw [hn] at hnext
            exact ⟨hkeeps.trans (hmap.trans hnext), rfl, fun hmode _ _ => Or.inl ((hat hmode).1 ▸ hnotlast)⟩
          · rw [hn] at hnext
            exact ⟨hkeeps.trans (hmap.trans hnext), rfl, fun hmode _ _ => Or.inl ((hat hmode).1 ▸ hnotlast)⟩
        · refine ⟨hkeeps.trans hmap, rfl, fun hmode hk _ => Or.inr ⟨?_, fun size hs => ?_⟩⟩
          · have hb := hid b (hkeeps.keyed hk) rfl
            have hseq := (hat hmode).1
            simp only
            omega
          · rw [← Option.some.inj hs]
            exact (hat hmode).2.le
      · exact ⟨hload.trans hcached, rfl, fun hmode _ _ => Or.inl ((hat hmode).1 ▸ hbefore)⟩
    · refine ⟨hload, rfl, fun hmode _ hw => ?_⟩
      rw [(hat hmode).2]
      exact within_watermark hw
  · exact ⟨Keeps.refl y, rfl, fun _ _ => id⟩

/-- What holds of a call that began with the iterator `it` and did not overrun: the entry it
yields lies before the watermark. -/
structure Sound (overrun : Bool) (y : Reading) (it : LogIterator) (r : NextResult × Reading × LogIterator) : Prop where
  keeps : Keeps y r.2.1
  mode : r.2.2.readUncommitted = it.readUncommitted
  sound : it.readUncommitted = false → y.Keyed → it.Within y.store.lastCommittedPosition → overrun = false →
    r.2.2.Within y.store.lastCommittedPosition ∧
      ∀ entry place, r.1 = .value entry place → place < y.store.lastCommittedPosition

/-- A call that yields nothing and leaves the iterator where it can be. -/
theorem Carries.sound {y y' : Reading} {it it' : LogIterator} (h : Carries y it y' it') (overrun : Bool)
    {r : NextResult} (hr : ∀ entry place, r ≠ .value entry place) : Sound overrun y it (r, y', it') :=
  ⟨h.keeps, h.mode, fun hmode hk hw _ => ⟨h.within hmode hk hw, fun entry place he => absurd he (hr entry place)⟩⟩

/-- A call goes on from where a part of it has led to. -/
theorem Sound.after {o o' : Bool} {y y' : Reading} {it it' : LogIterator} {r : NextResult × Reading × LogIterator}
    (h : Sound o' y' it' r) (hkeeps : Keeps y y') (hmode : it'.readUncommitted = it.readUncommitted)
    (hwithin : it.readUncommitted = false → y.Keyed → it.Within y.store.lastCommittedPosition → o = false →
      it'.Within y.store.lastCommittedPosition ∧ o' = false) : Sound o y it r := by
  refine ⟨hkeeps.trans h.keeps, h.mode.trans hmode, fun hm hk hw ho => ?_⟩
  obtain ⟨hw', ho'⟩ := hwithin hm hk hw ho
  have hres := h.sound (hmode.trans hm) (hkeeps.keyed hk)
  rw [hkeeps.committed] at hres
  exact hres hw' ho'

theorem scanBuffer_carries (y : Reading) (view : Bytes) (size fuel : ℕ) (it : LogIterator) :
    Carries y it y (scanBuffer view size fuel it).2 := by
  obtain ⟨hsame, -⟩ := scanBuffer_spec view size fuel it
  exact ⟨Keeps.refl y, hsame.readUncommitted, fun _ _ hw => hw.congr hsame⟩

theorem nextLoop_sound (fuel : ℕ) (y : Reading) (it : LogIterator) :
    Sound (loopMeets overrun cfg io fuel y it) y it (nextLoop cfg io fuel y it) := by
  induction fuel generalizing y it with
  | zero => exact Carries.sound ⟨Keeps.refl y, rfl, fun _ _ => id⟩ _ (fun _ _ h => by cases h)
  | succ fuel ih =>
    rw [nextLoop, loopMeets]
    cases hsize : it.size with
    | none => exact Carries.sound ⟨Keeps.refl y, rfl, fun _ _ => id⟩ _ (fun _ _ h => by cases h)
    | some size =>
      simp only
      have hcarries := scanBuffer_carries y (y.view it.logId) size ((y.view it.logId).length + 1) it
      have hscan := scanBuffer_spec (y.view it.logId) size ((y.view it.logId).length + 1) it
      simp only at hscan
      rcases hs : scanBuffer (y.view it.logId) size ((y.view it.logId).length + 1) it with ⟨res, it₁⟩
      rw [hs] at hcarries hscan
      cases res with
      | ended => exact hcarries.sound _ (fun _ _ h => by cases h)
      | done => exact hcarries.sound _ (fun _ _ h => by cases h)
      | rangeError => exact hcarries.sound _ (fun _ _ h => by cases h)
      | value entry place =>
        refine ⟨hcarries.keeps, hcarries.mode, fun hmode hk hw _ => ⟨hcarries.within hmode hk hw, fun e p he => ?_⟩⟩
        obtain ⟨-, rfl⟩ := NextResult.value.inj he
        obtain ⟨hid, hlt⟩ := hscan.2 entry place rfl
        rw [LogPosition.lt_iff, hid]
        rcases hw with hw | ⟨hw, hlimit⟩
        · exact Or.inl hw
        · exact Or.inr ⟨hw, hlt.trans_le (hlimit size hsize)⟩
      | passed =>
        simp only
        have hload := loadLastPosition_keeps y it₁.readUncommitted io
        have hlatest : it₁.readUncommitted = false → y.loadLastPosition it₁.readUncommitted io = (.ok
            (y.store.lastCommittedPosition.logSequenceNumber, y.store.lastCommittedPosition.positionInLogFile), y) :=
          fun hmode => by rw [hmode, loadLastPosition_committed]
        rcases hl : y.loadLastPosition it₁.readUncommitted io with ⟨e | ⟨latestLogId, latestSize⟩, y₁⟩
        · rw [hl] at hload
          exact Carries.sound ⟨hload, hcarries.mode, hcarries.within⟩ _ (fun _ _ h => by cases h)
        rw [hl] at hload hlatest
        simp only [Prod.mk.injEq, Except.ok.injEq] at hlatest
        simp only
        have hmode₁ : it₁.readUncommitted = it.readUncommitted := hcarries.mode
        by_cases hbefore : it₁.logId < latestLogId
        · rw [if_pos hbefore]
          have hmap := getLogMemoryMap_keeps cfg y₁ (it₁.logId + 1) io
          have hid : ∀ b, y₁.Keyed → (y₁.getLogMemoryMap cfg (it₁.logId + 1) io).1 = .ok (some b) →
              b.logId = it₁.logId + 1 :=
            fun b hk hb => getLogMemoryMap_logId hk hb
          have hstays : it.readUncommitted = false → y.Keyed → it.Within y.store.lastCommittedPosition →
              { it₁ with size := some latestSize }.Within y.store.lastCommittedPosition := by
            intro hmode _ _
            obtain ⟨⟨rfl, -⟩, -⟩ := hlatest (hmode₁.trans hmode)
            exact Or.inl hbefore
          rcases hm : y₁.getLogMemoryMap cfg (it₁.logId + 1) io with ⟨e | _ | b, y₂⟩
          · rw [hm] at hmap
            have hended : Carries y it y₂ { it₁ with size := some latestSize } := ⟨hload.trans hmap, hmode₁, hstays⟩
            exact hended.sound _ (fun _ _ h => by cases h)
          · rw [hm] at hmap
            have hended : Carries y it y₂ { it₁ with size := some latestSize } := ⟨hload.trans hmap, hmode₁, hstays⟩
            exact hended.sound _ (fun _ _ h => by cases h)
          rw [hm] at hmap hid
          simp only
          cases hb : b.size with
          | some limit =>
            simp only
            refine (ih y₂ _).after (hload.trans hmap) hmode₁ (fun hmode hk hw ho => ?_)
            obtain ⟨⟨rfl, rfl⟩, rfl⟩ := hlatest (hmode₁.trans hmode)
            have hcached : y₂.cachedSize b io = (.ok limit, y₂) := by rw [cachedSize, hb]
            rw [if_pos hbefore, hm] at ho
            simp only [hcached, Bool.or_eq_false_iff] at ho
            have hnext := hid b hk rfl
            exact ⟨within_entered (show b.logId ≤ _ by omega) rfl (hmap.committed ▸ overrun_enters ho.2.1), ho.2.2⟩
          | none =>
            simp only
            have hsized := getLogFileSize_keeps y₂ b.logId io
            rcases hg : y₂.getLogFileSize b.logId io with ⟨e | limit, y₃⟩
            · rw [hg] at hsized
              have hended : Carries y it y₃ { it₁ with logId := b.logId, size := none } := by
                refine ⟨hload.trans (hmap.trans hsized), hmode₁, fun hmode hk hw => ?_⟩
                obtain ⟨⟨rfl, rfl⟩, rfl⟩ := hlatest (hmode₁.trans hmode)
                have hnext := hid b hk rfl
                rcases (show b.logId ≤ y₁.store.lastCommittedPosition.logSequenceNumber by
                  omega).lt_or_eq with hlt | heq
                · exact Or.inl hlt
                · exact Or.inr ⟨heq, fun size hs => by cases hs⟩
              exact hended.sound _ (fun _ _ h => by cases h)
            · rw [hg] at hsized
              simp only
              have hkept : Keeps y₃ (if it₁.readUncommitted = true then y₃
                  else y₃.setBuffer { b with size := some limit }) := by
                split_ifs
                · exact Keeps.refl y₃
                · exact setBuffer_keeps _ _
              refine (ih _ _).after (hload.trans (hmap.trans (hsized.trans hkept))) hmode₁ (fun hmode hk hw ho => ?_)
              obtain ⟨⟨rfl, rfl⟩, rfl⟩ := hlatest (hmode₁.trans hmode)
              have hcached : y₂.cachedSize b io = (.ok limit, y₃.setBuffer { b with size := some limit }) := by
                rw [cachedSize, hb]
                simp only [hg]
              rw [if_pos hbefore, hm] at ho
              simp only [hcached, Bool.or_eq_false_iff] at ho
              have hnext := hid b hk rfl
              refine ⟨within_entered (show b.logId ≤ _ by omega) rfl (hmap.committed ▸ overrun_enters ho.2.1), ?_⟩
              rw [if_neg (by rw [hmode₁, hmode]; exact Bool.false_ne_true)]
              exact ho.2.2
        · rw [if_neg hbefore]
          refine (ih y₁ { it₁ with size := some latestSize }).after hload hcarries.mode (fun hmode hk hw ho => ?_)
          obtain ⟨⟨rfl, rfl⟩, rfl⟩ := hlatest (hmode₁.trans hmode)
          exact ⟨within_watermark (hcarries.within hmode hk hw), loopMeets_of_not_before overrun fuel hbefore⟩

theorem next_sound (cfg : StoreConfig) (y : Reading) (it : LogIterator) (io : ReadCalls) :
    Sound (callOverruns cfg y it io) y it (y.next cfg it io) := by
  have hhead := nextHead_carries cfg y it io
  unfold next callOverruns callMeets
  rcases hh : y.nextHead cfg it io with ⟨e | ⟨⟩, y₁, it₁⟩
  · rw [hh] at hhead
    exact hhead.sound _ (fun _ _ h => by cases h)
  · rw [hh] at hhead
    exact (nextLoop_sound _ y₁ it₁).after hhead.keeps hhead.mode fun hmode hk hw ho => ⟨hhead.within hmode hk hw, ho⟩

theorem firstQuery_keyed (hk : y.Keyed) : y.firstQuery.Keyed := by
  unfold firstQuery
  split_ifs
  · exact hk
  · intro k b hb
    cases hb

theorem getLastCommittedPosition_le (s : TransactionLogStore) (d : Disk) :
    s.lastCommittedPosition ≤ (s.getLastCommittedPosition d).lastCommittedPosition := by
  by_cases hz : s.lastCommittedPosition.isZero = true
  · rw [LogPosition.isZero_iff.mp hz]
    exact LogPosition.zero_le _
  · rw [TransactionLogStore.getLastCommittedPosition, if_neg hz]

theorem firstQuery_le (y : Reading) : y.store.lastCommittedPosition ≤ y.firstQuery.store.lastCommittedPosition := by
  unfold firstQuery
  split_ifs
  · exact le_rfl
  · exact getLastCommittedPosition_le _ _

/-- A query starts at the latest position, or in the file that its options lead to. -/
theorem queryStart_spec (cfg : StoreConfig) (y : Reading) (options : TransactionLogQueryOptions)
    (latest : ℕ × ℕ) (io : ReadCalls) :
    Keeps y (y.queryStart cfg options latest io).2 ∧ ∀ p, (y.queryStart cfg options latest io).1 = .ok p →
      p.1 = latest.1 ∨ y.startFile cfg options io = some p.1 := by
  have hfind : ∀ timestamp, Keeps y { y with store := (y.store.findPositionByTimestamp cfg y.disk
      timestamp io).2 } := by
    intro timestamp
    obtain ⟨files, hs, -⟩ := findPosition_store cfg y.store y.disk timestamp io
    exact ⟨by rw [hs], id⟩
  unfold queryStart startFile
  simp only
  by_cases hflushed : options.startFromLastFlushed = true
  · simp only [hflushed, if_true]
    by_cases hzero : (getLastFlushedPosition y.disk).isZero = true
    · simp only [hzero, if_true]
      cases hr : (y.store.findPositionByTimestamp cfg y.disk Binary64.zero io).1 with
      | error e => exact ⟨hfind _, fun p hp => by cases hp⟩
      | ok q =>
        refine ⟨hfind _, fun p hp => Or.inr ?_⟩
        rw [← Except.ok.inj hp]
        rfl
    · simp only [hzero, Bool.false_eq_true, if_false]
      refine ⟨Keeps.refl y, fun p hp => Or.inr ?_⟩
      rw [← Except.ok.inj hp]
  · simp only [hflushed, Bool.false_eq_true, if_false]
    cases options.start with
    | none =>
      refine ⟨Keeps.refl y, fun p hp => Or.inl ?_⟩
      rw [← Except.ok.inj hp]
    | some start =>
      simp only [Option.bind_some]
      cases hr : (y.store.findPositionByTimestamp cfg y.disk start io).1 with
      | error e => exact ⟨hfind _, fun p hp => by cases hp⟩
      | ok q =>
        refine ⟨hfind _, fun p hp => Or.inr ?_⟩
        rw [← Except.ok.inj hp]
        rfl

/-- The buffer a query starts on is that of its file or the fake one, and a limit other than the
latest position comes with the fake one. -/
theorem queryBuffer_spec (cfg : StoreConfig) (y : Reading) (readUncommitted : Bool) (latest : ℕ × ℕ)
    (logId : ℕ) (io : ReadCalls) :
    Keeps y (y.queryBuffer cfg readUncommitted latest logId io).2 ∧ ∀ b size, y.Keyed →
      (y.queryBuffer cfg readUncommitted latest logId io).1 = .ok (b, size) →
        size ≤ latest.2 ∧ (b.logId = logId ∨ b.logId = 0) := by
  unfold queryBuffer
  by_cases hcur : y.log.currentLogBuffer = some logId
  · rw [if_pos hcur]
    refine ⟨Keeps.refl y, fun b size hk hb => ?_⟩
    obtain ⟨rfl, rfl⟩ := Prod.mk.inj (Except.ok.inj hb)
    refine ⟨le_rfl, ?_⟩
    unfold buffer
    cases hg : y.log.logBuffers.get? logId with
    | none => exact Or.inr rfl
    | some c => exact Or.inl (hk _ _ hg)
  · rw [if_neg hcur]
    have hmap := getLogMemoryMap_keeps cfg y logId io
    have hid : ∀ b, y.Keyed → (y.getLogMemoryMap cfg logId io).1 = .ok (some b) → b.logId = logId :=
      fun b hk hb => getLogMemoryMap_logId hk hb
    rcases hm : y.getLogMemoryMap cfg logId io with ⟨e | _ | c, y₁⟩
    · rw [hm] at hmap
      exact ⟨hmap, fun b size _ hb => by cases hb⟩
    · rw [hm] at hmap
      refine ⟨hmap, fun b size _ hb => ?_⟩
      obtain ⟨rfl, rfl⟩ := Prod.mk.inj (Except.ok.inj hb)
      exact ⟨Nat.zero_le _, Or.inr rfl⟩
    · rw [hm] at hmap hid
      refine ⟨?_, fun b size hk hb => ?_⟩
      · simp only
        split_ifs
        · exact ⟨hmap.committed, hmap.keyed⟩
        · exact hmap
      · obtain ⟨rfl, rfl⟩ := Prod.mk.inj (Except.ok.inj hb)
        exact ⟨le_rfl, Or.inl (hid c hk rfl)⟩

/-- A query of the committed part whose start is not in a file past the watermark's gives an
iterator within the watermark. -/
theorem query_within (cfg : StoreConfig) (y : Reading) (options : TransactionLogQueryOptions) (io : ReadCalls) :
    Keeps y.firstQuery (y.query cfg options io).2 ∧ ∀ it, (y.query cfg options io).1 = .ok it →
      it.readUncommitted = options.readUncommitted ∧ (options.readUncommitted = false → y.Keyed →
        (∀ logId ∈ y.firstQuery.startFile cfg options io,
          logId ≤ y.firstQuery.store.lastCommittedPosition.logSequenceNumber) →
          it.Within y.firstQuery.store.lastCommittedPosition) := by
  have hfirst := firstQuery_keyed (y := y)
  unfold query
  rw [show (if y.log.queried = true then y else { y with
    store := y.store.getLastCommittedPosition y.disk
    log := { y.log with queried := true, logBuffers := SeqMap.empty } }) = y.firstQuery from rfl]
  generalize y.firstQuery = y₀ at hfirst ⊢
  simp only
  have hload := loadLastPosition_keeps y₀ options.readUncommitted io
  have hlatest : options.readUncommitted = false → y₀.loadLastPosition options.readUncommitted io =
      (.ok (y₀.store.lastCommittedPosition.logSequenceNumber, y₀.store.lastCommittedPosition.positionInLogFile), y₀) :=
    fun hmode => by rw [hmode, loadLastPosition_committed]
  rcases hl : y₀.loadLastPosition options.readUncommitted io with ⟨e | latest, y₁⟩
  · rw [hl] at hload
    exact ⟨hload, fun it hit => by cases hit⟩
  rw [hl] at hload hlatest
  simp only
  obtain ⟨hstart, hfile⟩ := queryStart_spec cfg y₁ options latest io
  rcases hs : y₁.queryStart cfg options latest io with ⟨e | ⟨logId, position, start⟩, y₂⟩
  · rw [hs] at hstart
    exact ⟨hload.trans hstart, fun it hit => by cases hit⟩
  rw [hs] at hstart hfile
  simp only
  obtain ⟨hbuffer, hlimit⟩ := queryBuffer_spec cfg y₂ options.readUncommitted latest logId io
  rcases hb : y₂.queryBuffer cfg options.readUncommitted latest logId io with ⟨e | ⟨b, size⟩, y₃⟩
  · rw [hb] at hbuffer
    exact ⟨hload.trans (hstart.trans hbuffer), fun it hit => by cases hit⟩
  rw [hb] at hbuffer hlimit
  simp only
  have hkeeps := hload.trans (hstart.trans hbuffer)
  have hstarts : options.readUncommitted = false → y.Keyed →
      (∀ q ∈ y₀.startFile cfg options io, q ≤ y₀.store.lastCommittedPosition.logSequenceNumber) →
      logId ≤ y₀.store.lastCommittedPosition.logSequenceNumber ∧
        size ≤ y₀.store.lastCommittedPosition.positionInLogFile ∧
        latest.1 = y₀.store.lastCommittedPosition.logSequenceNumber ∧ (b.logId = logId ∨ b.logId = 0) := by
    intro hmode hk hok
    simp only [Prod.mk.injEq, Except.ok.injEq] at hlatest
    obtain ⟨rfl, rfl⟩ := hlatest hmode
    obtain ⟨hsize, hid⟩ := hlimit b size (hstart.keyed (hfirst hk)) rfl
    refine ⟨?_, hsize, rfl, hid⟩
    rcases hfile _ rfl with heq | heq
    · exact le_of_eq heq
    · exact hok logId heq
  split_ifs with hlast
  · refine ⟨hkeeps, fun it hit => ?_⟩
    obtain rfl := Except.ok.inj hit
    refine ⟨rfl, fun hmode hk hok => ?_⟩
    obtain ⟨hle, hsize, hlatest', hid⟩ := hstarts hmode hk hok
    refine within_entered (show b.logId ≤ _ by omega) rfl fun hpast => ?_
    exact absurd hpast.2 (not_lt.mpr hsize)
  · have hcached := cachedSize_keeps y₃ b io
    rcases hc : y₃.cachedSize b io with ⟨e | size', y₄⟩
    · rw [hc] at hcached
      exact ⟨hkeeps.trans hcached, fun it hit => by cases hit⟩
    rw [hc] at hcached
    refine ⟨hkeeps.trans hcached, fun it hit => ?_⟩
    obtain rfl := Except.ok.inj hit
    refine ⟨rfl, fun hmode hk hok => ?_⟩
    obtain ⟨hle, -, hlatest', hid⟩ := hstarts hmode hk hok
    exact Or.inl (show b.logId < _ by omega)

end Reading

namespace Querying

/-- What a step has to meet: a position is given back only where the position published then is
not below the watermark, a query of the committed part does not start in a file past the
watermark's, and no call on its iterators goes on past an entry out of the range into the
watermark's file while that file is longer than the watermark. -/
def SoundOk (cfg : StoreConfig) (y : Querying) : QueryEvent → Prop
  | .life (.commitFinished position _) =>
    y.store.lastCommittedPosition ≤ (y.store.positionErase position).fullyCommittedPosition
  | .life (.commitAborted position) =>
    y.store.lastCommittedPosition ≤ (y.store.positionErase position).fullyCommittedPosition
  | .life _ => True
  | .query options io => options.readUncommitted = false → ∀ logId ∈ y.reading.firstQuery.startFile cfg options io,
      logId ≤ y.reading.firstQuery.store.lastCommittedPosition.logSequenceNumber
  | .next i io => ∀ it ∈ y.iterators[i]?, it.readUncommitted = false → Reading.callOverruns cfg y.reading it io = false

instance (cfg : StoreConfig) (y : Querying) : ∀ e : QueryEvent, Decidable (SoundOk cfg y e)
  | .query options io => inferInstanceAs (Decidable (options.readUncommitted = false →
      ∀ logId ∈ y.reading.firstQuery.startFile cfg options io,
        logId ≤ y.reading.firstQuery.store.lastCommittedPosition.logSequenceNumber))
  | .next i io => inferInstanceAs (Decidable (∀ it ∈ y.iterators[i]?, it.readUncommitted = false →
      Reading.callOverruns cfg y.reading it io = false))
  | .life (.commitFinished position _) => inferInstanceAs (Decidable
      (y.store.lastCommittedPosition ≤ (y.store.positionErase position).fullyCommittedPosition))
  | .life (.commitAborted position) => inferInstanceAs (Decidable
      (y.store.lastCommittedPosition ≤ (y.store.positionErase position).fullyCommittedPosition))
  | .life .create => isTrue trivial
  | .life (.beginWrite _) => isTrue trivial
  | .life (.writer _) => isTrue trivial
  | .life (.flushScan _) => isTrue trivial
  | .life (.flushWrite _) => isTrue trivial
  | .life .getLastCommittedPosition => isTrue trivial
  | .life (.getLogFileSize _ _) => isTrue trivial
  | .life (.findPosition _ _) => isTrue trivial
  | .life (.purge _ _ _) => isTrue trivial
  | .life (.close _) => isTrue trivial
  | .life .crash => isTrue trivial
  | .life (.load _ _) => isTrue trivial

/-- Every committed iterator is within the watermark. -/
structure Bounded (y : Querying) : Prop where
  keyed : y.reading.Keyed
  within : ∀ it ∈ y.iterators, it.readUncommitted = false → it.Within y.store.lastCommittedPosition

theorem Bounded.fresh (life : Life) : Bounded { life } := by
  constructor
  · intro k b h
    cases h
  · intro it h
    cases h

variable {cfg : StoreConfig} {y y' : Querying}

theorem step_life_le {e : Event} {life : Life} (hok : SoundOk cfg y (.life e)) (hpurge : e.purges = false)
    (hopen : y.life.isOpen = true) (hopen' : life.isOpen = true) (h : y.life.step cfg e = some life) :
    y.store.lastCommittedPosition ≤ life.world.store.lastCommittedPosition := by
  rw [Life.step, if_pos hopen] at h
  cases e with
  | create => cases h
  | beginWrite batch =>
    simp only [Life.stepOpen] at h
    split_ifs at h
    obtain rfl := Option.some.inj h
    unfold RocksdbJs.beginWrite
    split_ifs
    · exact le_rfl
    · exact le_rfl
  | writer io =>
    simp only [Life.stepOpen, stepWriter, Option.map_eq_some_iff, Option.bind_eq_some_iff] at h
    obtain ⟨w', ⟨wr, -, hstep⟩, rfl⟩ := h
    exact (writerStep_frame hstep).committed.ge
  | commitFinished position seq =>
    obtain rfl := Option.some.inj h
    exact hok
  | commitAborted position =>
    obtain rfl := Option.some.inj h
    exact hok
  | flushScan seq =>
    obtain rfl := Option.some.inj h
    exact le_rfl
  | flushWrite k =>
    simp only [Life.stepOpen, Option.map_eq_some_iff] at h
    obtain ⟨position, -, rfl⟩ := h
    obtain ⟨stream, written, state, hw⟩ := writeFlushedPosition_cases y.life.world.store y.life.world.disk position
    rw [hw]
    exact le_rfl
  | getLastCommittedPosition =>
    obtain rfl := Option.some.inj h
    exact Reading.getLastCommittedPosition_le _ _
  | getLogFileSize seq io =>
    obtain rfl := Option.some.inj h
    exact (Reading.getLogFileSize_keeps y.reading seq io).committed.ge
  | findPosition timestamp io =>
    obtain rfl := Option.some.inj h
    obtain ⟨files, hs, -⟩ := findPosition_store cfg y.life.world.store y.life.world.disk timestamp io
    simp only [Life.withStore, Life.moveTo, hs]
    exact le_rfl
  | purge all before io => cases hpurge
  | close io =>
    simp only [Life.stepOpen] at h
    split_ifs at h
    obtain rfl := Option.some.inj h
    cases hopen'
  | crash =>
    obtain rfl := Option.some.inj h
    cases hopen'
  | load order io => cases h

theorem step_bounded {e : QueryEvent} (hi : Bounded y) (hok : SoundOk cfg y e)
    (h : step cfg y e = some y') : Bounded y' := by
  cases e with
  | life e =>
    simp only [step] at h
    split_ifs at h with hpurge
    obtain ⟨life, hlife, rfl⟩ := Option.map_eq_some_iff.mp h
    split_ifs with hopen
    · have hle := step_life_le hok (Bool.not_eq_true _ ▸ hpurge) hopen.1 hopen.2 hlife
      exact ⟨hi.keyed, fun it hit hmode => (hi.within it hit hmode).mono hle⟩
    · exact Bounded.fresh life
  | query options io =>
    simp only [step] at h
    split_ifs at h
    obtain ⟨hkeeps, hmade⟩ := Reading.query_within cfg y.reading options io
    have hkept : ∀ it ∈ y.iterators, it.readUncommitted = false →
        it.Within (y.reading.query cfg options io).2.store.lastCommittedPosition := by
      intro it hit hmode
      rw [hkeeps.committed]
      exact (hi.within it hit hmode).mono (Reading.firstQuery_le _)
    have hkeyed := hkeeps.keyed (Reading.firstQuery_keyed hi.keyed)
    rcases hq : y.reading.query cfg options io with ⟨e | it, r⟩
    · rw [hq] at h hkept hkeyed
      obtain rfl := Option.some.inj h
      exact ⟨hkeyed, hkept⟩
    · rw [hq] at h hkept hkeyed hmade hkeeps
      obtain rfl := Option.some.inj h
      obtain ⟨hmode', hwithin⟩ := hmade it rfl
      refine ⟨hkeyed, fun it' hit' hmode => ?_⟩
      rcases List.mem_append.mp hit' with hit' | hit'
      · exact hkept it' hit' hmode
      · obtain rfl := List.mem_singleton.mp hit'
        have hw := hwithin (hmode'.symm.trans hmode) hi.keyed (hok (hmode'.symm.trans hmode))
        rw [← hkeeps.committed] at hw
        exact hw
  | next i io =>
    simp only [step] at h
    split_ifs at h
    obtain ⟨it, hit, rfl⟩ := Option.map_eq_some_iff.mp h
    have hsound := Reading.next_sound cfg y.reading it io
    have hin : it ∈ y.iterators := List.mem_of_getElem? hit
    refine ⟨hsound.keeps.keyed hi.keyed, fun it' hit' hmode => ?_⟩
    change it'.Within (y.reading.next cfg it io).2.1.store.lastCommittedPosition
    rw [hsound.keeps.committed]
    rcases List.mem_or_eq_of_mem_set hit' with hit' | rfl
    · exact hi.within it' hit' hmode
    · have hmode' := hsound.mode.symm.trans hmode
      exact (hsound.sound hmode' hi.keyed (hi.within it hin hmode') (hok it hit hmode')).1

/-- In every state reached by steps that all meet the condition, a call of `next` that meets it
yields no entry at or past the watermark, on any iterator of the committed part. -/
theorem next_before_watermark {es : List QueryEvent} (hrun : Runs.exec (step cfg) {} es = some y)
    (hall : Runs.Along (step cfg) (SoundOk cfg) {} es) {i : ℕ} {it : LogIterator} (hit : y.iterators[i]? = some it)
    (hmode : it.readUncommitted = false) {io : ReadCalls} (hok : SoundOk cfg y (.next i io)) {entry : TransactionEntry}
    {place : LogPosition} (hnext : y.nextResult cfg i io = some (.value entry place)) :
    place < y.store.lastCommittedPosition := by
  have hi : Bounded y := Runs.exec_invariant (fun _ _ _ hi ho hs => step_bounded hi ho hs) (Bounded.fresh {}) hall hrun
  have hsound := Reading.next_sound cfg y.reading it io
  rw [nextResult, hit, Option.map_some] at hnext
  exact (hsound.sound hmode hi.keyed (hi.within it (List.mem_of_getElem? hit) hmode) (hok it hit hmode)).2 entry place
    (Option.some.inj hnext)

/-- A batch of one entry, and the steps of its call. -/
def written (timestamp : Binary64) (entry : TransactionLogEntry) (steps : ℕ) : List QueryEvent :=
  .life (.beginWrite ⟨timestamp, [entry], 0⟩) ::
    List.replicate steps (.life (.writer { results := [.count entry.size] }))

/-- An entry that nearly fills the first file and one in the second, both committed, and a third
one that is not. -/
def uncommittedLast : List QueryEvent :=
  .life .create :: written ⟨5⟩ ⟨List.replicate 30 7, by decide⟩ 8 ++ written ⟨6⟩ (oneByteEntry 8) 15 ++
    written ⟨7⟩ (oneByteEntry 9) 8 ++ [.life (.commitFinished ⟨0, 1⟩ 1), .life (.commitFinished ⟨56, 1⟩ 2)]

/-- Where an iterator of the committed part stands. -/
def standing (start : Binary64) (position size logId : ℕ) : LogIterator :=
  { start, «end» := Binary64.maxValue, position, size := some size, logId }

/-- Read from the beginning, the entry of the second file is the second one. -/
theorem next_before_watermark_secondFile : ∃ y,
    Runs.exec (step ⟨60, 0, none⟩) {}
        (uncommittedLast ++ [.query { start := some Binary64.zero } {}, .next 0 {}]) = some y ∧
      y.nextResult ⟨60, 0, none⟩ 0 {} = some (.value ⟨⟨6⟩, true, [8]⟩ ⟨13, 2⟩) ∧
      (⟨13, 2⟩ : LogPosition) < y.store.lastCommittedPosition := by
  have hrun := Runs.exec_final (step ⟨60, 0, none⟩) {}
    (uncommittedLast ++ [.query { start := some Binary64.zero } {}, .next 0 {}]) (by decide +kernel)
  set y := Runs.final (step ⟨60, 0, none⟩) {}
    (uncommittedLast ++ [.query { start := some Binary64.zero } {}, .next 0 {}]) with hy
  have hit : y.iterators[0]? = some (standing Binary64.zero 56 56 1) := by decide +kernel
  have hnext : y.nextResult ⟨60, 0, none⟩ 0 {} = some (.value ⟨⟨6⟩, true, [8]⟩ ⟨13, 2⟩) := by decide +kernel
  refine ⟨y, hrun, hnext, ?_⟩
  exact next_before_watermark hrun (by decide +kernel) hit rfl (by decide +kernel) hnext

/-- With a start timestamp that the first entry is below, the reader takes the whole second file
for committed and yields the third entry, at the watermark. -/
theorem next_yields_uncommitted : ∃ y,
    Runs.exec (step ⟨60, 0, none⟩) {}
      (uncommittedLast ++ [.query { startFromLastFlushed := true, start := some ⟨6⟩ } {}, .next 0 {}]) = some y ∧
    y.iterators[0]? = some (standing ⟨6⟩ 27 41 2) ∧ (standing ⟨6⟩ 27 41 2).readUncommitted = false ∧
      y.nextResult ⟨60, 0, none⟩ 0 {} = some (.value ⟨⟨7⟩, true, [9]⟩ ⟨27, 2⟩) ∧
      ¬ (⟨27, 2⟩ : LogPosition) < y.store.lastCommittedPosition := by
  refine ⟨_, Runs.exec_final _ _ _ ?_, ?_, rfl, ?_, ?_⟩
  all_goals decide +kernel

end Querying

end RocksdbJs
