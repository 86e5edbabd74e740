import RocksdbJs.Sanity.TailingRuns

/-! What a reader has yielded of a log that is written, committed, flushed and rotated while it
reads: of all that lies between two of its places in the log, once and in order, the entries in its
range. -/

namespace RocksdbJs

open TransactionLogStore

namespace Querying

variable {cfg : StoreConfig} {y y' : Querying}

/-- In every run whose steps all meet the condition: what an iterator yields between two moments is
its selection of the records that lie between its two places in the log, each taken once and in
order, whatever is written, committed, flushed and read meanwhile. -/
theorem reads_each_once {es es' : List QueryEvent} (hrun : Runs.exec (step cfg) {} es = some y)
    (hrun' : Runs.exec (step cfg) y es' = some y') (hall : Runs.Along (step cfg) (TailOk cfg) {} (es ++ es'))
    (hstay : ∀ e ∈ es', stays e = true) {i : ℕ} {it : LogIterator} (hit : y.iterators[i]? = some it) :
    ∃ it' rs, y'.iterators[i]? = some it' ∧
      y'.life.world.disk.recordsFrom it.place = rs ++ y'.life.world.disk.recordsFrom it'.place ∧
      it.selects rs = (yields cfg i y es', it'.foundExactStart) := by
  obtain ⟨hbefore, hafter⟩ := hall.append hrun
  have h : y.Tailing := Runs.exec_invariant (fun _ _ _ hi ho hs => step_tailing hi ho hs) tailing_new hbefore hrun
  have hopen : y.life.isOpen = true := by
    cases ho : y.life.isOpen with
    | true => rfl
    | false =>
      rw [h.left ho] at hit
      cases hit
  obtain ⟨it', hit', hp⟩ := (run_moves h hopen hstay hafter hrun').2 hit
  obtain ⟨rs, hrs, hsel⟩ := hp.records
  exact ⟨it', rs, hit', hrs, hsel⟩

/-- A query from timestamp `t` on, however much later: all that the log has of its range is what the
iterator has yielded, in order, and then what lies ahead of it. -/
theorem reads_all_asked {es es' : List QueryEvent} {options : TransactionLogQueryOptions} {io : ReadCalls}
    {t : Binary64} {y0 : Querying} (hrun : Runs.exec (step cfg) {} es = some y0)
    (hquery : step cfg y0 (.query options io) = some y) (hrun' : Runs.exec (step cfg) y es' = some y')
    (hall : Runs.Along (step cfg) (TailOk cfg) {} (es ++ .query options io :: es'))
    (hstay : ∀ e ∈ es', stays e = true) (hstart : options.start = some t)
    (hflushed : options.startFromLastFlushed = false) (hexact : options.exactStart = false) :
    ∃ it, y'.iterators[y0.iterators.length]? = some it ∧
      asked options t y'.life.world.disk.content =
        yields cfg y0.iterators.length y es' ++ asked options t (y'.life.world.disk.recordsFrom it.place) := by
  obtain ⟨hbefore, hok, hafter⟩ := hall.append hrun
  have hafter := hafter y hquery
  have h0 : y0.Tailing := Runs.exec_invariant (fun _ _ _ hi ho hs => step_tailing hi ho hs) tailing_new hbefore hrun
  obtain ⟨it, hq⟩ := stepQuery_queried h0 hok hquery
  obtain ⟨⟨more, hgrows⟩, hpasses⟩ := run_moves hq.tailing hq.isOpen hstay hafter hrun'
  obtain ⟨it', hit', hp⟩ := hpasses hq.made
  obtain ⟨rs, hrs, hsel⟩ := hp.records
  rw [selects_asked hq.asks hexact, hstart, Option.getD_some] at hsel
  have h' : y'.Tailing := Runs.exec_invariant (fun _ _ _ hi ho hs => step_tailing hi ho hs) hq.tailing hafter hrun'
  have hzero : y0.reading.firstQuery.askedFrom options = ⟨0, 0⟩ := by
    rw [Reading.askedFrom, hflushed, hstart]
    rfl
  have hstarts := hq.starts (Or.inl hzero)
  rw [hzero, hstart, Option.getD_some] at hstarts
  have hstarts' := hstarts.grows hgrows (hq.tailing.behind h' hq.isOpen (List.mem_of_getElem? hq.made) hgrows)
  refine ⟨it', hit', ?_⟩
  rw [content_eq_recordsFrom, asked_recordsFrom hstarts', hrs, asked_append, ← (Prod.mk.inj hsel).1]

/-- Where two places have the same records behind them, nothing lies between them. -/
theorem nothing_between {d : Disk} {p q : LogPosition} (hle : p ≤ q) (h : d.recordsFrom p = d.recordsFrom q) :
    ∀ x ∈ d.shelf, p ≤ x.1 → q ≤ x.1 := by
  have hfilter : (d.shelf.filter fun x => q ≤ x.1) = (d.shelf.filter fun x => p ≤ x.1).filter fun x => q ≤ x.1 := by
    rw [List.filter_filter]
    refine List.filter_congr fun x _ => ?_
    rw [← Bool.decide_and]
    exact decide_eq_decide.mpr ⟨fun hq => ⟨hq, hle.trans hq⟩, And.left⟩
  have hlen := congrArg List.length h
  rw [Disk.recordsFrom, Disk.recordsFrom, List.length_map, List.length_map, hfilter] at hlen
  intro x hx hpx
  have hall := List.length_filter_eq_length_iff.mp hlen.symm x (List.mem_filter.mpr ⟨hx, decide_eq_true hpx⟩)
  exact of_decide_eq_true hall

/-- A call of `next` that gives no entry has all that is committed; or all that is left lies behind a
number without a file; or it has moved on to a file without an entry. -/
theorem stops_caught_up {es : List QueryEvent} {i : ℕ} {io : ReadCalls} {it : LogIterator}
    (hrun : Runs.exec (step cfg) {} es = some y) (hall : Runs.Along (step cfg) (TailOk cfg) {} es)
    (hok : TailOk cfg y (.next i io)) (hmax : 0 < cfg.maxFileSize)
    (hmap : ∀ e ∈ y.store.sequenceFiles.entries, io.mmapOk e.1 = true) (hit : y.iterators[i]? = some it)
    (hdone : y.nextResult cfg i io = some .done) : ∃ it', it' = (y.reading.next cfg it io).2.2 ∧
      ((∀ x ∈ y.life.world.disk.shelf, it'.place ≤ x.1 → y.store.lastCommittedPosition ≤ x.1) ∨
        y.store.sequenceFiles.get? (it'.logId + 1) = none ∧
          (∀ x ∈ y.life.world.disk.shelf, it'.place ≤ x.1 → it'.logId + 1 < x.1.logSequenceNumber) ∨
        it.logId < it'.logId ∧ fileRecords (y.life.world.disk.bytes it'.logId) = []) := by
  have h : y.Tailing := Runs.exec_invariant (fun _ _ _ hi ho hs => step_tailing hi ho hs) tailing_new hall hrun
  have hopen : y.life.isOpen = true := by
    cases ho : y.life.isOpen with
    | true => rfl
    | false =>
      rw [h.left ho] at hit
      cases hit
  have hfit := h.fit hopen
  obtain ⟨-, hhalts⟩ := hfit.next cfg (h.stands it (List.mem_of_getElem? hit)) hok.1 (hok.2 it hit)
  rw [nextResult, hit, Option.map_some, Option.some.injEq] at hdone
  refine ⟨_, rfl, ?_⟩
  rcases hhalts hdone with ⟨heq, hle⟩ | ⟨hlt, hno, hend⟩ | hmoved
  · refine Or.inl fun x _ hx => le_trans ?_ hx
    rw [LogPosition.le_iff]
    exact Or.inr ⟨heq.symm, hle⟩
  · generalize (y.reading.next cfg it io).2.2 = it' at hlt hno hend
    have hnone : y.store.sequenceFiles.get? (it'.logId + 1) = none := by
      cases hf : y.store.sequenceFiles.get? (it'.logId + 1) with
      | none => rfl
      | some f =>
        rcases hno with hno | ⟨-, hzero⟩ | hfail
        · exact hf.symm.trans hno
        · omega
        · rw [hmap (it'.logId + 1, f) (SeqMap.get?_eq_some_iff.mp hf)] at hfail
          cases hfail
    refine Or.inr (Or.inl ⟨hnone, fun x hx hpx => ?_⟩)
    have hle : it'.place ≤ endOf (it'.logId + 1) [] := by
      rw [LogPosition.le_iff]
      exact Or.inl (Nat.lt_succ_self _)
    have hbehind := nothing_between hle hend x hx hpx
    obtain ⟨bytes, hb, -⟩ := mem_shelf.mp hx
    rw [LogPosition.le_iff] at hbehind
    rcases hbehind with hlt' | ⟨heq, -⟩
    · exact hlt'
    · -- the file after its own is not there
      have heq : it'.logId + 1 = x.1.logSequenceNumber := heq
      have hreg : (y.store.sequenceFiles.get? (it'.logId + 1)).isSome := hfit.filed.log (by
        rw [heq, show y.reading.disk.logs.get? x.1.logSequenceNumber = some bytes from hb]
        rfl)
      rw [hnone] at hreg
      cases hreg
  · exact Or.inr (Or.inr hmoved)

/-- A batch and the steps of its call. -/
def appended (timestamp : Binary64) (entries : List TransactionLogEntry) (steps : ℕ) : List QueryEvent :=
  .life (.beginWrite ⟨timestamp, entries, 0⟩) ::
    List.replicate steps (.life (.writer { results := [.count 14, .count 14] }))

/-- A batch of one entry, committed. -/
def committedOnce : List QueryEvent :=
  .life .create :: appended ⟨5⟩ [oneByteEntry 7] 8 ++ [.life (.commitFinished ⟨0, 1⟩ 1)]

/-- Three more entries, the last one in a second file. -/
def committedTwice : List QueryEvent :=
  appended ⟨6⟩ [oneByteEntry 8, oneByteEntry 9, oneByteEntry 10] 15 ++ [.life (.commitFinished ⟨27, 1⟩ 2)]

/-- The reader gets the first entry before the others are written, and then them. -/
def tailing : List QueryEvent := .next 0 {} :: committedTwice ++ [.next 0 {}, .next 0 {}, .next 0 {}, .next 0 {}]

theorem reads_each_once_rotated : ∃ y y' it' rs,
    Runs.exec (step ⟨60, 0, none⟩) {} (committedOnce ++ [.query { start := some ⟨5⟩ } {}]) = some y ∧
    Runs.exec (step ⟨60, 0, none⟩) y tailing = some y' ∧ y'.life.world.disk.logs.keys = [1, 2] ∧
    y.iterators[0]? = some (standing ⟨5⟩ 13 27 1) ∧ y'.iterators[0]? = some it' ∧
    y'.life.world.disk.recordsFrom (standing ⟨5⟩ 13 27 1).place = rs ++ y'.life.world.disk.recordsFrom it'.place ∧
    (standing ⟨5⟩ 13 27 1).selects rs = (yields ⟨60, 0, none⟩ 0 y tailing, it'.foundExactStart) ∧
    yields ⟨60, 0, none⟩ 0 y tailing =
      [⟨⟨5⟩, true, [7]⟩, ⟨⟨6⟩, false, [8]⟩, ⟨⟨6⟩, false, [9]⟩, ⟨⟨6⟩, true, [10]⟩] := by
  have hrun := Runs.exec_final (step ⟨60, 0, none⟩) {} (committedOnce ++ [.query { start := some ⟨5⟩ } {}])
    (by decide +kernel)
  set y := Runs.final (step ⟨60, 0, none⟩) {} (committedOnce ++ [.query { start := some ⟨5⟩ } {}]) with hy
  have hrun' := Runs.exec_final (step ⟨60, 0, none⟩) y tailing (by decide +kernel)
  have hit : y.iterators[0]? = some (standing ⟨5⟩ 13 27 1) := by decide +kernel
  obtain ⟨it', rs, hit', hrs, hsel⟩ := reads_each_once hrun hrun' (by decide +kernel) (by decide +kernel) hit
  refine ⟨_, _, it', rs, hrun, hrun', ?_, hit, hit', hrs, hsel, ?_⟩
  all_goals decide +kernel

theorem reads_all_asked_rotated : ∃ y0 y y' it, Runs.exec (step ⟨60, 0, none⟩) {} committedOnce = some y0 ∧
    step ⟨60, 0, none⟩ y0 (.query { start := some ⟨6⟩ } {}) = some y ∧
      Runs.exec (step ⟨60, 0, none⟩) y tailing = some y' ∧
    y'.iterators[0]? = some it ∧ asked { start := some ⟨6⟩ } ⟨6⟩ y'.life.world.disk.content =
      yields ⟨60, 0, none⟩ 0 y tailing ++ asked { start := some ⟨6⟩ } ⟨6⟩ (y'.life.world.disk.recordsFrom it.place) ∧
    (yields ⟨60, 0, none⟩ 0 y tailing).length = 3 := by
  have hrun := Runs.exec_final (step ⟨60, 0, none⟩) {} committedOnce (by decide +kernel)
  set y0 := Runs.final (step ⟨60, 0, none⟩) {} committedOnce with hy0
  have hquery := Runs.step_final (step ⟨60, 0, none⟩) y0 (.query { start := some ⟨6⟩ } {}) (by decide +kernel)
  set y := Runs.final (step ⟨60, 0, none⟩) y0 [.query { start := some ⟨6⟩ } {}] with hy
  have hrun' := Runs.exec_final (step ⟨60, 0, none⟩) y tailing (by decide +kernel)
  obtain ⟨it, hit, hasked⟩ := reads_all_asked hrun hquery hrun' (by decide +kernel) (by decide +kernel) rfl rfl rfl
  have hfirst : y0.iterators.length = 0 := by decide +kernel
  rw [hfirst] at hit hasked
  exact ⟨_, _, _, it, hrun, hquery, hrun', hit, hasked, by decide +kernel⟩

theorem stops_caught_up_rotated :
    ∃ y it, Runs.exec (step ⟨60, 0, none⟩) {} (committedOnce ++ .query { start := some ⟨5⟩ } {} :: tailing) =
    some y ∧ y.iterators[0]? = some it ∧ y.nextResult ⟨60, 0, none⟩ 0 {} = some .done ∧
    ∃ it', it' = (y.reading.next ⟨60, 0, none⟩ it {}).2.2 ∧
      ((∀ x ∈ y.life.world.disk.shelf, it'.place ≤ x.1 → y.store.lastCommittedPosition ≤ x.1) ∨
        y.store.sequenceFiles.get? (it'.logId + 1) = none ∧
          (∀ x ∈ y.life.world.disk.shelf, it'.place ≤ x.1 → it'.logId + 1 < x.1.logSequenceNumber) ∨
        it.logId < it'.logId ∧ fileRecords (y.life.world.disk.bytes it'.logId) = []) := by
  have hrun := Runs.exec_final (step ⟨60, 0, none⟩) {} (committedOnce ++ .query { start := some ⟨5⟩ } {} ::
    tailing) (by decide +kernel)
  set y := Runs.final (step ⟨60, 0, none⟩) {} (committedOnce ++ .query { start := some ⟨5⟩ } {} :: tailing) with hy
  have hit : y.iterators[0]? = some (standing ⟨5⟩ 27 27 2) := by decide +kernel
  have hdone : y.nextResult ⟨60, 0, none⟩ 0 {} = some .done := by decide +kernel
  have hok : TailOk ⟨60, 0, none⟩ y (.next 0 {}) := by decide +kernel
  exact ⟨y, _, hrun, hit, hdone, stops_caught_up hrun (by decide +kernel) hok (by decide) (by decide +kernel) hit hdone⟩

end Querying

end RocksdbJs
