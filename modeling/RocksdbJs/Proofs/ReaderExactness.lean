import RocksdbJs.Sanity.TailingRuns

/-! A reader that is drained, and drained again after more has been committed. Once drained it has
yielded what lies between its start and the watermark, each entry once and in order, and no call
has thrown, as long as no call leaves a file at a limit that the file has outgrown. -/

namespace RocksdbJs

open TransactionLogStore

namespace Reading

/-- How far a file is committed. -/
def committedEnd (y : Reading) (k : ℕ) : ℕ :=
  if k = y.store.lastCommittedPosition.logSequenceNumber then y.store.lastCommittedPosition.positionInLogFile
  else (y.disk.bytes k).length

/-- The mappings of the files from `first` on cover all that is committed in them. -/
def Covers (cfg : StoreConfig) (y : Reading) (first : ℕ) : Prop :=
  ∀ k ≤ y.store.lastCommittedPosition.logSequenceNumber, first ≤ k → fileRecords (y.disk.bytes k) ≠ [] →
    y.committedEnd k ≤ y.mapLength cfg k

/-- The files past `last` are registered up to the watermark's, and those before that one have an entry. -/
def Unbroken (y : Reading) (last : ℕ) : Prop :=
  ∀ k ≤ y.store.lastCommittedPosition.logSequenceNumber, last < k → (y.store.sequenceFiles.get? k).isSome ∧
    (k < y.store.lastCommittedPosition.logSequenceNumber → fileRecords (y.disk.bytes k) ≠ [])

/-- Every registered file can be mapped. -/
def CanMap (cfg : StoreConfig) (y : Reading) (io : ReadCalls) : Prop :=
  0 < cfg.maxFileSize ∧ ∀ e ∈ y.store.sequenceFiles.entries, io.mmapOk e.1 = true

/-- Nothing at or past the watermark lies before the place. -/
def NonePast (y : Reading) (place : LogPosition) : Prop :=
  ∀ x ∈ y.disk.shelf, y.store.lastCommittedPosition ≤ x.1 → place ≤ x.1

variable {cfg : StoreConfig} {y y' : Reading} {it it' : LogIterator} {io : ReadCalls} {k : ℕ}

theorem nonePast_of_le {p : LogPosition} (h : p ≤ y.store.lastCommittedPosition) : NonePast y p :=
  fun _ _ hle => h.trans hle

/-- The first entry's place in the watermark's file, or one before it, is past nothing that is not committed. -/
theorem nonePast_begin (h : k ≤ y.store.lastCommittedPosition.logSequenceNumber) :
    NonePast y ⟨TRANSACTION_LOG_FILE_HEADER_SIZE, k⟩ := by
  intro x hx hle
  obtain ⟨bytes, -, hx⟩ := mem_shelf.mp hx
  have hhead := (mem_fileShelf hx).2.1
  rw [LogPosition.le_iff] at hle ⊢
  simp only
  omega

theorem Leads.nonePast_iff {p : LogPosition} (h : y.Leads cfg y') : NonePast y' p ↔ NonePast y p := by
  unfold NonePast
  rw [h.reads.committed, h.reads.lengthens.shelf, List.append_nil]

theorem Covers.leads {first first' : ℕ} (h : Covers cfg y first) (hl : y.Leads cfg y') (hle : first ≤ first') :
    Covers cfg y' first' := by
  intro k hk hfirst hrecords
  rw [hl.records] at hrecords
  have hthere : (y.disk.logs.get? k).isSome := by
    rw [Option.isSome_iff_ne_none]
    intro hnone
    rw [Disk.bytes_none hnone, fileRecords_nil] at hrecords
    exact hrecords rfl
  rw [hl.reads.committed] at hk
  have hcovers := h k hk (hle.trans hfirst) hrecords
  rw [hl.maps k hthere, committedEnd, hl.reads.committed, hl.reads.bytes hthere]
  exact hcovers

/-- Within the watermark, the limit of an iterator is at most what is committed of its file. -/
theorem Fit.limit_le (h : y.Fit) (hf : it.InFile y) (hw : it.Within y.store.lastCommittedPosition) {z : ℕ}
    (hz : it.size = some z) :
    z ≤ y.committedEnd it.logId := by
  unfold committedEnd
  split_ifs with hlast
  · rcases hw with hlt | ⟨-, hle⟩
    · omega
    · exact hle z hz
  · obtain ⟨z', hz', hmarks⟩ := hf.size
    obtain rfl := Option.some.inj (hz.symm.trans hz')
    have hlen := h.filed.length (h.there hf.buffer)
    rcases hmarks with h0 | ⟨front, ⟨rest, hrest⟩, heq⟩
    · simp only at h0
      omega
    · have hz := congrArg LogPosition.positionInLogFile heq
      simp only [endOf] at hz hrest
      rw [hlen, ← hrest, frames_append, List.length_append]
      omega

/-- A round that ends the call throws nothing where the mapping covers the file. -/
theorem RoundEnds.not_threw {size : ℕ} {r : NextResult} (h : RoundEnds y it size r it') (hfit : y.Fit)
    (hw : it.Within y.store.lastCommittedPosition) (hle : it.logId ≤ y.store.lastCommittedPosition.logSequenceNumber)
    (hsize : it.size = some size) (hcovers : Covers cfg y it.logId) : ∀ e, r ≠ .threw e := by
  intro e he
  obtain ⟨hin, hshort, hrecords⟩ := h.threw e he
  have hcover := hcovers it.logId hle le_rfl hrecords
  have hlimit := hfit.limit_le hin hw hsize
  obtain ⟨b, hb⟩ := Option.isSome_iff_exists.mp hin.buffer
  rw [mapLength, hb] at hcover
  rw [buffer, hb, Option.getD_some] at hshort
  simp only at hcover
  omega

/-- Reading up to its limit, an iterator within the watermark takes nothing past it. -/
theorem nonePast_reach {size : ℕ} (hw : it.Within y.store.lastCommittedPosition) (hsize : it.size = some size)
    (hid : it'.logId = it.logId) (hle : it'.position ≤ size) : NonePast y it'.place := by
  refine nonePast_of_le ?_
  rw [LogPosition.le_iff, LogIterator.place]
  simp only
  rcases hw with hlt | ⟨heq, hlimit⟩
  · exact Or.inl (hid ▸ hlt)
  · exact Or.inr ⟨hid.trans heq, hle.trans (hlimit size hsize)⟩

theorem Fit.nextLoop_total (cfg : StoreConfig) (fuel : ℕ) :
    ∀ {y : Reading} {it : LogIterator}, y.Fit → it.Stands y → y.CanOpen io →
    loopMeets stray cfg io fuel y it = false → loopMeets overrun cfg io fuel y it = false →
    it.Within y.store.lastCommittedPosition → Covers cfg y it.logId →
      (∀ e, (Reading.nextLoop cfg io fuel y it).1 ≠ .threw e) ∧
        ((Reading.nextLoop cfg io fuel y it).2.2.place = it.place ∨
          NonePast y (Reading.nextLoop cfg io fuel y it).2.2.place) := by
  induction fuel with
  | zero => exact fun _ _ _ _ _ _ _ => ⟨fun e he => (by cases he), Or.inl rfl⟩
  | succ fuel ih =>
    intro y it h hs hio hno hover hw hcovers
    obtain ⟨size, hsize, ⟨r, it', hr, hends⟩ | ⟨y', it', hr, hgoes, hmissed⟩⟩ := h.round cfg hs hio hno
    · rw [hr]
      refine ⟨hends.not_threw h hw hs.le hsize hcovers, ?_⟩
      rcases hends.reach with hstill | hle
      · left
        rw [LogIterator.place, LogIterator.place, hends.logId, hstill]
      · exact Or.inr (nonePast_reach hw hsize hends.logId hle)
    · rw [hr]
      obtain ⟨hover', henters⟩ := hmissed overrun hover
      have hcommitted := hgoes.leads.reads.committed
      -- within the watermark still, at a place that is past nothing uncommitted
      have hmoved : it'.Within y'.store.lastCommittedPosition ∧ NonePast y it'.place := by
        rcases hgoes.moves with hm | hm
        · have hid := hm.logId
          have hbefore := hm.before
          obtain ⟨y1, hleads1, limit, hlimit, hmiss⟩ := henters (by omega)
          have hmiss := overrun_enters hmiss
          rw [hleads1.reads.committed, ← hcommitted] at hmiss
          refine ⟨within_entered ?_ hlimit hmiss, ?_⟩
          · rw [hcommitted]
            omega
          · rw [LogIterator.place, hm.position]
            exact nonePast_begin (by omega)
        · refine ⟨Or.inr ⟨?_, fun z hz => ?_⟩, nonePast_reach hw hsize hm.logId (hgoes.reach hm.logId)⟩
          · rw [hm.logId, hcommitted, hm.last]
          · obtain rfl := Option.some.inj (hz.symm.trans hm.limit)
            rw [hcommitted]
      obtain ⟨hw', hnone⟩ := hmoved
      obtain ⟨hthrew, hplace⟩ := ih hgoes.leads.fit hgoes.stands (hgoes.leads.canOpen hio)
        (hmissed stray hno).1 hover' hw'
        (hcovers.leads hgoes.leads hgoes.le)
      refine ⟨hthrew, Or.inr ?_⟩
      rcases hplace with hplace | hplace
      · rw [hplace]
        exact hnone
      · exact hgoes.leads.nonePast_iff.mp hplace

theorem Fit.keyed (h : y.Fit) : y.Keyed := fun _ _ hb => (h.buffers hb).logId

/-- A call of `next` throws nothing, and takes nothing that is not committed. -/
theorem Fit.next_total (h : y.Fit) (cfg : StoreConfig) (hs : it.Stands y) (hio : y.CanOpen io)
    (hno : callStrays cfg y it io = false) (hover : callOverruns cfg y it io = false)
    (hw : it.Within y.store.lastCommittedPosition) (hcovers : Covers cfg y it.logId) :
    (∀ e, (y.next cfg it io).1 ≠ .threw e) ∧
      ((y.next cfg it io).2.2.place = it.place ∨ NonePast y (y.next cfg it io).2.2.place) := by
  obtain ⟨y', it', hr, hk⟩ := h.nextHead cfg hs hio
  have hcarries := (nextHead_carries cfg y it io).within hs.committed h.keyed hw
  unfold callStrays callMeets at hno
  unfold callOverruns callMeets at hover
  unfold Reading.next
  rw [hr] at hno hover hcarries ⊢
  simp only at hno hover hcarries ⊢
  rw [← hk.leads.reads.committed] at hcarries
  obtain ⟨hthrew, hplace⟩ := hk.leads.fit.nextLoop_total cfg _ hk.stands (hk.leads.canOpen hio) hno hover hcarries
    (hcovers.leads hk.leads hk.le)
  refine ⟨hthrew, ?_⟩
  rcases hplace with hplace | hplace
  · rw [hplace]
    refine hk.place.imp_right fun hbegin => ?_
    rw [LogIterator.place, hbegin]
    refine nonePast_begin ?_
    rw [← hk.leads.reads.committed]
    exact hk.stands.le
  · exact Or.inr (hk.leads.nonePast_iff.mp hplace)

/-- Where files and mappings are all there, a call that gives no entry leaves nothing that is committed. -/
theorem Fit.next_done (h : y.Fit) (cfg : StoreConfig) (hs : it.Stands y) (hio : y.CanOpen io)
    (hno : callStrays cfg y it io = false) (hmap : CanMap cfg y io) (hfiles : Unbroken y it.logId)
    (hdone : (y.next cfg it io).1 = .done) :
    ∀ x ∈ y.disk.shelf, (y.next cfg it io).2.2.place ≤ x.1 → y.store.lastCommittedPosition ≤ x.1 := by
  intro x hx hle
  obtain ⟨hok, hhalts⟩ := h.next cfg hs hio hno
  have hforward := hok.le
  have hat := hok.stands.le
  rw [hok.leads.reads.committed] at hat
  rw [LogPosition.le_iff, LogIterator.place] at hle
  simp only at hle
  rcases hhalts hdone with ⟨heq, hend⟩ | ⟨hlt, hunmapped, -⟩ | ⟨hmoved, hempty⟩
  · rw [LogPosition.le_iff]
    omega
  · obtain ⟨hreg, -⟩ := hfiles ((y.next cfg it io).2.2.logId + 1) hlt (by omega)
    obtain ⟨f, hf⟩ := Option.isSome_iff_exists.mp hreg
    rcases hunmapped with hnone | ⟨-, h0⟩ | hfail
    · rw [hnone] at hf
      cases hf
    · exact absurd h0 hmap.1.ne'
    · rw [hmap.2 _ (SeqMap.get?_eq_some_iff.mp hf)] at hfail
      cases hfail
  · rcases hat.lt_or_eq with hbefore | hlast
    · exact absurd hempty ((hfiles _ hat hmoved).2 hbefore)
    · -- the watermark's file has no entry, so all that is left lies behind it
      obtain ⟨bytes, hb, hin⟩ := mem_shelf.mp hx
      rw [LogPosition.le_iff]
      left
      rw [← hlast]
      rcases hle with hlt | ⟨heq, -⟩
      · exact hlt
      · rw [heq, Disk.bytes_eq hb] at hempty
        rw [fileShelf, hempty] at hin
        cases hin

/-- What has been taken from `p` on to a place with nothing committed behind it, and nothing else before it, is what
lies between `p` and the watermark. -/
theorem taken_eq {d : Disk} {p q w : LogPosition} {rs : List LogRecord}
    (hrs : d.recordsFrom p = rs ++ d.recordsFrom q) (hrest : ∀ x ∈ d.shelf, q ≤ x.1 → w ≤ x.1)
    (hnone : q = p ∨ ∀ x ∈ d.shelf, w ≤ x.1 → q ≤ x.1) : rs = d.recordsBetween p w := by
  have hback : q ≤ p → rs = d.recordsBetween p w := by
    intro hle
    have hlen := congrArg List.length hrs
    rw [recordsFrom_split d hle, List.length_append, List.length_append] at hlen
    have hnil : d.recordsBetween p w = [] := by
      refine List.map_eq_nil_iff.mpr (List.filter_eq_nil_iff.mpr fun x hx => ?_)
      rw [decide_eq_true_iff]
      exact fun hlt => absurd (hrest x hx (hle.trans hlt.1)) hlt.2.not_ge
    rw [hnil]
    exact List.length_eq_zero_iff.mp (by omega)
  rcases le_total q p with hle | hle
  · exact hback hle
  rcases hnone with heq | hnone
  · exact hback heq.le
  -- the place and the watermark part the log in the same way
  rw [recordsFrom_split d hle] at hrs
  rw [← List.append_cancel_right hrs, Disk.recordsBetween, Disk.recordsBetween]
  refine congrArg _ (List.filter_congr fun x hx => decide_eq_decide.mpr (and_congr_right' ?_))
  rw [← not_le, ← not_le]
  exact not_congr ⟨hrest x hx, hnone x hx⟩

end Reading

namespace Querying

/-- What a step has to meet beyond `TailOk`: a query without a timestamp starts in a file that can be mapped; a call
of `next` finds its files there, mapped as far as they are committed, and does not overrun. -/
def ExactOk (cfg : StoreConfig) (y : Querying) : QueryEvent → Prop
  | .life e => TailOk cfg y (.life e)
  | .query options io => TailOk cfg y (.query options io) ∧ (y.reading.firstQuery.askedFrom options = ⟨0, 0⟩ ∨
      ¬ Reading.Unmapped cfg y.reading.firstQuery.store io (y.reading.firstQuery.askedFrom options).logSequenceNumber)
  | .next i io => TailOk cfg y (.next i io) ∧ Reading.CanMap cfg y.reading io ∧ ∀ it ∈ y.iterators[i]?,
      Reading.callOverruns cfg y.reading it io = false ∧ Reading.Covers cfg y.reading it.logId ∧
      Reading.Unbroken y.reading it.logId

variable {cfg : StoreConfig} {y y' : Querying} {e : QueryEvent}

theorem ExactOk.tailOk (h : ExactOk cfg y e) : TailOk cfg y e := by
  cases e with
  | life e => exact h
  | query options io => exact h.1
  | next i io => exact h.1

theorem ExactOk.soundOk (h : ExactOk cfg y e) : SoundOk cfg y e := by
  cases e with
  | life e =>
    cases e with
    | commitFinished position seq => exact h.1
    | commitAborted position => exact h.1
    | _ => trivial
  | query options io => exact fun _ => h.1.2.2.2
  | next i io => exact fun it hit _ => (h.2.2 it hit).1

/-- The watermark does not fall while the store is open. -/
theorem step_committed_le (hok : SoundOk cfg y e) (hopen : y.life.isOpen = true) (hopen' : y'.life.isOpen = true)
    (hstep : step cfg y e = some y') : y.store.lastCommittedPosition ≤ y'.store.lastCommittedPosition := by
  cases e with
  | life e =>
    simp only [step] at hstep
    split_ifs at hstep with hpurge
    obtain ⟨life, hlife, rfl⟩ := Option.map_eq_some_iff.mp hstep
    have hlifeOpen : life.isOpen = true := by
      split_ifs at hopen'
      · exact hopen'
      · exact hopen'
    have hle := step_life_le hok (Bool.eq_false_of_not_eq_true hpurge) hopen hlifeOpen hlife
    rw [if_pos ⟨hopen, hlifeOpen⟩]
    exact hle
  | query options io =>
    simp only [step] at hstep
    split_ifs at hstep
    have hkeeps := (Reading.query_within cfg y.reading options io).1.committed
    have hle := Reading.firstQuery_le y.reading
    rw [← hkeeps] at hle
    rcases hq : y.reading.query cfg options io with ⟨err | it, r⟩
    · rw [hq] at hstep hle
      obtain rfl := Option.some.inj hstep
      exact hle
    · rw [hq] at hstep hle
      obtain rfl := Option.some.inj hstep
      exact hle
  | next i io =>
    simp only [step] at hstep
    split_ifs at hstep
    obtain ⟨it, -, rfl⟩ := Option.map_eq_some_iff.mp hstep
    exact (Reading.next_sound cfg y.reading it io).keeps.committed.ge

/-- What the event returns of a call on iterator `i`. -/
def returned (cfg : StoreConfig) (y : Querying) (i : ℕ) : QueryEvent → List NextResult
  | .next j io => if j = i then (y.nextResult cfg i io).toList else []
  | _ => []

/-- What the calls on iterator `i` return, in order. -/
def results (cfg : StoreConfig) (i : ℕ) : Querying → List QueryEvent → List NextResult
  | _, [] => []
  | y, e :: es => returned cfg y i e ++ ((step cfg y e).map fun y' => results cfg i y' es).getD []

/-- The log grows behind the place, and the watermark rises. -/
theorem nonePast_grows {it : LogIterator} {more : List (LogPosition × LogRecord)}
    (hgrows : y.life.world.disk.Lengthens y'.life.world.disk more) (hbehind : ∀ x ∈ more, it.place ≤ x.1)
    (hle : y.store.lastCommittedPosition ≤ y'.store.lastCommittedPosition) (h : Reading.NonePast y.reading it.place) :
    Reading.NonePast y'.reading it.place := by
  intro x hx hpast
  rw [show y'.reading.disk.shelf = _ from hgrows.shelf] at hx
  rcases List.mem_append.mp hx with hx | hx
  · exact h x hx (hle.trans hpast)
  · exact hbehind x hx

/-- One event: no call throws, and an iterator that has moved on has passed nothing that is not committed. -/
theorem step_exact (h : y.Tailing) (hb : y.Bounded) (hopen : y.life.isOpen = true)
    (hstay : stays e = true) (hok : ExactOk cfg y e) (hstep : step cfg y e = some y') {i : ℕ}
    {it : LogIterator} (hit : y.iterators[i]? = some it) {p : LogPosition}
    (hp : it.place = p ∨ Reading.NonePast y.reading it.place) :
    (∃ it', y'.iterators[i]? = some it' ∧ (it'.place = p ∨ Reading.NonePast y'.reading it'.place)) ∧
      ∀ r ∈ returned cfg y i e, ∀ err, r ≠ .threw err := by
  have hmoves := step_moves h hopen hstay hok.tailOk hstep
  have hin := List.mem_of_getElem? hit
  by_cases hnext : ∃ io, e = .next i io
  · obtain ⟨io, rfl⟩ := hnext
    obtain ⟨⟨hio, hno⟩, -, hcall⟩ := hok
    obtain ⟨hover, hcovers, -⟩ := hcall it hit
    have hs := h.stands it hin
    obtain ⟨hthrew, hplace⟩ := (h.fit hopen).next_total cfg hs hio (hno it hit) hover
      (hb.within it hin hs.committed) hcovers
    have hleads := ((h.fit hopen).next cfg hs hio (hno it hit)).1.leads
    simp only [step] at hstep
    rw [if_pos hopen, hit, Option.map_some] at hstep
    obtain rfl := Option.some.inj hstep
    refine ⟨⟨_, List.getElem?_set_self (List.getElem?_eq_some_iff.mp hit).1, ?_⟩, fun r hr => ?_⟩
    · rcases hplace with hplace | hplace
      · rw [hplace]
        exact hp.imp_right hleads.nonePast_iff.mpr
      · exact Or.inr (hleads.nonePast_iff.mpr hplace)
    · rw [returned, if_pos rfl, nextResult, hit, Option.map_some, Option.toList_some, List.mem_singleton] at hr
      rw [hr]
      exact hthrew
  · have hne : ∀ io, e ≠ .next i io := fun io heq => hnext ⟨io, heq⟩
    obtain ⟨more, hgrows⟩ := hmoves.lengthens
    have h' := step_tailing h hok.tailOk hstep
    have hle := step_committed_le hok.soundOk hopen hmoves.isOpen hstep
    refine ⟨⟨it, hmoves.rests hit hne, hp.imp_right (nonePast_grows hgrows (h.behind h' hopen hin hgrows) hle)⟩,
      fun r hr => ?_⟩
    cases e with
    | next j io =>
      rw [returned, if_neg (fun hj => hne io (by rw [hj]))] at hr
      cases hr
    | life e => cases hr
    | query options io => cases hr

theorem run_exact {es : List QueryEvent} (h : y.Tailing) (hb : y.Bounded) (hopen : y.life.isOpen = true)
    (hstay : ∀ e ∈ es, stays e = true) (hall : Runs.Along (step cfg) (ExactOk cfg) y es)
    (hrun : Runs.exec (step cfg) y es = some y') {i : ℕ} {it : LogIterator}
    (hit : y.iterators[i]? = some it) {p : LogPosition}
    (hp : it.place = p ∨ Reading.NonePast y.reading it.place) :
    (∃ it', y'.iterators[i]? = some it' ∧ (it'.place = p ∨ Reading.NonePast y'.reading it'.place)) ∧
      ∀ r ∈ results cfg i y es, ∀ err, r ≠ .threw err := by
  induction es generalizing y it with
  | nil =>
    obtain rfl := Option.some.inj hrun
    exact ⟨⟨it, hit, hp⟩, fun r hr => by cases hr⟩
  | cons e es ih =>
    obtain ⟨y1, hstep, hrest⟩ := Runs.exec_cons.mp hrun
    have hok := hall.1
    have hmoves := step_moves h hopen (hstay e List.mem_cons_self) hok.tailOk hstep
    obtain ⟨⟨it1, hit1, hp1⟩, hthrew⟩ := step_exact h hb hopen (hstay e List.mem_cons_self) hok hstep hit hp
    obtain ⟨hplace, hthrew'⟩ := ih (step_tailing h hok.tailOk hstep) (step_bounded hb hok.soundOk hstep) hmoves.isOpen
      (fun e he => hstay e (List.mem_cons_of_mem _ he)) (hall.2 y1 hstep) hrest hit1 hp1
    refine ⟨hplace, fun r hr => ?_⟩
    rw [results, hstep, Option.map_some, Option.getD_some] at hr
    rcases List.mem_append.mp hr with hr | hr
    · exact hthrew r hr
    · exact hthrew' r hr

/-- In every run whose steps all meet the condition: a query gives an iterator, and when that has been drained,
however often and whatever was committed in between, it has yielded exactly the entries in its range that lie
between the position asked for and the watermark, each once and in order, and no call of `next` has thrown. -/
theorem drained_exactly {es es' : List QueryEvent} {options : TransactionLogQueryOptions}
    {io io' : ReadCalls} {y0 : Querying} (hrun : Runs.exec (step cfg) {} es = some y0)
    (hquery : step cfg y0 (.query options io) = some y) (hrun' : Runs.exec (step cfg) y es' = some y')
    (hall : Runs.Along (step cfg) (ExactOk cfg) {} (es ++ .query options io :: es'))
    (hstay : ∀ e ∈ es', stays e = true) (hexact : options.exactStart = false)
    (hok : ExactOk cfg y' (.next y0.iterators.length io'))
    (hdone : y'.nextResult cfg y0.iterators.length io' = some .done) :
    y.iterators.length = y0.iterators.length + 1 ∧ yields cfg y0.iterators.length y es' = asked options
      (options.start.getD Binary64.zero)
        (y'.life.world.disk.recordsBetween (y0.reading.firstQuery.askedFrom options) y'.store.lastCommittedPosition) ∧
      ∀ r ∈ results cfg y0.iterators.length y es', ∀ err, r ≠ .threw err := by
  obtain ⟨hbefore, hokquery, hafter⟩ := hall.append hrun
  have hafter := hafter y hquery
  have htail := fun s e (h : ExactOk cfg s e) => h.tailOk
  have hsound := fun s e (h : ExactOk cfg s e) => h.soundOk
  have h0 : y0.Tailing := Runs.exec_invariant (fun _ _ _ hi ho hs => step_tailing hi ho hs) tailing_new
    (hbefore.mono htail) hrun
  have hb0 : y0.Bounded := Runs.exec_invariant (fun _ _ _ hi ho hs => step_bounded hi ho hs) (Bounded.fresh {})
    (hbefore.mono hsound) hrun
  obtain ⟨it, hq⟩ := stepQuery_queried h0 hokquery.1 hquery
  have hb := step_bounded hb0 (ExactOk.soundOk hokquery) hquery
  have h' : y'.Tailing := Runs.exec_invariant (fun _ _ _ hi ho hs => step_tailing hi ho hs) hq.tailing
    (hafter.mono htail) hrun'
  have hb' : y'.Bounded := Runs.exec_invariant (fun _ _ _ hi ho hs => step_bounded hi ho hs) hb
    (hafter.mono hsound) hrun'
  obtain ⟨⟨more, hgrows⟩, hpasses⟩ := run_moves hq.tailing hq.isOpen hstay (hafter.mono htail) hrun'
  obtain ⟨it', hit', hp⟩ := hpasses hq.made
  obtain ⟨⟨it1, hit1, hplace⟩, hthrew⟩ := run_exact hq.tailing hb hq.isOpen hstay hafter hrun' hq.made (Or.inl rfl)
  obtain rfl := Option.some.inj (hit'.symm.trans hit1)
  refine ⟨hq.length, ?_, hthrew⟩
  -- the call that gives no entry any more
  have hopen : y'.life.isOpen = true := by
    cases ho : y'.life.isOpen with
    | true => rfl
    | false =>
      rw [h'.left ho] at hit'
      cases hit'
  have hin := List.mem_of_getElem? hit'
  obtain ⟨⟨hio, hno⟩, hmap, hcall⟩ := hok
  obtain ⟨hover, hcovers, hfiles⟩ := hcall it' hit'
  have hs := h'.stands it' hin
  have hfit := h'.fit hopen
  rw [nextResult, hit', Option.map_some, Option.some.injEq] at hdone
  have hrest := hfit.next_done cfg hs hio (hno it' hit') hmap hfiles hdone
  obtain ⟨-, hlast⟩ := hfit.next_total cfg hs hio (hno it' hit') hover (hb'.within it' hin hs.committed) hcovers
  have hpass := hp.trans (hfit.next cfg hs hio (hno it' hit')).1.passes
  rw [hdone, show NextResult.done.entries = [] from rfl, List.append_nil] at hpass
  obtain ⟨rs, hrs, hsel⟩ := hpass.records
  have hnone : (y'.reading.next cfg it' io').2.2.place = it.place ∨
      Reading.NonePast y'.reading (y'.reading.next cfg it' io').2.2.place := by
    rcases hlast with hlast | hlast
    · rw [hlast]
      exact hplace
    · exact Or.inr hlast
  have htaken := Reading.taken_eq hrs hrest hnone
  rw [selects_asked hq.asks hexact] at hsel
  have hstarts := (hq.starts hokquery.2).grows hgrows
    (hq.tailing.behind h' hq.isOpen (List.mem_of_getElem? hq.made) hgrows)
  rw [← (Prod.mk.inj hsel).1, htaken]
  exact (asked_recordsBetween hstarts).symm

section Decisions

instance decidableUnmapped (cfg : StoreConfig) (s : TransactionLogStore) (io : ReadCalls) (k : ℕ) :
    Decidable (Reading.Unmapped cfg s io k) := inferInstanceAs (Decidable (_ ∨ _ ∧ _ ∨ _))

instance decidableCovers (cfg : StoreConfig) (y : Reading) (first : ℕ) : Decidable (Reading.Covers cfg y first) :=
  inferInstanceAs (Decidable (∀ k ≤ _, _))

instance decidableUnbroken (y : Reading) (last : ℕ) : Decidable (y.Unbroken last) :=
  inferInstanceAs (Decidable (∀ k ≤ _, _))

instance decidableCanMap (cfg : StoreConfig) (y : Reading) (io : ReadCalls) : Decidable (Reading.CanMap cfg y io) :=
  inferInstanceAs (Decidable (_ ∧ ∀ e ∈ _, _))

instance decidableExactOk (cfg : StoreConfig) (y : Querying) : ∀ e : QueryEvent, Decidable (ExactOk cfg y e)
  | .life e => decidableTailOk cfg y (.life e)
  | .query options io =>
    inferInstanceAs (Decidable (TailOk cfg y (.query options io) ∧ (_ ∨ ¬ Reading.Unmapped _ _ _ _)))
  | .next i io =>
    inferInstanceAs (Decidable (TailOk cfg y (.next i io) ∧ Reading.CanMap cfg y.reading io ∧
      ∀ it ∈ y.iterators[i]?, _))

end Decisions

/-- A batch of entries of one byte each, and the steps of its call. -/
def logged (timestamp : Binary64) (bytes : List UInt8) (steps : ℕ) : List QueryEvent :=
  .life (.beginWrite ⟨timestamp, bytes.map oneByteEntry, 0⟩) ::
    List.replicate steps (.life (.writer { results := List.replicate bytes.length (.count 14) }))

/-- Three entries fill the first file and a fourth one is in the second, all of them committed. -/
def twoFiles : List QueryEvent :=
  .life .create :: logged ⟨5⟩ [1, 2, 3] 8 ++ logged ⟨6⟩ [4] 15 ++
    [.life (.commitFinished ⟨0, 1⟩ 1), .life (.commitFinished ⟨55, 1⟩ 2)]

/-- Two more entries in the second file and one in a third, committed too. -/
def thirdFile : List QueryEvent := logged ⟨7⟩ [5, 6, 7] 15 ++ [.life (.commitFinished ⟨27, 2⟩ 3)]

/-- So many calls of `next` on the first iterator. -/
def calls (n : ℕ) : List QueryEvent := List.replicate n (.next 0 {})

/-- Five calls drain the reader of the first four entries, and four more of the other three. -/
theorem drained_exactly_twice : ∃ y0 y y', Runs.exec (step ⟨60, 0, none⟩) {} twoFiles = some y0 ∧
    step ⟨60, 0, none⟩ y0 (.query { start := some ⟨5⟩ } {}) = some y ∧
    Runs.exec (step ⟨60, 0, none⟩) y (calls 5 ++ thirdFile ++ calls 3) = some y' ∧
    y'.nextResult ⟨60, 0, none⟩ 0 {} = some .done ∧ y.iterators.length = 1 ∧
    (results ⟨60, 0, none⟩ 0 y (calls 5)).getLast? = some .done ∧
    (yields ⟨60, 0, none⟩ 0 y (calls 5 ++ thirdFile ++ calls 3)).map TransactionEntry.data =
      [[1], [2], [3], [4], [5], [6], [7]] ∧
    yields ⟨60, 0, none⟩ 0 y (calls 5 ++ thirdFile ++ calls 3) = asked { start := some ⟨5⟩ } ⟨5⟩
      (y'.life.world.disk.recordsBetween (y0.reading.firstQuery.askedFrom { start := some ⟨5⟩ })
        y'.store.lastCommittedPosition) ∧
    ∀ r ∈ results ⟨60, 0, none⟩ 0 y (calls 5 ++ thirdFile ++ calls 3), ∀ err, r ≠ .threw err := by
  have hrun := Runs.exec_final (step ⟨60, 0, none⟩) {} twoFiles (by decide +kernel)
  set y0 := Runs.final (step ⟨60, 0, none⟩) {} twoFiles with hy0
  have hquery := Runs.step_final (step ⟨60, 0, none⟩) y0 (.query { start := some ⟨5⟩ } {}) (by decide +kernel)
  set y := Runs.final (step ⟨60, 0, none⟩) y0 [.query { start := some ⟨5⟩ } {}] with hy
  have hrun' := Runs.exec_final (step ⟨60, 0, none⟩) y (calls 5 ++ thirdFile ++ calls 3) (by decide +kernel)
  set y' := Runs.final (step ⟨60, 0, none⟩) y (calls 5 ++ thirdFile ++ calls 3) with hy'
  have hfirst : y0.iterators.length = 0 := by decide +kernel
  have hdone : y'.nextResult ⟨60, 0, none⟩ y0.iterators.length {} = some .done := by decide +kernel
  have hall := drained_exactly hrun hquery hrun' (by decide +kernel) (by decide +kernel) rfl (by decide +kernel) hdone
  rw [hfirst] at hall hdone
  exact ⟨y0, y, y', hrun, hquery, hrun', hdone, hall.1, by decide +kernel, by decide +kernel, hall.2⟩

/-- A reader that asks for what is after timestamp 5 passes the first file and takes the size of the second one for
good. Drained again, it goes on from there in the third file, and two committed entries are lost to it. -/
theorem drained_loses_entries : ∃ y0 y y', Runs.exec (step ⟨60, 0, none⟩) {} twoFiles = some y0 ∧
    step ⟨60, 0, none⟩ y0 (.query { start := some ⟨5⟩, exclusiveStart := true } {}) = some y ∧
    Runs.exec (step ⟨60, 0, none⟩) y (calls 2 ++ thirdFile ++ calls 1) = some y' ∧
    y'.nextResult ⟨60, 0, none⟩ 0 {} = some .done ∧
    (results ⟨60, 0, none⟩ 0 y (calls 2)).getLast? = some .done ∧
    yields ⟨60, 0, none⟩ 0 y (calls 2 ++ thirdFile ++ calls 1) = [⟨⟨6⟩, true, [4]⟩, ⟨⟨7⟩, true, [7]⟩] ∧
    asked { start := some ⟨5⟩, exclusiveStart := true } ⟨5⟩ (y'.life.world.disk.recordsBetween
        (y0.reading.firstQuery.askedFrom { start := some ⟨5⟩, exclusiveStart := true })
          y'.store.lastCommittedPosition) =
      [⟨⟨6⟩, true, [4]⟩, ⟨⟨7⟩, false, [5]⟩, ⟨⟨7⟩, false, [6]⟩, ⟨⟨7⟩, true, [7]⟩] := by
  refine ⟨_, _, _, Runs.exec_final _ _ _ ?_, Runs.step_final _ _ _ ?_, Runs.exec_final _ _ _ ?_, ?_, ?_, ?_, ?_⟩
  all_goals decide +kernel

end Querying

end RocksdbJs
