import RocksdbJs.Sanity.Backup

/-! What a backup snapshot covers. `snapshotForBackup` passes over a file object whose size is
0, and a file that `load` registered has that size until something opens it: of the files that
were there before, `load` opens those that are the newest so far in the order of the directory.
So the snapshot has every entry that was there when it was called in every run in which a file
with an entry is open when its size is read. -/

namespace RocksdbJs

open TransactionLogStore

namespace Backups

variable {y y' : Backups}

/-- A read of the first `byteLimit` bytes of each captured file gives every entry of the files
that were there when the snapshot was begun. -/
def Complete (y : Backups) (c : SnapshotCall) : Prop :=
  ∀ l ∈ c.found, fileRecords l.2 ≠ [] → ∃ e ∈ c.entries, e.seq = l.1 ∧
    fileRecords l.2 <+: fileRecords ((y.disk.bytes l.1).take e.byteLimit)

instance (y : Backups) (c : SnapshotCall) : Decidable (Complete y c) := inferInstanceAs (Decidable (∀ l ∈ c.found, _))

/-- A file whose size is read next is open if it holds an entry, and its time can be read. -/
def readsOpen (y : Backups) (io : SnapshotCalls) (c : SnapshotCall) : Prop :=
  match c.pc with
  | .sizes (seq :: _) =>
    ∀ f ∈ y.store.sequenceFiles.get? seq, fileRecords (y.disk.bytes seq) ≠ [] → f.isOpen = true ∧ io.statted = true
  | _ => True

instance (y : Backups) (io : SnapshotCalls) : ∀ c, Decidable (y.readsOpen io c)
  | ⟨.sizes (seq :: _), _, _, _, _⟩ => inferInstanceAs (Decidable (∀ f ∈ y.store.sequenceFiles.get? seq,
      fileRecords (y.disk.bytes seq) ≠ [] → f.isOpen = true ∧ io.statted = true))
  | ⟨.sizes [], _, _, _, _⟩ => isTrue trivial
  | ⟨.readState, _, _, _, _⟩ => isTrue trivial
  | ⟨.listFiles, _, _, _, _⟩ => isTrue trivial
  | ⟨.returned, _, _, _, _⟩ => isTrue trivial

/-- What a step has to meet. -/
def CaptureOk (y : Backups) : BackupEvent → Prop
  | .life e => y.life.SizesOk y.cfg e
  | .snapshot i io => ∀ c ∈ y.calls[i]?, y.readsOpen io c
  | _ => True

instance (y : Backups) : ∀ e, Decidable (CaptureOk y e)
  | .life e => inferInstanceAs (Decidable (y.life.SizesOk y.cfg e))
  | .snapshot i io => inferInstanceAs (Decidable (∀ c ∈ y.calls[i]?, y.readsOpen io c))
  | .options _ | .beginSnapshot => isTrue trivial

/-- A snapshot that is under way: its files have only grown, and one with an entry is still to
come or has been captured up to where it ended when the snapshot was begun. -/
structure Capturing (y : Backups) (c : SnapshotCall) : Prop where
  grown : ∀ l ∈ c.found, (∃ more, y.disk.logs.get? l.1 = some (l.2 ++ more)) ∧ (y.store.sequenceFiles.get? l.1).isSome
  captured : ∀ l ∈ c.found, fileRecords l.2 ≠ [] → c.Awaits l.1 ∨ ∃ e ∈ c.entries, e.seq = l.1 ∧
    l.2.length ≤ e.byteLimit

structure CapturesSafe (y : Backups) : Prop where
  sizes : y.life.RightSizes
  session : y.life.isOpen = true → InSession y.life.world
  calls : ∀ c ∈ y.calls, Capturing y c

theorem Capturing.complete {c : SnapshotCall} (h : Capturing y c) (hret : c.pc = .returned) : Complete y c := by
  intro l hl hne
  obtain ⟨⟨more, hmore⟩, -⟩ := h.grown l hl
  rcases h.captured l hl hne with hawait | ⟨e, he, hseq, hlen⟩
  · rw [SnapshotCall.Awaits, hret] at hawait
    cases hawait
  · refine ⟨e, he, hseq, ?_⟩
    have hbytes : y.disk.bytes l.1 = l.2 ++ more := by rw [Disk.bytes, hmore, Option.getD_some]
    rw [hbytes, List.take_append, List.take_of_length_le hlen]
    exact fileRecords_append _ _

/-- A step of the store keeps the snapshot of what it leaves. -/
theorem Capturing.advance {c : SnapshotCall} {l : Life} (h : Capturing y c) (hadv : Advances y.life.world l.world)
    {calls : List SnapshotCall} {links : List (ℕ × Bytes)} :
    Capturing { y with life := l, calls := calls, links := links }
    { c with found := stillNamed l.world.disk c.found } := by
  refine ⟨fun m hm => ?_, fun m hm => h.captured m (mem_stillNamed hm).2.1⟩
  obtain ⟨-, hmem, hsome⟩ := mem_stillNamed hm
  obtain ⟨⟨more, hmore⟩, hreg⟩ := h.grown m hmem
  refine ⟨?_, hadv.registered m.1 hreg hsome⟩
  rcases hadv.files hmore with hnone | ⟨more', hafter, -⟩
  · rw [hnone] at hsome
    cases hsome
  · exact ⟨more ++ more', by rw [← List.append_assoc]; exact hafter⟩

/-- A file that is open and holds an entry is captured as far as it goes. -/
theorem backupEntry_open {s : TransactionLogStore} {d : Disk} {current seq : ℕ} {bytes : Bytes}
    {f : TransactionLogFile} (hs : SizesExact s d) (hf : s.sequenceFiles.get? seq = some f)
    (hopen : f.isOpen = true) (hb : d.logs.get? seq = some bytes) (hne : fileRecords bytes ≠ []) :
    s.backupEntry d current seq true = some ⟨seq, bytes.length, decide (seq ≠ current)⟩ := by
  have hsize : f.size = bytes.length := by
    have hopened := (hs hf).opened hopen
    rwa [Disk.bytes, hb, Option.getD_some] at hopened
  have hpos : f.size ≠ 0 := by
    intro h0
    apply hne
    apply fileRecords_of_short
    rw [← hsize, h0]
    exact Nat.zero_le _
  have hthere : ¬ (true = false ∨ (d.logs.get? seq).isNone = true) := by
    rw [hb]
    exact fun h => h.elim (fun h => by cases h) Bool.false_ne_true
  unfold TransactionLogStore.backupEntry
  rw [hf]
  dsimp only
  rw [if_neg hpos, if_neg hthere, hsize]

theorem Capturing.snapshot {c c' : SnapshotCall} {io : SnapshotCalls} (h : Capturing y c)
    (hs : SizesExact y.store y.disk) (hok : y.readsOpen io c) (hstep : c.step y.store y.disk io = some c')
    {calls : List SnapshotCall} {links : List (ℕ × Bytes)} :
    Capturing { y with calls := calls, links := links } c' := by
  obtain ⟨pc, stateEntry, current, entries, found⟩ := c
  cases pc with
  | readState =>
    obtain rfl := Option.some.inj hstep
    exact ⟨h.grown, fun l hl hne => Or.inl trivial⟩
  | listFiles =>
    obtain rfl := Option.some.inj hstep
    refine ⟨h.grown, fun l hl hne => Or.inl ?_⟩
    obtain ⟨f, hf⟩ := Option.isSome_iff_exists.mp (h.grown l hl).2
    exact SeqMap.mem_keys_iff.mpr ⟨f, hf⟩
  | sizes rest =>
    cases rest with
    | nil =>
      obtain rfl := Option.some.inj hstep
      refine ⟨h.grown, fun l hl hne => ?_⟩
      rcases h.captured l hl hne with hawait | hdone
      · cases hawait
      · exact Or.inr hdone
    | cons seq rest =>
      obtain rfl := Option.some.inj hstep
      refine ⟨h.grown, fun l hl hne => ?_⟩
      rcases h.captured l hl hne with hawait | ⟨e, he, hdone⟩
      · rcases List.mem_cons.mp hawait with hseq | hrest
        · -- the turn of this file
          obtain ⟨⟨more, hmore⟩, hreg⟩ := h.grown l hl
          obtain ⟨f, hf⟩ := Option.isSome_iff_exists.mp hreg
          have hbytes : y.disk.bytes l.1 = l.2 ++ more := by rw [Disk.bytes, hmore, Option.getD_some]
          have hne' : fileRecords (l.2 ++ more) ≠ [] := by
            intro hnil
            have hpre := fileRecords_append l.2 more
            rw [hnil] at hpre
            exact hne (List.prefix_nil.mp hpre)
          obtain ⟨hopen, hstat⟩ := hok f (hseq ▸ hf) (by rw [← hseq, hbytes]; exact hne')
          refine Or.inr ⟨⟨l.1, (l.2 ++ more).length, decide (l.1 ≠ current)⟩, List.mem_append_right _ ?_, rfl, ?_⟩
          · rw [Option.mem_toList, hstat, ← hseq]
            exact backupEntry_open hs hf hopen hmore hne'
          · rw [List.length_append]
            exact Nat.le_add_right _ _
        · exact Or.inl hrest
      · exact Or.inr ⟨e, List.mem_append_left _ he, hdone⟩
  | returned => cases hstep

theorem Capturing.begin : Capturing y { found := registeredFiles y.store y.disk } := by
  refine ⟨fun l hl => ?_, fun l hl hne => Or.inl trivial⟩
  obtain ⟨hmem, hreg⟩ := List.mem_filter.mp hl
  exact ⟨⟨[], by rw [List.append_nil]; exact SeqMap.get?_eq_some_iff.mpr hmem⟩, hreg⟩

theorem step_capturesSafe {e : BackupEvent} (h : CapturesSafe y) (hok : CaptureOk y e)
    (hstep : y.step e = some y') : CapturesSafe y' := by
  cases e with
  | life e =>
    simp only [step, Option.map_eq_some_iff] at hstep
    obtain ⟨l, hlife, rfl⟩ := hstep
    have hsizes := Life.step_rightSizes h.sizes hok hlife
    unfold Life.step at hlife
    cases hopen : y.life.isOpen with
    | true =>
      rw [hopen, if_pos rfl] at hlife
      refine ⟨hsizes, fun hopen' => (Life.stepOpen_advances (h.session hopen) hopen' hlife).session, fun c hc => ?_⟩
      simp only [true_and] at hc
      split_ifs at hc with hopen'
      · obtain ⟨c0, hc0, rfl⟩ := List.mem_map.mp hc
        exact (h.calls c0 hc0).advance (Life.stepOpen_advances (h.session hopen) hopen' hlife)
      · cases hc
    | false =>
      rw [hopen, if_neg Bool.false_ne_true] at hlife
      refine ⟨hsizes, fun hopen' => Life.stepClosed_session hopen hopen' hlife, fun c hc => ?_⟩
      rw [if_neg fun hb => Bool.false_ne_true hb.1] at hc
      cases hc
  | options cfg =>
    simp only [step] at hstep
    split_ifs at hstep
    obtain rfl := Option.some.inj hstep
    exact ⟨h.sizes, h.session, fun c hc => ⟨(h.calls c hc).grown, (h.calls c hc).captured⟩⟩
  | beginSnapshot =>
    simp only [step] at hstep
    split_ifs at hstep
    obtain rfl := Option.some.inj hstep
    refine ⟨h.sizes, h.session, fun c hc => ?_⟩
    rcases List.mem_append.mp hc with hc | hc
    · exact ⟨(h.calls c hc).grown, (h.calls c hc).captured⟩
    · obtain rfl := List.mem_singleton.mp hc
      exact ⟨Capturing.begin.grown, Capturing.begin.captured⟩
  | snapshot i io =>
    simp only [step] at hstep
    split_ifs at hstep with hopen
    simp only [Option.bind_eq_some_iff, Option.map_eq_some_iff] at hstep
    obtain ⟨c, hc, c', hc', rfl⟩ := hstep
    refine ⟨h.sizes, h.session, fun c2 hc2 => ?_⟩
    rcases List.mem_or_eq_of_mem_set hc2 with hmem | rfl
    · exact ⟨(h.calls c2 hmem).grown, (h.calls c2 hmem).captured⟩
    · exact (h.calls c (List.mem_of_getElem? hc)).snapshot (h.sizes hopen).1 (hok c hc) hc'

/-- Over every history of a directory, whatever it holds at first: a snapshot that has returned
covers every entry that was there when it was called and has not been purged since. -/
theorem snapshot_covers_entries {y0 : Backups} {es : List BackupEvent} {c : SnapshotCall}
    (h0 : y0.life.isOpen = false) (hcalls : y0.calls = []) (hrun : Runs.exec step y0 es = some y)
    (hall : Runs.Along step CaptureOk y0 es) (hc : c ∈ y.calls) (hret : c.pc = .returned) :
    Complete y c := by
  have hstart : CapturesSafe y0 := by
    have hclosed : ∀ {p : Prop}, y0.life.isOpen = true → p := fun ho => absurd (h0.symm.trans ho) Bool.false_ne_true
    refine ⟨fun ho => hclosed ho, fun ho => hclosed ho, fun c hc => ?_⟩
    rw [hcalls] at hc
    cases hc
  have hsafe : CapturesSafe y := Runs.exec_invariant (fun _ _ _ hi ho hs => step_capturesSafe hi ho hs) hstart hall hrun
  exact (hsafe.calls c hc).complete hret

/-- Two files of one entry each, from an earlier store. -/
def twoFiles : List BackupEvent := .life .create :: smallBatch ++ smallBatch ++ [.life .crash]

/-- A snapshot of the store that the next `load` makes. -/
def snapshotAfter (order : List ℕ) : List BackupEvent :=
  twoFiles ++ .life (.load order {}) :: .beginSnapshot :: List.replicate 5 (.snapshot 0 {})

/-- The older file is met first, so both are opened. -/
theorem snapshot_covers_entries_ascending :
    ∃ y c, Runs.exec step { cfg := ⟨27, 0, none⟩ } (snapshotAfter [1, 2]) = some y ∧
    y.calls[0]? = some c ∧ c.pc = .returned ∧ c.found.map Prod.fst = [1, 2] ∧ Complete y c := by
  have hrun := Runs.exec_final step { cfg := ⟨27, 0, none⟩ } (snapshotAfter [1, 2]) (by decide +kernel)
  obtain ⟨c, hc⟩ := Option.isSome_iff_exists.mp
    (show (Runs.final step { cfg := ⟨27, 0, none⟩ } (snapshotAfter [1, 2])).calls[0]?.isSome by decide +kernel)
  have hret : ∀ c ∈ (Runs.final step { cfg := ⟨27, 0, none⟩ } (snapshotAfter [1, 2])).calls[0]?,
      c.pc = .returned ∧ c.found.map Prod.fst = [1, 2] := by decide +kernel
  obtain ⟨hpc, hfound⟩ := hret c hc
  exact ⟨_, c, hrun, hc, hpc, hfound, snapshot_covers_entries rfl rfl hrun (by decide +kernel)
    (List.mem_of_getElem? hc) hpc⟩

/-- The older file is met last and never opened, and the snapshot leaves it out. -/
theorem snapshot_misses_file : ∃ y, Runs.exec step { cfg := ⟨27, 0, none⟩ } (snapshotAfter [2, 1]) = some y ∧
    ∃ c ∈ y.calls, c.pc = .returned ∧ ¬ Complete y c := by
  refine ⟨_, Runs.exec_final step _ _ ?_, ?_⟩
  all_goals decide +kernel

end Backups

end RocksdbJs
