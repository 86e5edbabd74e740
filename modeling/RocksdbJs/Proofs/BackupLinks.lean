import RocksdbJs.Sanity.Backup

/-! The files that backups link. `snapshotForBackup` calls a file immutable when it is not the
current one, and a rotation makes the next number current before there is a file of it. When
the process ends there, the next `load` takes the linked file for the newest one and goes on
in it. So a linked file keeps its bytes in every run in which each `load` finds a file after
it. -/

namespace RocksdbJs

open TransactionLogStore

/-- The scan of `load` keeps the file and opens it. -/
def Reopens (cfg : StoreConfig) (io : FilesCalls) (d : Disk) (n : ℕ) : Prop :=
  (expired cfg io n = false ∧ (0 < cfg.retentionMs → (io.mtime n).isSome)) ∧
    ((io.openCalls n).opened = true ∧ (io.openCalls n).statted = true ∧ (io.openCalls n).readable = true) ∧
    ValidHeader (d.bytes n) ∧ (d.bytes n).length < UINT32_RANGE

instance (cfg : StoreConfig) (io : FilesCalls) (d : Disk) (n : ℕ) : Decidable (Reopens cfg io d n) :=
  inferInstanceAs (Decidable ((_ ∧ _) ∧ (_ ∧ _ ∧ _) ∧ _ ∧ _))

section
variable {cfg : StoreConfig} {io : FilesCalls} {s : TransactionLogStore} {d d0 : Disk} {seq q n : ℕ}
    {b : Bytes} {todo : List ℕ}

/-- A file that is met, kept and opened is not above the current one afterwards. -/
theorem registerLogFile_reopens (hb : d.logs.get? n = d0.logs.get? n) (hre : Reopens cfg io d0 n) :
    n ≤ (s.registerLogFile d n io).1.currentSequenceNumber := by
  unfold registerLogFile
  dsimp only
  generalize hf : ({ sequenceNumber := n, fileLastWriteTime := (io.mtime n).getD io.now } : TransactionLogFile) = f
  have hclosed : f.isOpen = false := by rw [← hf]
  have hversion : f.version = 1 := by rw [← hf]
  split_ifs with hle
  · have hopens : ((s.setFile n f).ensureOpen d n f (io.openCalls n)).1 = none := by
      unfold ensureOpen
      rw [if_neg (by rw [hclosed]; exact Bool.false_ne_true)]
      simp only [openLogFile, hb]
      exact (open_newest _ _ hclosed hversion hre.2.1 hre.2.2.1 hre.2.2.2).1
    rw [hopens]
  · exact (not_le.mp hle).le

/-- The scan with `todo` still to come: the linked file is as it was or gone, and once the
later one is met the current number is at least its. -/
structure ScanKeeps (d0 : Disk) (q n : ℕ) (b : Bytes) (todo : List ℕ) (sd : TransactionLogStore × Disk) : Prop where
  linked : sd.2.logs.get? q = some b ∨ sd.2.logs.get? q = none
  unmet : ∀ p ∈ todo, sd.2.logs.get? p = d0.logs.get? p
  met : n ∉ todo → n ≤ sd.1.currentSequenceNumber

theorem Onward.fixed {after : Option Bytes} (h : Onward True b after) (hb : NotBlank b) :
    after = some b ∨ after = none := by
  rcases h with hnone | ⟨more, hafter, hmore⟩
  · exact Or.inr hnone
  · rw [hmore trivial hb, List.append_nil] at hafter
    exact Or.inl hafter

theorem ScanKeeps.loadFile {sd : TransactionLogStore × Disk} (h : ScanKeeps d0 q n b (seq :: todo) sd)
    (hnew : seq ∉ todo) (hb : NotBlank b) (hq0 : d0.logs.get? q = some b) (hre : Reopens cfg io d0 n) :
    ScanKeeps d0 q n b todo (loadFile cfg io sd seq) := by
  have hunmet : ∀ p ∈ todo, p ≠ seq ∧ sd.2.logs.get? p = d0.logs.get? p :=
    fun p hp => ⟨fun he => hnew (he ▸ hp), h.unmet p (List.mem_cons_of_mem _ hp)⟩
  have hother : seq ≠ n → n ∉ todo → n ∉ seq :: todo := by
    intro hne hn hm
    rcases List.mem_cons.mp hm with he | hm
    · exact hne he.symm
    · exact hn hm
  have hkept : seq = n → expired cfg io seq ≠ true ∧ ¬ (0 < cfg.retentionMs ∧ (io.mtime seq).isNone = true) := by
    rintro rfl
    refine ⟨fun hexp => absurd (hre.1.1.symm.trans hexp) Bool.false_ne_true, fun hstat => ?_⟩
    have hsome := hre.1.2 hstat.1
    rw [Option.isNone_iff_eq_none.mp hstat.2] at hsome
    cases hsome
  unfold TransactionLogStore.loadFile
  split_ifs with hstat hexp hrem
  · -- what is passed over or expired is not the later file
    exact ⟨h.linked, fun p hp => (hunmet p hp).2, fun hn => h.met (hother (fun he => (hkept he).2 hstat) hn)⟩
  · refine ⟨?_, fun p hp => ?_, fun hn => h.met (hother (fun he => (hkept he).1 hexp) hn)⟩
    · change (sd.2.logs.erase seq).get? q = some b ∨ (sd.2.logs.erase seq).get? q = none
      rw [SeqMap.get?_erase]
      split_ifs
      · exact Or.inr rfl
      · exact h.linked
    · change (sd.2.logs.erase seq).get? p = d0.logs.get? p
      rw [SeqMap.get?_erase, if_neg (hunmet p hp).1]
      exact (hunmet p hp).2
  · exact ⟨h.linked, fun p hp => (hunmet p hp).2, fun hn => h.met (hother (fun he => (hkept he).1 hexp) hn)⟩
  · have hreg := registerLogFile_registers sd.1 sd.2 seq io
    refine ⟨?_, fun p hp => (hreg.get?_ne p (hunmet p hp).1).trans (hunmet p hp).2, fun hn => ?_⟩
    · by_cases hq : q = seq
      · have hl : sd.2.logs.get? q = some b := (h.unmet q (hq ▸ List.mem_cons_self)).trans hq0
        exact (hreg.files hl).fixed hb
      · rw [hreg.get?_ne q hq]
        exact h.linked
    · by_cases hne : seq = n
      · rw [hne]
        exact registerLogFile_reopens (h.unmet n (hne ▸ List.mem_cons_self)) hre
      · have hle := h.met (hother hne hn)
        rcases hreg.current with hc | ⟨hc, hle'⟩
        · rw [hc]; exact hle
        · rw [hc]; exact hle.trans hle'

theorem scan_keeps {l : List ℕ} {sd : TransactionLogStore × Disk} (h : ScanKeeps d0 q n b l sd)
    (hnd : l.Nodup) (hb : NotBlank b) (hq0 : d0.logs.get? q = some b) (hre : Reopens cfg io d0 n) :
    ScanKeeps d0 q n b [] (l.foldl (loadFile cfg io) sd) := by
  induction l generalizing sd with
  | nil => exact h
  | cons seq l ih =>
    rw [List.nodup_cons] at hnd
    exact ih (h.loadFile hnd.1 hb hq0 hre) hnd.2

end

namespace Backups

variable {y y' : Backups}

/-- Every linked file that still has its name in the directory has the bytes it was linked with. -/
def LinksKept (y : Backups) : Prop := ∀ l ∈ y.links, y.disk.logs.get? l.1 = some l.2

instance (y : Backups) : Decidable y.LinksKept := inferInstanceAs (Decidable (∀ l ∈ y.links, _))

/-- The file whose size the call reads next, if it will be called immutable, is below the
current one, and not blank. -/
def linksBelow (y : Backups) (c : SnapshotCall) : Prop :=
  match c.pc with
  | .sizes (seq :: _) => seq ≠ c.current → ∀ f ∈ y.store.sequenceFiles.get? seq, f.size ≠ 0 →
      seq < y.store.currentSequenceNumber ∧ NotBlank (y.disk.bytes seq)
  | _ => True

instance (y : Backups) : ∀ c, Decidable (y.linksBelow c)
  | ⟨.sizes (seq :: _), _, current, _, _⟩ =>
    inferInstanceAs (Decidable (seq ≠ current → ∀ f ∈ y.store.sequenceFiles.get? seq, f.size ≠ 0 →
      seq < y.store.currentSequenceNumber ∧ NotBlank (y.disk.bytes seq)))
  | ⟨.sizes [], _, _, _, _⟩ => isTrue trivial
  | ⟨.readState, _, _, _, _⟩ => isTrue trivial
  | ⟨.listFiles, _, _, _, _⟩ => isTrue trivial
  | ⟨.returned, _, _, _, _⟩ => isTrue trivial

/-- What a step has to meet: `load` finds a file after each linked one, and a snapshot links
below the current file only. -/
def LinkOk (y : Backups) : BackupEvent → Prop
  | .life (.load order io) => ∀ l ∈ y.links, ∃ n ∈ order, l.1 < n ∧ Reopens y.cfg io y.disk n
  | .snapshot i _ => ∀ c ∈ y.calls[i]?, y.linksBelow c
  | _ => True

instance (y : Backups) : ∀ e, Decidable (LinkOk y e)
  | .life (.load order io) =>
    inferInstanceAs (Decidable (∀ l ∈ y.links, ∃ n ∈ order, l.1 < n ∧ Reopens y.cfg io y.disk n))
  | .snapshot i _ => inferInstanceAs (Decidable (∀ c ∈ y.calls[i]?, y.linksBelow c))
  | .life .create | .life (.beginWrite _) | .life (.writer _) | .life (.commitFinished _ _) | .life (.commitAborted _)
  | .life (.flushScan _) | .life (.flushWrite _) | .life .getLastCommittedPosition | .life (.getLogFileSize _ _)
  | .life (.findPosition _ _) | .life (.purge _ _ _) | .life (.close _) | .life .crash | .options _
  | .beginSnapshot => isTrue trivial

structure LinksSafe (y : Backups) : Prop where
  kept : ∀ l ∈ y.links, y.disk.logs.get? l.1 = some l.2 ∧ NotBlank l.2
  session : y.life.isOpen = true → InSession y.life.world ∧ ∀ l ∈ y.links, l.1 < y.store.currentSequenceNumber

/-- A link that is still named after a step that leaves its file or removes it. -/
theorem kept_of_named {d : Disk} {links : List (ℕ × Bytes)}
    (h : ∀ l ∈ links, NotBlank l.2 ∧ (d.logs.get? l.1 = some l.2 ∨ d.logs.get? l.1 = none)) :
    ∀ l ∈ stillNamed d links, d.logs.get? l.1 = some l.2 ∧ NotBlank l.2 := by
  intro l hl
  obtain ⟨-, hmem, hsome⟩ := mem_stillNamed hl
  obtain ⟨hb, hfile | hfile⟩ := h l hmem
  · exact ⟨hfile, hb⟩
  · rw [hfile] at hsome
    cases hsome

theorem LinksSafe.stepOpen {e : Event} {l : Life} (h : LinksSafe y) (hopen : y.life.isOpen = true)
    (hstep : y.life.stepOpen y.cfg e = some l) (calls : List SnapshotCall) :
    LinksSafe { y with life := l, calls := calls, links := stillNamed l.world.disk y.links } := by
  obtain ⟨hsess, hbelow⟩ := h.session hopen
  cases hopen' : l.isOpen with
  | true =>
    have hadv := Life.stepOpen_advances hsess hopen' hstep
    refine ⟨kept_of_named fun m hm => ⟨(h.kept m hm).2, ?_⟩, fun _ => ⟨hadv.session, fun m hm => ?_⟩⟩
    · rcases hadv.files (h.kept m hm).1 with hnone | ⟨more, hafter, hmore⟩
      · exact Or.inr hnone
      · rw [hmore (hbelow m hm) (h.kept m hm).2, List.append_nil] at hafter
        exact Or.inl hafter
    · exact (hbelow m (mem_stillNamed hm).2.1).trans_le hadv.current_le
  | false =>
    have hdisk := Life.stepOpen_ends hopen hopen' hstep
    refine ⟨kept_of_named fun m hm => ⟨(h.kept m hm).2, Or.inl ?_⟩,
      fun ho => absurd (hopen'.symm.trans ho) Bool.false_ne_true⟩
    rw [hdisk]
    exact (h.kept m hm).1

/-- `load` leaves a linked file as it is, or removes it, and its store's current number is above it. -/
theorem load_linked {cfg : StoreConfig} {d : Disk} {order : List ℕ} {io : FilesCalls} {q n : ℕ}
    {b : Bytes} (hnd : order.Nodup) (hq0 : d.logs.get? q = some b) (hb : NotBlank b) (hn : n ∈ order)
    (hlt : q < n) (hre : Reopens cfg io d n) :
    ((load cfg d order io).2.logs.get? q = some b ∨ (load cfg d order io).2.logs.get? q = none) ∧
      ∀ s ∈ (load cfg d order io).1, q < s.currentSequenceNumber := by
  have hstart : ScanKeeps d q n b order ({}, d) := ⟨Or.inl hq0, fun _ _ => rfl, fun hnot => absurd hn hnot⟩
  have hscan := scan_keeps hstart hnd hb hq0 hre
  obtain ⟨hcounters, hfiles⟩ := load_cases cfg d order io
  have hcur : n ≤ (order.foldl (loadFile cfg io) ({}, d)).1.currentSequenceNumber := hscan.met List.not_mem_nil
  refine ⟨?_, fun s hs => ?_⟩
  · rw [hfiles q (by omega)]
    exact hscan.linked
  · rw [(hcounters s hs).1]
    omega

theorem LinksSafe.stepClosed {e : Event} {l : Life} (h : LinksSafe y) (hclosed : y.life.isOpen = false)
    (hok : LinkOk y (.life e)) (hstep : y.life.stepClosed y.cfg e = some l) (calls : List SnapshotCall) :
    LinksSafe { y with life := l, calls := calls, links := stillNamed l.world.disk y.links } := by
  have hsess := fun hopen' => Life.stepClosed_session hclosed hopen' hstep
  cases e with
  | create =>
    simp only [Life.stepClosed] at hstep
    split_ifs at hstep with hdir
    obtain rfl := Option.some.inj hstep
    have hnone : stillNamed y.life.world.disk y.links = [] := if_neg hdir
    refine ⟨?_, fun _ => ⟨hsess rfl, ?_⟩⟩
    all_goals
      rw [hnone]
      exact fun m hm => by cases hm
  | load order io =>
    simp only [Life.stepClosed] at hstep
    split_ifs at hstep with hperm
    have hnd : order.Nodup := hperm.2.nodup_iff.mpr (y.life.world.disk.logs.sorted.imp fun hlt => ne_of_lt hlt)
    have hlinked : ∀ m ∈ y.links, ((load y.cfg y.disk order io).2.logs.get? m.1 = some m.2 ∨
      (load y.cfg y.disk order io).2.logs.get? m.1 = none) ∧
        ∀ s ∈ (load y.cfg y.disk order io).1, m.1 < s.currentSequenceNumber := by
      intro m hm
      obtain ⟨n, hn, hlt, hre⟩ := hok m hm
      exact load_linked hnd (h.kept m hm).1 (h.kept m hm).2 hn hlt hre
    have hkept := kept_of_named fun m hm => ⟨(h.kept m hm).2, (hlinked m hm).1⟩
    split at hstep
    · rename_i s d hload
      obtain rfl := Option.some.inj hstep
      have hs : s ∈ (load y.cfg y.disk order io).1 := by rw [Backups.disk, hload]; rfl
      have hd : (load y.cfg y.disk order io).2 = d := by rw [Backups.disk, hload]
      rw [hd] at hkept
      exact ⟨hkept, fun _ => ⟨hsess rfl, fun m hm => (hlinked m (mem_stillNamed hm).2.1).2 s hs⟩⟩
    · rename_i d hload
      obtain rfl := Option.some.inj hstep
      have hd : (load y.cfg y.disk order io).2 = d := by rw [Backups.disk, hload]
      rw [hd] at hkept
      exact ⟨hkept, fun ho => absurd (hclosed.symm.trans ho) Bool.false_ne_true⟩
  | _ => cases hstep

/-- A file that a step calls immutable is on disk, and below the current one. -/
theorem mem_newLinks {c c' : SnapshotCall} {io : SnapshotCalls} {l : ℕ × Bytes} (hbelow : y.linksBelow c)
    (hstep : c.step y.store y.disk io = some c') (hl : l ∈ newLinks y.disk c c') :
    y.disk.logs.get? l.1 = some l.2 ∧ NotBlank l.2 ∧ l.1 < y.store.currentSequenceNumber := by
  obtain ⟨pc, stateEntry, current, entries, found⟩ := c
  simp only [newLinks, List.mem_map, List.mem_filter] at hl
  obtain ⟨e, ⟨he, himm⟩, rfl⟩ := hl
  cases pc with
  | readState =>
    obtain rfl := Option.some.inj hstep
    rw [List.drop_length] at he
    cases he
  | listFiles =>
    obtain rfl := Option.some.inj hstep
    rw [List.drop_length] at he
    cases he
  | sizes rest =>
    cases rest with
    | nil =>
      obtain rfl := Option.some.inj hstep
      rw [List.drop_length] at he
      cases he
    | cons seq rest =>
      obtain rfl := Option.some.inj hstep
      rw [List.drop_left, Option.mem_toList] at he
      simp only [backupEntry] at he
      cases hf : y.store.sequenceFiles.get? seq with
      | none =>
        rw [hf] at he
        cases he
      | some f =>
        rw [hf] at he
        dsimp only at he
        by_cases hsize : f.size = 0
        · rw [if_pos hsize] at he
          cases he
        rw [if_neg hsize] at he
        by_cases hstat : io.statted = false ∨ (y.disk.logs.get? seq).isNone
        · rw [if_pos hstat] at he
          cases he
        rw [if_neg hstat] at he
        obtain rfl := Option.some.inj he
        rw [not_or, Option.isNone_iff_eq_none] at hstat
        obtain ⟨bytes, hb⟩ := Option.ne_none_iff_exists'.mp hstat.2
        obtain ⟨hlt, hnb⟩ := hbelow (of_decide_eq_true himm) f hf hsize
        have hbytes : y.disk.bytes seq = bytes := by rw [Disk.bytes, hb, Option.getD_some]
        exact ⟨by rw [hbytes]; exact hb, hnb, hlt⟩
  | returned => cases hstep

theorem step_linksSafe {e : BackupEvent} (h : LinksSafe y) (hok : LinkOk y e) (hstep : y.step e = some y') :
    LinksSafe y' := by
  cases e with
  | life e =>
    simp only [step, Option.map_eq_some_iff] at hstep
    obtain ⟨l, hlife, rfl⟩ := hstep
    unfold Life.step at hlife
    cases hopen : y.life.isOpen with
    | true =>
      rw [hopen, if_pos rfl] at hlife
      exact h.stepOpen hopen hlife _
    | false =>
      rw [hopen, if_neg Bool.false_ne_true] at hlife
      exact h.stepClosed hopen hok hlife _
  | options cfg =>
    simp only [step] at hstep
    split_ifs at hstep
    obtain rfl := Option.some.inj hstep
    exact ⟨h.kept, h.session⟩
  | beginSnapshot =>
    simp only [step] at hstep
    split_ifs at hstep
    obtain rfl := Option.some.inj hstep
    exact ⟨h.kept, h.session⟩
  | snapshot i io =>
    simp only [step] at hstep
    split_ifs at hstep with hopen
    simp only [Option.bind_eq_some_iff, Option.map_eq_some_iff] at hstep
    obtain ⟨c, hc, c', hc', rfl⟩ := hstep
    have hnew : ∀ l ∈ newLinks y.disk c c', _ := fun l hl => mem_newLinks (hok c hc) hc' hl
    obtain ⟨hsess, hbelow⟩ := h.session hopen
    refine ⟨fun l hl => ?_, fun _ => ⟨hsess, fun l hl => ?_⟩⟩
    · rcases List.mem_append.mp hl with hl | hl
      · exact h.kept l hl
      · exact ⟨(hnew l hl).1, (hnew l hl).2.1⟩
    · rcases List.mem_append.mp hl with hl | hl
      · exact hbelow l hl
      · exact (hnew l hl).2.2

/-- Over every history of a directory, whatever it holds at first and whatever options its
stores are opened with: a file that a backup has linked keeps its bytes. -/
theorem linked_files_keep_bytes {y0 : Backups} {es : List BackupEvent} (h0 : y0.life.isOpen = false)
    (hlinks : y0.links = []) (hrun : Runs.exec step y0 es = some y) (hall : Runs.Along step LinkOk y0 es) :
    LinksKept y := by
  have hstart : LinksSafe y0 := by
    refine ⟨fun l hl => ?_, fun ho => absurd (h0.symm.trans ho) Bool.false_ne_true⟩
    rw [hlinks] at hl
    cases hl
  have hsafe : LinksSafe y := Runs.exec_invariant (fun _ _ _ hi ho hs => step_linksSafe hi ho hs) hstart hall hrun
  exact fun l hl => (hsafe.kept l hl).1

/-- A batch fills the first file, and a backup links it. -/
def linkedFile : List BackupEvent := .life .create :: smallBatch ++ .beginSnapshot :: List.replicate 4 (.snapshot 0 {})

/-- The second file is there before the crash, and the next store goes on in it. -/
def nextFileWritten : List BackupEvent :=
  linkedFile ++ smallBatch ++ [.life .crash, .options ⟨200, 0, none⟩, .life (.load [2, 1] {})] ++ smallBatch

theorem linked_files_keep_bytes_after_crash : ∃ y, Runs.exec step { cfg := ⟨27, 0, none⟩ } nextFileWritten = some y ∧
    y.links.map Prod.fst = [1] ∧ (y.disk.bytes 2).length = 41 ∧ LinksKept y := by
  have hrun := Runs.exec_final step { cfg := ⟨27, 0, none⟩ } nextFileWritten (by decide +kernel)
  exact ⟨_, hrun, by decide +kernel, by decide +kernel, linked_files_keep_bytes rfl rfl hrun (by decide +kernel)⟩

/-- The store is opened with a larger file size after a crash, before there is a second file. -/
def nextFileMissing : List BackupEvent :=
  linkedFile ++ [.life .crash, .options ⟨200, 0, none⟩, .life (.load [1] {})] ++ smallBatch

theorem linked_file_appended :
    ∃ y, Runs.exec step { cfg := ⟨27, 0, none⟩ } nextFileMissing = some y ∧ ¬ LinksKept y := by
  refine ⟨_, Runs.exec_final step _ _ ?_, ?_⟩
  all_goals decide +kernel

end Backups

end RocksdbJs
