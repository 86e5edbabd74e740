import RocksdbJs.Proofs.StreamSafety
import RocksdbJs.Proofs.TarRoundTrip

/-! The archive of a streamed backup whose promise is resolved: it holds the live files and the
snapshot of the transaction logs, each under its name and with the bytes up to its recorded size. -/

namespace RocksdbJs
namespace BackupStream

section Scripts

theorem events_append (xs ys : List WorkerStep) : events (xs ++ ys) = events xs ++ events ys := List.filterMap_append

theorem andThen_ok {first second : Script} (h : (first.andThen second).status = .ok ()) :
    first.status = .ok () ∧ second.status = .ok () ∧ (first.andThen second).steps = first.steps ++ second.steps := by
  rw [Script.andThen] at h ⊢
  split at h
  · rename_i u hfirst
    exact ⟨hfirst, h, rfl⟩
  · rename_i e hfirst
    rw [hfirst] at h
    cases h

/-- The entries of an archive, the last one first, after the events. -/
def entriesOf (entries : List TarEntry) (evs : List StreamEvent) : List TarEntry :=
  evs.foldl (fun entries ev => match ev, entries with
    | .file name fileSize _, entries => ⟨name, fileSize, []⟩ :: entries
    | .chunk _, [] => []
    | .chunk data, entry :: entries => { entry with data := entry.data ++ data } :: entries) entries

theorem entriesOf_append (entries : List TarEntry) (xs ys : List StreamEvent) :
    entriesOf entries (xs ++ ys) = entriesOf (entriesOf entries xs) ys := List.foldl_append

/-- Chunks go to the entry that is open. -/
theorem entriesOf_chunks (entry : TarEntry) (entries : List TarEntry) (chunks : List Bytes) :
    entriesOf (entry :: entries) (chunks.map .chunk) = { entry with data := entry.data ++ chunks.flatten } ::
      entries := by
  induction chunks generalizing entry with
  | nil => rw [List.flatten_nil, List.append_nil]; rfl
  | cons chunk chunks ih =>
    have hnext := ih { entry with data := entry.data ++ chunk }
    rw [List.flatten_cons, ← List.append_assoc]
    exact hnext

/-- A file gives its bytes in their order, and what it gives stays. -/
def Reads (source : SourceFile) (content : Bytes) : Prop :=
  ∀ file, source.newSequentialFile = .ok file → ∀ offset n result, file.read offset n = .ok result →
    result.val <+: content.drop offset

/-- A loop that hands over a file hands over all of it, in pieces. -/
def HandsOver (script : Script) (data : Bytes) : Prop :=
  script.status = .ok () → ∃ chunks : List Bytes, events script.steps = chunks.map .chunk ∧ chunks.flatten = data

theorem HandsOver.after {chunk data : Bytes} {script : Script} (h : HandsOver script data) :
    HandsOver (.after (.emit (.chunk chunk)) script) (chunk ++ data) := by
  intro hok
  obtain ⟨chunks, hevents, hflat⟩ := h hok
  refine ⟨chunk :: chunks, ?_, by rw [List.flatten_cons, hflat]⟩
  rw [List.map_cons, ← hevents]
  rfl

theorem handsOver_done : HandsOver (.done (.ok ())) [] := fun _ => ⟨[], rfl, rfl⟩

theorem handsOver_error {e : StreamError} {data : Bytes} : HandsOver (.done (.error e)) data :=
  fun herr => by cases herr

theorem readLoop_handsOver {file : SequentialFile} {path : String} {content : Bytes}
    (hreads : ∀ offset n result, file.read offset n = .ok result → result.val <+: content.drop offset)
    {byteLimit remaining : ℕ} (hle : remaining ≤ byteLimit) :
    HandsOver (readLoop file path byteLimit remaining) ((content.drop (byteLimit - remaining)).take remaining) := by
  induction remaining using Nat.strong_induction_on with
  | _ remaining ih =>
    rw [readLoop]
    split_ifs with hzero
    · rw [hzero, List.take_zero]
      exact handsOver_done
    · split
      · exact handsOver_error
      · rename_i result hread
        split_ifs with hempty
        · exact handsOver_error
        · have hpos := List.length_pos_iff.mpr hempty
          have hsize := result.property.trans (min_le_left _ _)
          obtain ⟨rest, hrest⟩ := hreads _ _ _ hread
          -- what is left of the file begins with what was read
          have hnext := ih (remaining - result.val.length) (by omega) (by omega)
          have hdrop : content.drop (byteLimit - (remaining - result.val.length)) = rest := by
            rw [show byteLimit - (remaining - result.val.length) = byteLimit - remaining + result.val.length by omega,
              ← List.drop_drop,
              ← hrest, List.drop_left]
          have htake : (content.drop (byteLimit - remaining)).take remaining =
              result.val ++ (content.drop (byteLimit - (remaining - result.val.length))).take (remaining -
                result.val.length) := by
            rw [hdrop, ← hrest, List.take_append, List.take_of_length_le hsize]
          rw [htake]
          exact hnext.after

/-- The loop ends well only if the file is long enough. -/
theorem readLoop_long {file : SequentialFile} {path : String} {content : Bytes}
    (hreads : ∀ offset n result, file.read offset n = .ok result → result.val <+: content.drop offset)
    {byteLimit remaining : ℕ} (hle : remaining ≤ byteLimit)
    (hok : (readLoop file path byteLimit remaining).status = .ok ()) :
    remaining ≤ (content.drop (byteLimit - remaining)).length := by
  induction remaining using Nat.strong_induction_on with
  | _ remaining ih =>
    rw [readLoop] at hok
    split_ifs at hok with hzero
    · omega
    · split at hok
      · cases hok
      · rename_i result hread
        split_ifs at hok with hempty
        · cases hok
        · have hpos := List.length_pos_iff.mpr hempty
          have hsize := result.property.trans (min_le_left _ _)
          have hlength := (hreads _ _ _ hread).length_le
          have hnext := ih (remaining - result.val.length) (by omega) (by omega) hok
          rw [List.length_drop] at hlength hnext ⊢
          omega

theorem streamFilePrefix_handsOver {source : SourceFile} {content : Bytes} (hreads : Reads source content)
    (byteLimit : ℕ) :
    HandsOver (streamFilePrefix source byteLimit) (content.take byteLimit) := by
  rw [streamFilePrefix]
  split
  · exact handsOver_error
  · rename_i file hopen
    have hloop : HandsOver (readLoop file source.path byteLimit byteLimit) _ :=
      readLoop_handsOver (hreads file hopen) (le_refl byteLimit)
    rwa [Nat.sub_self, List.drop_zero] at hloop

theorem streamFilePrefix_long {source : SourceFile} {content : Bytes} (hreads : Reads source content) {byteLimit : ℕ}
    (hok : (streamFilePrefix source byteLimit).status = .ok ()) : (content.take byteLimit).length = byteLimit := by
  rw [streamFilePrefix] at hok
  split at hok
  · cases hok
  · rename_i file hopen
    have hlong := readLoop_long (hreads file hopen) (le_refl byteLimit) hok
    rw [Nat.sub_self, List.drop_zero] at hlong
    rw [List.length_take, min_eq_left hlong]

theorem inlineLoop_handsOver (contents : Bytes) (offset : ℕ) :
    HandsOver (inlineLoop contents offset) (contents.drop offset) := by
  induction hm : contents.length - offset using Nat.strong_induction_on generalizing offset with
  | _ m ih =>
    rw [inlineLoop]
    split_ifs with hend
    · rw [List.drop_eq_nil_of_le hend]
      exact handsOver_done
    · have hchunk : 0 < kChunkSize := by simp [kChunkSize]
      have hnext := ih _ (by omega) (offset + min kChunkSize (contents.length - offset)) rfl
      have hall :
        HandsOver (.after (.emit (.chunk ((contents.drop offset).take (min kChunkSize (contents.length - offset)))))
          (inlineLoop contents (offset + min kChunkSize (contents.length - offset))))
          ((contents.drop offset).take (min kChunkSize (contents.length - offset)) ++
            contents.drop (offset + min kChunkSize (contents.length - offset))) := hnext.after
      rwa [← List.drop_drop, List.take_append_drop] at hall

/-- A script that puts `entries` into the archive, each with all of its data. -/
def Archives (script : Script) (entries : List TarEntry) : Prop :=
  script.status = .ok () →
    (∀ before, entriesOf before (events script.steps) = entries.reverse ++ before) ∧ ∀ entry ∈ entries,
      entry.data.length = entry.size

theorem archives_done : Archives (.done (.ok ())) [] :=
  fun _ => ⟨fun _ => rfl, fun _ hentry => absurd hentry List.not_mem_nil⟩

theorem HandsOver.archives {script : Script} {data : Bytes} (h : HandsOver script data) (name : String)
    {size : ℕ} (mtime : ℕ) (hsize : script.status = .ok () → data.length = size) :
    Archives (.after (.emit (.file name size mtime)) script) [⟨name, size, data⟩] := by
  intro hok
  refine ⟨fun before => ?_, fun entry hentry => ?_⟩
  swap
  · obtain rfl := List.mem_singleton.mp hentry
    exact hsize hok
  obtain ⟨chunks, hevents, hflat⟩ := h hok
  have hopened : entriesOf before (events (Script.after (.emit (.file name size mtime)) script).steps) =
      entriesOf (⟨name, size, []⟩ :: before) (events script.steps) := rfl
  rw [hopened, hevents, entriesOf_chunks, hflat]
  rfl

theorem Archives.andThen {first second : Script} {xs ys : List TarEntry} (hfirst : Archives first xs)
    (hsecond : Archives second ys) :
    Archives (first.andThen second) (xs ++ ys) := by
  intro hok
  obtain ⟨hok₁, hok₂, hsteps⟩ := andThen_ok hok
  refine ⟨fun before => ?_, fun entry hentry => (List.mem_append.mp hentry).elim ((hfirst hok₁).2 entry)
    ((hsecond hok₂).2 entry)⟩
  rw [hsteps, events_append, entriesOf_append, (hfirst hok₁).1, (hsecond hok₂).1, List.reverse_append,
    List.append_assoc]

theorem Archives.forEach {α : Type} {body : α → Script} {entries : α → List TarEntry} {items : List α}
    (h : ∀ item ∈ items, Archives (body item) (entries item)) :
    Archives (.forEach body items) (items.flatMap entries) := by
  induction items with
  | nil => exact archives_done
  | cons item items ih =>
    rw [List.flatMap_cons]
    exact (h item List.mem_cons_self).andThen (ih fun other hother => h other (List.mem_cons_of_mem item hother))

end Scripts

section Backup

variable (content : String → Bytes)

/-- The entry of a live file, where `content` tells what the files at their paths hold. -/
def liveEntry (file : LiveFileStorageInfo) : TarEntry :=
  ⟨file.relativeFilename, file.size,
    if file.replacementContents ≠ [] then file.replacementContents else (content file.source.path).take file.size⟩

/-- The entry of a file of the snapshot, unless it is gone. -/
def logEntries (log : StreamedLog) : List TarEntry :=
  if log.inlineContents ≠ [] then [⟨tarPath log, log.inlineContents.length, log.inlineContents⟩]
  else if log.present = false then []
  else [⟨tarPath log, log.byteLimit, (content log.source.path).take log.byteLimit⟩]

/-- The entries of the whole backup. -/
def backupEntries (files : List LiveFileStorageInfo) (source : StreamSource) : List TarEntry :=
  files.map (liveEntry content) ++ if source.backupTransactionLogs then source.logs.flatMap (logEntries content) else []

variable {content} {source : StreamSource} {files : List LiveFileStorageInfo}

theorem streamLiveFile_archives {file : LiveFileStorageInfo} (hreads : Reads file.source (content file.source.path))
    (hsize : file.replacementContents ≠ [] → file.replacementContents.length = file.size) :
    Archives (streamLiveFile file) [liveEntry content file] := by
  have hbody : HandsOver (if file.replacementContents ≠ [] then inlineLoop file.replacementContents 0
    else streamFilePrefix file.source file.size)
      (liveEntry content file).data := by
    rw [liveEntry]
    split_ifs with hinline
    · have hloop := inlineLoop_handsOver file.replacementContents 0
      rwa [List.drop_zero] at hloop
    · exact streamFilePrefix_handsOver hreads file.size
  refine hbody.archives file.relativeFilename 0 fun hok => ?_
  rw [liveEntry]
  split_ifs at hok ⊢ with hinline
  · exact hsize hinline
  · exact streamFilePrefix_long hreads hok

theorem streamLog_archives {log : StreamedLog} (hreads : Reads log.source (content log.source.path)) :
    Archives (streamLog log) (logEntries content log) := by
  rw [streamLog, logEntries]
  split_ifs with hinline hgone
  · have hloop := inlineLoop_handsOver log.inlineContents 0
    rw [List.drop_zero] at hloop
    exact hloop.archives _ _ fun _ => rfl
  · exact archives_done
  · exact (streamFilePrefix_handsOver hreads log.byteLimit).archives _ _ (streamFilePrefix_long hreads)

/-- What a file at its path gives to whoever reads it. -/
def FilesRead (content : String → Bytes) (files : List LiveFileStorageInfo) (logs : List StreamedLog) : Prop :=
  (∀ file ∈ files, Reads file.source (content file.source.path)) ∧ ∀ log ∈ logs,
    Reads log.source (content log.source.path)

theorem doBackupStream_archives (hfiles : source.getLiveFilesStorageInfo = .ok files)
    (hreads : FilesRead content files source.logs)
    (hsizes : ∀ file ∈ files, file.replacementContents ≠ [] → file.replacementContents.length = file.size) :
    Archives (doBackupStream source) (backupEntries content files source) := by
  have hlive : Archives (.forEach streamLiveFile files) (files.map (liveEntry content)) := by
    rw [List.map_eq_flatMap]
    exact Archives.forEach fun file hfile => streamLiveFile_archives (hreads.1 file hfile) (hsizes file hfile)
  have hlogs : Archives (if source.backupTransactionLogs then .forEach streamLog source.logs else .done (.ok ()))
      (if source.backupTransactionLogs then source.logs.flatMap (logEntries content) else []) := by
    split_ifs
    · exact Archives.forEach fun log hlog => streamLog_archives (hreads.2 log hlog)
    · exact archives_done
  rw [doBackupStream, hfiles, backupEntries]
  split
  · intro herr
    cases herr
  · rename_i herr
    cases herr
  · rename_i hok
    cases hok
    exact hlive.andThen hlogs

end Backup

section Consumer

variable {r : TarRun} {evs : List StreamEvent}

theorem emit_entries {ev : StreamEvent} (h : (emit r ev).1 = true) :
    (emit r ev).2.entries = entriesOf r.entries [ev] := by
  cases ev with
  | file name fileSize mtime =>
    rcases hcall : r.encoder.addFile name (some fileSize) { mtime := some mtime } with ⟨err | u, e⟩ <;>
      simp only [emit, StreamEvent.call, TarRun.call, TarRun.addFile, hcall] at h ⊢
    · cases h
    · rfl
  | chunk data =>
    rcases hcall : r.encoder.writeData data with ⟨err | u, e⟩ <;>
      simp only [emit, StreamEvent.call, TarRun.call, TarRun.writeData, hcall] at h ⊢
    · cases h
    · cases r.entries <;> rfl

/-- Events that are all taken end up in the entries. -/
theorem consumeAll_entries (h : Stream.accepts emit r evs = true) :
    (Stream.consumeAll emit r evs).entries = entriesOf r.entries evs := by
  induction evs generalizing r with
  | nil => rfl
  | cons ev evs ih =>
    rw [Stream.accepts, Bool.and_eq_true] at h
    have hrest := ih h.2
    rw [emit_entries h.1, ← entriesOf_append] at hrest
    exact hrest

theorem emit_encoded {ev : StreamEvent} (h : Encoded r) (hproper : ev.call.Proper) : Encoded (emit r ev).2 :=
  (h.call hproper).1

theorem emit_unfinished {ev : StreamEvent} (h : r.encoder.finalized = false) :
    (emit r ev).2.encoder.finalized = false := by
  cases ev with
  | file name fileSize mtime =>
    obtain ⟨err, hcall⟩ | ⟨_, _, _, _, _, _, _, hcall⟩ :=
      encoder_addFile r.encoder name (some fileSize) { mtime := some mtime }
    all_goals simp only [emit, StreamEvent.call, TarRun.call, TarRun.addFile, hcall, h]
  | chunk data =>
    obtain ⟨err, hcall⟩ | ⟨_, hcall⟩ | ⟨_, _, hcall⟩ | ⟨_, _, _, hcall⟩ := encoder_writeData r.encoder data
    all_goals simp only [emit, StreamEvent.call, TarRun.call, TarRun.writeData, hcall, h]

theorem consumeAll_encoded (h : Encoded r) (hopen : r.encoder.finalized = false)
    (hproper : ∀ ev ∈ evs, ev.call.Proper) :
    Encoded (Stream.consumeAll emit r evs) ∧ (Stream.consumeAll emit r evs).encoder.finalized = false := by
  induction evs generalizing r with
  | nil => exact ⟨h, hopen⟩
  | cons ev evs ih =>
    exact ih (emit_encoded h (hproper ev List.mem_cons_self)) (emit_unfinished hopen) fun ev' hev' =>
      hproper ev' (List.mem_cons_of_mem ev hev')

/-- Where every entry has its data, the archive can be finished. -/
theorem Encoded.finishes (h : Encoded r) (hopen : r.encoder.finalized = false)
    (hwhole : ∀ entry ∈ r.entries, entry.data.length = entry.size) :
    r.finalize.1 = .ok () := by
  have hremaining : r.encoder.remaining = 0 := by
    cases h with
    | between _ => rfl
    | @within entries bytes header entry n _ _ hn hdata =>
      have hall := hwhole entry List.mem_cons_self
      omega
    | finished _ => rfl
  obtain ⟨err, hcall⟩ | ⟨-, -, hcall⟩ := encoder_finalize r.encoder
  · rw [TarEncoder.finalize, hopen, hremaining] at hcall
    simp at hcall
  · rw [TarRun.finalize, hcall]

end Consumer

section Archived

variable {content : String → Bytes} {source : StreamSource} {files : List LiveFileStorageInfo} {t : Stream TarRun}
    {as : List StreamAction}

/-- In every run in which the promise is resolved, the archive can be finished, and is then read
back as the live files and the snapshot, each with the bytes up to its recorded size. -/
theorem streamed_archive (hfiles : source.getLiveFilesStorageInfo = .ok files)
    (hreads : FilesRead content files source.logs)
    (hsizes : ∀ file ∈ files, file.replacementContents ≠ [] → file.replacementContents.length = file.size)
    (hproper : ∀ ev ∈ events (doBackupStream source).steps, ev.call.Proper)
    (hrun : Runs.exec (Stream.step emit (doBackupStream source)) { consumer := {} } as = some t)
    (hresolved : .resolved ∈ t.settled) :
    t.consumer.finalize.1 = .ok () ∧
      untar t.consumer.finalize.2.encoder.emitted.length t.consumer.finalize.2.encoder.emitted =
        some (backupEntries content files source, List.replicate 1024 0) := by
  have hsound := Stream.run_sound hrun
  have hconsumer := hsound.consumer
  obtain ⟨hdelivered, haccepted, hok⟩ := hsound.resolved hresolved
  obtain ⟨harchives, hwhole⟩ := doBackupStream_archives hfiles hreads hsizes hok
  have hentries : t.consumer.entries = (backupEntries content files source).reverse := by
    rw [hconsumer, consumeAll_entries haccepted, hdelivered, harchives]
    exact List.append_nil _
  obtain ⟨hencoded, hopen⟩ : Encoded t.consumer ∧ t.consumer.encoder.finalized = false := by
    rw [hconsumer, hdelivered]
    exact consumeAll_encoded (.between .nil) rfl hproper
  have hfinish := Encoded.finishes hencoded hopen fun entry hentry => by
    rw [hentries, List.mem_reverse] at hentry
    exact hwhole entry hentry
  refine ⟨hfinish, ?_⟩
  have hread := hencoded.finalize.1.read (finalize_finalized t.consumer hfinish)
  rw [hread]
  have hsame : t.consumer.finalize.2.entries = t.consumer.entries := rfl
  rw [hsame, hentries, List.reverse_reverse]

/-- A file that holds `content` as long as it is read. -/
def plainFile (path : String) (content : Bytes) : SourceFile :=
  ⟨path, .ok ⟨fun offset n => .ok ⟨(content.drop offset).take n, List.length_take_le n _⟩⟩⟩

theorem plainFile_reads (path : String) (content : Bytes) : Reads (plainFile path content) content := by
  intro file hfile offset n result hresult
  obtain rfl := Except.ok.inj hfile
  obtain rfl := Except.ok.inj hresult
  exact List.take_prefix _ _

/-- What the files of `smallBackup` hold; the manifest is longer than its recorded size. -/
def smallContent (path : String) : Bytes :=
  if path = "MANIFEST" then [3, 4, 5] else if path = "1.txnlog" then [6] else []

def smallFiles : List LiveFileStorageInfo :=
  [{ relativeFilename := "CURRENT", size := 2, replacementContents := [1, 2],
     source := plainFile "CURRENT" (smallContent "CURRENT") },
    { relativeFilename := "MANIFEST", size := 2, source := plainFile "MANIFEST" (smallContent "MANIFEST") }]

def smallLog (name : String) (present : Bool) : StreamedLog where
  name := ("log", name)
  byteLimit := 1
  immutable := true
  mtime := 5
  present := present
  source := plainFile name (smallContent name)

def smallBackup : StreamSource where
  getLiveFilesStorageInfo := .ok smallFiles
  backupTransactionLogs := true
  logs := [smallLog "0.txnlog" false, smallLog "1.txnlog" true]

def smallSteps : List WorkerStep :=
  [.checkCancelled, .emit (.file "CURRENT" 2 0), .emit (.chunk [1, 2]), .checkCancelled, .emit (.file "MANIFEST" 2 0),
    .emit (.chunk [3, 4]),
    .emit (.file "transaction_logs/log/1.txnlog" 1 5), .emit (.chunk [6])]

/-- A file that fits into the buffer is one chunk. -/
theorem streamFilePrefix_plain {path : String} {content : Bytes} {byteLimit : ℕ} (hpos : 0 < byteLimit)
    (hfits : byteLimit ≤ kChunkSize) (hlong : byteLimit ≤ content.length) :
    streamFilePrefix (plainFile path content) byteLimit = .after (.emit (.chunk (content.take byteLimit)))
    (.done (.ok ())) := by
  have hlength : (content.take byteLimit).length = byteLimit := by rw [List.length_take, min_eq_left hlong]
  have hne : content.take byteLimit ≠ [] := List.length_pos_iff.mp (by omega)
  change readLoop _ path byteLimit byteLimit = _
  rw [readLoop, if_neg (by omega)]
  simp only [Nat.sub_self, List.drop_zero, min_eq_left hfits, hne, if_false, hlength]
  rw [readLoop, if_pos rfl]

theorem inlineLoop_short {contents : Bytes} (hne : contents ≠ []) (hfits : contents.length ≤ kChunkSize) :
    inlineLoop contents 0 = .after (.emit (.chunk contents)) (.done (.ok ())) := by
  have hpos := List.length_pos_iff.mpr hne
  rw [inlineLoop, if_neg (by omega)]
  simp only [Nat.sub_zero, List.drop_zero, min_eq_right hfits, List.take_length, Nat.zero_add]
  rw [inlineLoop, if_pos le_rfl]

theorem streamLiveFile_inline {file : LiveFileStorageInfo} (hne : file.replacementContents ≠ [])
    (hfits : file.replacementContents.length ≤ kChunkSize) :
    streamLiveFile file = ⟨[.checkCancelled, .emit (.file file.relativeFilename file.size 0),
      .emit (.chunk file.replacementContents)], .ok ()⟩ := by
  rw [streamLiveFile, if_pos hne, inlineLoop_short hne hfits]
  rfl

theorem doBackupStream_small : doBackupStream smallBackup = ⟨smallSteps, .ok ()⟩ := by
  have hmanifest : streamFilePrefix (plainFile "MANIFEST" (smallContent "MANIFEST")) 2 =
      .after (.emit (.chunk [3, 4])) (.done (.ok ())) :=
    streamFilePrefix_plain (by decide) (by decide) (by decide)
  have hlog : streamFilePrefix (plainFile "1.txnlog" (smallContent "1.txnlog")) 1 =
      .after (.emit (.chunk [6])) (.done (.ok ())) :=
    streamFilePrefix_plain (by decide) (by decide) (by decide)
  simp only [doBackupStream, smallBackup, smallFiles, smallLog, Script.forEach, List.foldr_cons, List.foldr_nil]
  rw [streamLiveFile_inline (by simp) (by simp [kChunkSize])]
  simp only [streamLiveFile, streamLog, hmanifest, hlog, ne_eq, not_true_eq_false, if_false, if_true]
  rfl

def smallRun : List StreamAction :=
  let acked := Stream.handOver ++ [.resolve 0, .wake]
  .start :: .checkCancelled :: acked ++ acked ++ .checkCancelled :: acked ++ acked ++ acked ++ acked ++
    [.finish, .leave, .complete]

theorem streamed_archive_small :
    untar 4096 (Runs.final (Stream.step emit (doBackupStream smallBackup)) { consumer := {} }
      smallRun).consumer.finalize.2.encoder.emitted =
      some ([⟨"CURRENT", 2, [1, 2]⟩, ⟨"MANIFEST", 2, [3, 4]⟩, ⟨"transaction_logs/log/1.txnlog", 1, [6]⟩],
        List.replicate 1024 0) := by
  have hsome : (Runs.exec (Stream.step emit (doBackupStream smallBackup)) { consumer := {} } smallRun).isSome := by
    rw [doBackupStream_small]
    decide +kernel
  have hsettled : (Runs.final (Stream.step emit (doBackupStream smallBackup)) { consumer := {} } smallRun).settled =
      [.resolved] := by
    rw [doBackupStream_small]
    decide +kernel
  have hlength : (Runs.final (Stream.step emit (doBackupStream smallBackup)) { consumer := {} }
      smallRun).consumer.finalize.2.encoder.emitted.length = 4096 := by
    rw [doBackupStream_small]
    decide +kernel
  have hreads : FilesRead smallContent smallFiles smallBackup.logs := by
    simp only [FilesRead, smallFiles, smallBackup, List.forall_mem_cons]
    exact ⟨⟨plainFile_reads _ _, plainFile_reads _ _, fun _ h => absurd h List.not_mem_nil⟩,
      plainFile_reads _ _, plainFile_reads _ _, fun _ h => absurd h List.not_mem_nil⟩
  have hsizes : ∀ file ∈ smallFiles, file.replacementContents ≠ [] → file.replacementContents.length = file.size := by
    simp [smallFiles]
  have hproper : ∀ ev ∈ events (doBackupStream smallBackup).steps, ev.call.Proper := by
    rw [doBackupStream_small]
    have hpath {name : String} (hhead : name.toList.head? ≠ some '/') (hnul : Char.ofNat 0 ∉ name.toList)
      (hmark : Char.ofNat 0xfeff ∉ name.toList)
        {size : ℕ} (hsize : size < 3) (mtime : ℕ) : (StreamEvent.file name size mtime).call.Proper := by
      refine ⟨⟨hhead, hnul, hmark⟩, fun q hq => ?_⟩
      rw [← Option.some.inj hq]
      have hlt : (size : ℚ) < 3 := by exact_mod_cast hsize
      linarith
    simp only [smallSteps, events, List.filterMap_cons, List.filterMap_nil, List.forall_mem_cons]
    refine ⟨hpath ?_ ?_ ?_ ?_ _, trivial, hpath ?_ ?_ ?_ ?_ _, trivial, hpath ?_ ?_ ?_ ?_ _, trivial,
      fun _ h => absurd h List.not_mem_nil⟩ <;> decide
  have hround := (streamed_archive rfl hreads hsizes hproper (Runs.exec_final _ _ _ hsome)
    (by rw [hsettled]; exact List.mem_singleton.mpr rfl)).2
  rw [hlength] at hround
  exact hround.trans (by decide +kernel)

end Archived

end BackupStream
end RocksdbJs
