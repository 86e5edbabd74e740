import RocksdbJs.Spec.CreateBackup

/-! A backup with transaction logs is whole or not there, at every point a crash can end it.
The subtree becomes visible by the one rename of a staging directory that holds every
entry, and whatever fails before the rename is rolled back. The sync of the parent
directory comes after the rename, and its failure is not. -/

namespace RocksdbJs
namespace CreateBackup

variable {w w' : World} {e : CapturedEntry} {sub : Subtree}

/-- The entry needs no source file, or its source has not been purged. -/
def Kept (files : EntryName → LiveFile) (e : CapturedEntry) : Prop :=
  e.inlineContents ≠ [] ∨ (files e.name).present = true

/-- The subtree has no partial file for the entry, and has one unless its source was purged. -/
structure Holds (files : EntryName → LiveFile) (sub : Subtree) (e : CapturedEntry) : Prop where
  whole : ∀ f, sub e.name = some f → e.captured <+: f.content files e.name
  there : Kept files e → ∃ f, sub e.name = some f

/-- The subtree holds every entry and nothing else. -/
structure Whole (w : World) (sub : Subtree) : Prop where
  holds : ∀ e ∈ w.entries, Holds w.files sub e
  names : ∀ name f, sub name = some f → ∃ e ∈ w.entries, e.name = name

structure AllOrNothing (w : World) : Prop where
  failed : w.pc = .returned false → w.listed = false ∧ w.final = none
  succeeded : w.pc = .returned true → w.listed = true ∧ ∀ e ∈ w.entries, Kept w.files e →
    ∃ sub f, w.final = some sub ∧ sub e.name = some f ∧ e.captured <+: f.content w.files e.name
  published : ∀ sub, w.final = some sub → Whole w sub

/-- No subtree of the new id is there yet. Staging left by a crashed backup may be. -/
structure Initial (w : World) : Prop where
  pc : w.pc = .start
  listed : w.listed = false
  final : w.final = none
  entries : w.entries = []

/-- The operations that may fail here: all but the parent's sync after the rename, the
rollback's delete, the sweep of staging that is there, the check of a source that is there,
and the removal of a partial copy that is there. -/
def World.mayFail (w : World) : Pc → Bool
  | .syncParent => false
  | .deleteBackup => false
  | .sweepStaging => w.staging.isNone
  | .entry .recheckSource => w.todo.head?.all fun e => !(w.files e.name).present
  | .entry .removePartial => w.todo.head?.all fun e => (w.staged e.name).isNone
  | _ => true

/-- No operation fails that the call does not roll back. -/
def Unslipped (w : World) : Event → Prop
  | .op ok _ => ok = true ∨ w.mayFail w.pc = true
  | _ => True

instance (w : World) : ∀ e, Decidable (Unslipped w e)
  | .op ok _ => inferInstanceAs (Decidable (ok = true ∨ w.mayFail w.pc = true))
  | .append _ _ => inferInstanceAs (Decidable True)
  | .purge _ => inferInstanceAs (Decidable True)
  | .collect _ => inferInstanceAs (Decidable True)

/-- What the capture of an entry promises of its source from then on. -/
structure Sourced (files : EntryName → LiveFile) (e : CapturedEntry) : Prop where
  inline : e.inlineContents ≠ [] → e.captured = e.inlineContents
  source : e.inlineContents = [] → e.captured <+: (files e.name).bytes
  limit : e.inlineContents = [] → e.captured.length ≤ e.byteLimit

/-- The staging directory as far as it is there. -/
def tree (w : World) : Subtree := w.staging.getD fun _ => none

/-- A copy of the first `n` bytes of the source. -/
def Copied (w : World) (e : CapturedEntry) (n : ℕ) : Prop :=
  ∃ b, tree w e.name = some (.own b) ∧ b <+: (w.files e.name).bytes ∧ b.length = n

/-- Where the staged file of the current entry is. -/
def AtEntry (w : World) (e : CapturedEntry) : EntryPc → Prop
  | .createDirectories => tree w e.name = none
  | .writeInline => tree w e.name = none ∧ e.inlineContents ≠ []
  | .link => tree w e.name = none ∧ e.inlineContents = []
  | .openSource => tree w e.name = none ∧ e.inlineContents = []
  | .createFile => tree w e.name = none ∧ e.inlineContents = []
  | .copyLoop remaining _ => e.inlineContents = [] ∧ remaining ≤ e.byteLimit ∧ Copied w e (e.byteLimit - remaining)
  | .closeFile => e.inlineContents = [] ∧ Copied w e e.byteLimit
  | .stampFile => e.inlineContents = [] ∧ Copied w e e.byteLimit
  | .recheckSource => e.inlineContents = []
  | .removePartial => e.inlineContents = [] ∧ (w.files e.name).present = false
  | .syncFile => Holds w.files (tree w) e

/-- The entries before `e` are staged, and nothing else but the file of `e` is. -/
structure Working (w : World) (done rest : List CapturedEntry) (e : CapturedEntry) : Prop where
  todo : w.todo = e :: rest
  entries : w.entries = done ++ e :: rest
  staged : ∀ d ∈ done, Holds w.files (tree w) d
  names : ∀ name f, tree w name = some f → name = e.name ∨ ∃ d ∈ done, d.name = name

def Phase (w : World) : Pc → Prop
  | .start => w.listed = false ∧ w.final = none
  | .createBackupDir => w.listed = false ∧ w.final = none
  | .acquireLock => w.listed = false ∧ w.final = none
  | .sweepStaging => w.listed = false ∧ w.final = none
  | .openEngine => w.listed = false ∧ w.final = none ∧ w.staging = none
  | .createBackup => w.listed = false ∧ w.final = none ∧ w.staging = none
  | .collect => w.listed = true ∧ w.final = none ∧ w.staging = none
  | .entry pc => w.listed = true ∧ w.final = none ∧ (pc = .createDirectories ∨ w.staging.isSome = true)
    ∧ ∃ done rest e, Working w done rest e ∧ AtEntry w e pc
  | .syncDirs _ => w.listed = true ∧ w.final = none ∧ ∃ sub, w.staging = some sub ∧ Whole w sub
  | .syncBase => w.listed = true ∧ w.final = none ∧ ∃ sub, w.staging = some sub ∧ Whole w sub
  | .rename => w.listed = true ∧ w.final = none ∧ ∃ sub, w.staging = some sub ∧ Whole w sub
  | .syncParent => w.listed = true ∧ ∃ sub, w.final = some sub ∧ Whole w sub
  | .removeStaging => w.final = none
  | .deleteBackup => w.final = none
  | .returned true => w.listed = true ∧ (w.entries = [] ∧ w.final = none ∨ ∃ sub, w.final = some sub ∧ Whole w sub)
  | .returned false => w.listed = false ∧ w.final = none

structure Inv (w : World) : Prop where
  nodup : (w.entries.map fun e => e.name).Nodup
  sourced : ∀ e ∈ w.entries, Sourced w.files e
  phase : Phase w w.pc

theorem Initial.inv (h : Initial w) : Inv w := by
  refine ⟨?_, ?_, ?_⟩
  · rw [h.entries]
    exact List.nodup_nil
  · intro e he
    rw [h.entries] at he
    cases he
  · rw [h.pc]
    exact ⟨h.listed, h.final⟩

/-- Nothing is published but the whole. -/
theorem Phase.final : ∀ {pc : Pc}, Phase w pc → w.final = none ∨ ∃ sub, w.final = some sub ∧ Whole w sub := by
  intro pc h
  cases pc with
  | start | createBackupDir | acquireLock | sweepStaging => exact Or.inl h.2
  | openEngine | createBackup | collect => exact Or.inl h.2.1
  | entry pc => exact Or.inl h.2.1
  | syncDirs left => exact Or.inl h.2.1
  | syncBase | rename => exact Or.inl h.2.1
  | syncParent => exact Or.inr h.2
  | removeStaging | deleteBackup => exact Or.inl h
  | returned ok =>
    cases ok with
    | false => exact Or.inl h.2
    | true => exact h.2.imp And.right id

theorem Inv.allOrNothing (h : Inv w) : AllOrNothing w := by
  have hphase := h.phase
  refine ⟨fun hpc => ?_, fun hpc => ?_, fun sub hsub => ?_⟩
  · rw [hpc] at hphase
    exact hphase
  · rw [hpc] at hphase
    refine ⟨hphase.1, fun e he hk => ?_⟩
    rcases hphase.2 with ⟨hnil, -⟩ | ⟨sub, hsub, hwhole⟩
    · rw [hnil] at he
      cases he
    · obtain ⟨f, hf⟩ := (hwhole.holds e he).there hk
      exact ⟨sub, f, hsub, hf, (hwhole.holds e he).whole f hf⟩
  · rcases hphase.final with hnone | ⟨sub', hsub', hwhole⟩
    · rw [hnone] at hsub
      cases hsub
    · exact Option.some.inj (hsub.symm.trans hsub') ▸ hwhole

/-! ### The store goes on -/

/-- What appends and purges do to the live files. -/
def Later (files files' : EntryName → LiveFile) : Prop :=
  ∀ name, (files name).bytes <+: (files' name).bytes ∧ ((files' name).present = true → (files name).present = true)

theorem Later.append (files : EntryName → LiveFile) (name : EntryName) (bytes : Bytes) :
    Later files (Function.update files name { files name with bytes := (files name).bytes ++ bytes }) := by
  intro n
  by_cases hn : n = name
  · subst hn
    rw [Function.update_self]
    exact ⟨List.prefix_append _ _, id⟩
  · rw [Function.update_of_ne hn]
    exact ⟨List.prefix_rfl, id⟩

theorem Later.purge (files : EntryName → LiveFile) (name : EntryName) :
    Later files (Function.update files name { files name with present := false }) := by
  intro n
  by_cases hn : n = name
  · subst hn
    rw [Function.update_self]
    exact ⟨List.prefix_rfl, fun h => absurd h Bool.false_ne_true⟩
  · rw [Function.update_of_ne hn]
    exact ⟨List.prefix_rfl, id⟩

section Later

variable {files : EntryName → LiveFile} (h : Later w.files files)
include h

theorem Later.content (name : EntryName) (f : StagedFile) : f.content w.files name <+: f.content files name := by
  cases f with
  | linked => exact (h name).1
  | own b => exact List.prefix_rfl

theorem Holds.later {sub : Subtree} (hh : Holds w.files sub e) : Holds files sub e where
  whole := fun f hf => (hh.whole f hf).trans (h.content e.name f)
  there := fun hk => hh.there (hk.imp_right (h e.name).2)

theorem Whole.later (hw : Whole w sub) : Whole { w with files := files } sub where
  holds := fun e he => (hw.holds e he).later h
  names := hw.names

theorem Copied.later {n : ℕ} (hc : Copied w e n) : Copied { w with files := files } e n := by
  obtain ⟨b, hb, hpre, hlen⟩ := hc
  exact ⟨b, hb, hpre.trans (h e.name).1, hlen⟩

theorem AtEntry.later : ∀ {pc : EntryPc}, AtEntry w e pc → AtEntry { w with files := files } e pc := by
  intro pc ha
  cases pc with
  | createDirectories | writeInline | link | openSource | createFile | recheckSource => exact ha
  | copyLoop remaining eof => exact ⟨ha.1, ha.2.1, ha.2.2.later h⟩
  | closeFile | stampFile => exact ⟨ha.1, ha.2.later h⟩
  | removePartial =>
    refine ⟨ha.1, ?_⟩
    cases hp : (files e.name).present with
    | false => rfl
    | true => exact absurd (ha.2.symm.trans ((h e.name).2 hp)) Bool.false_ne_true
  | syncFile => exact Holds.later h ha

theorem Phase.later : ∀ {pc : Pc}, Phase w pc → Phase { w with files := files } pc := by
  intro pc hp
  cases pc with
  | start | createBackupDir | acquireLock | sweepStaging | openEngine | createBackup | collect => exact hp
  | removeStaging | deleteBackup => exact hp
  | entry pc =>
    obtain ⟨hl, hf, hs, done, rest, e, hwork, hat⟩ := hp
    exact ⟨hl, hf, hs, done, rest, e, ⟨hwork.todo, hwork.entries, fun d hd => (hwork.staged d hd).later h,
      hwork.names⟩, hat.later h⟩
  | syncDirs left =>
    obtain ⟨hl, hf, sub, hs, hw⟩ := hp
    exact ⟨hl, hf, sub, hs, hw.later h⟩
  | syncBase | rename =>
    obtain ⟨hl, hf, sub, hs, hw⟩ := hp
    exact ⟨hl, hf, sub, hs, hw.later h⟩
  | syncParent =>
    obtain ⟨hl, sub, hs, hw⟩ := hp
    exact ⟨hl, sub, hs, hw.later h⟩
  | returned ok =>
    cases ok with
    | false => exact hp
    | true =>
      refine ⟨hp.1, hp.2.imp_right fun ⟨sub, hs, hw⟩ => ⟨sub, hs, hw.later h⟩⟩

theorem Inv.later (hi : Inv w) : Inv { w with files := files } where
  nodup := hi.nodup
  sourced := fun e he =>
    ⟨(hi.sourced e he).inline, fun hn => ((hi.sourced e he).source hn).trans (h e.name).1, (hi.sourced e he).limit⟩
  phase := hi.phase.later h

end Later

/-! ### One entry -/

variable {done rest : List CapturedEntry} {ok : Bool} {n : ℕ}

theorem tree_stage (w : World) (name : EntryName) (f : Option StagedFile) :
    tree (w.stage name f) = Function.update (tree w) name f := rfl

theorem staged_eq_tree (w : World) (name : EntryName) : w.staged name = tree w name := by
  unfold World.staged tree
  cases w.staging with
  | none => rfl
  | some sub => rfl

theorem Working.name_ne (hwork : Working w done rest e) (hn : (w.entries.map fun e => e.name).Nodup)
    {d : CapturedEntry} (hd : d ∈ done) :
    d.name ≠ e.name := by
  rw [hwork.entries, List.map_append, List.nodup_append] at hn
  exact hn.2.2 d.name (List.mem_map_of_mem hd) e.name (by simp)

/-- Whatever becomes of the file of `e`, the entries before it stay staged. -/
theorem Working.stage (hwork : Working w done rest e) (hn : (w.entries.map fun e => e.name).Nodup)
    (f : Option StagedFile) :
    Working (w.stage e.name f) done rest e where
  todo := hwork.todo
  entries := hwork.entries
  staged := by
    intro d hd
    have hne := hwork.name_ne hn hd
    refine ⟨fun g hg => ?_, fun hk => ?_⟩
    · rw [tree_stage, Function.update_of_ne hne] at hg
      exact (hwork.staged d hd).whole g hg
    · obtain ⟨g, hg⟩ := (hwork.staged d hd).there hk
      exact ⟨g, by rw [tree_stage, Function.update_of_ne hne, hg]⟩
  names := by
    intro name g hg
    by_cases he : name = e.name
    · exact Or.inl he
    · rw [tree_stage, Function.update_of_ne he] at hg
      exact hwork.names name g hg

/-- The entry is through: the next one starts without a file, or the subtree is whole. -/
theorem Working.nextEntry (hwork : Working w done rest e) (hn : (w.entries.map fun e => e.name).Nodup)
    (hh : Holds w.files (tree w) e) (hs : w.staging.isSome = true) (hl : w.listed = true)
    (hf : w.final = none) : Phase w.nextEntry w.nextEntry.pc := by
  have htail : w.todo.tail = rest := by rw [hwork.todo, List.tail_cons]
  have hstaged : ∀ d ∈ done ++ [e], Holds w.files (tree w) d := by
    intro d hd
    rcases List.mem_append.mp hd with hd | hd
    · exact hwork.staged d hd
    · exact List.mem_singleton.mp hd ▸ hh
  have hnames : ∀ name f, tree w name = some f → ∃ d ∈ done ++ [e], d.name = name := by
    intro name f hname
    rcases hwork.names name f hname with rfl | ⟨d, hd, rfl⟩
    · exact ⟨e, by simp, rfl⟩
    · exact ⟨d, List.mem_append_left _ hd, rfl⟩
  have hsplit : w.entries = (done ++ [e]) ++ rest := by rw [hwork.entries]; simp
  cases rest with
  | cons e' rest =>
    have hpc : w.nextEntry.pc = .entry .createDirectories := by simp [World.nextEntry, htail]
    rw [hpc]
    refine ⟨hl, hf, Or.inl rfl, done ++ [e], rest, e',
      ⟨htail, hsplit, hstaged, fun name f hname => Or.inr (hnames name f hname)⟩, ?_⟩
    -- the entries' names differ, and only those of entries that are through are there
    rw [AtEntry]
    by_contra hfile
    obtain ⟨f, hname⟩ := Option.ne_none_iff_exists'.mp hfile
    obtain ⟨d, hd, heq⟩ := hnames e'.name f hname
    rw [hsplit, List.map_append, List.nodup_append] at hn
    exact hn.2.2 d.name (List.mem_map_of_mem hd) e'.name (by simp) heq
  | nil =>
    obtain ⟨sub, hsub⟩ := Option.isSome_iff_exists.mp hs
    have htree : tree w = sub := by rw [tree, hsub, Option.getD_some]
    have hentries : w.entries = done ++ [e] := hsplit.trans (List.append_nil _)
    have hwhole : Whole w.nextEntry sub := by
      refine ⟨fun d hd => ?_, fun name f hname => ?_⟩
      · exact htree ▸ hstaged d (hentries ▸ hd)
      · obtain ⟨d, hd, hdn⟩ := hnames name f (htree ▸ hname)
        exact ⟨d, show d ∈ w.entries from hentries ▸ hd, hdn⟩
    cases hsync : w.sync with
    | true =>
      have hpc : w.nextEntry.pc = .syncDirs (w.entries.map fun e => e.name.1).dedup.length := by
        simp [World.nextEntry, htail, hsync]
      rw [hpc]
      exact ⟨hl, hf, sub, hsub, hwhole⟩
    | false =>
      have hpc : w.nextEntry.pc = .rename := by simp [World.nextEntry, htail, hsync]
      rw [hpc]
      exact ⟨hl, hf, sub, hsub, hwhole⟩

theorem Working.written (hwork : Working w done rest e) (hn : (w.entries.map fun e => e.name).Nodup)
    (hh : Holds w.files (tree w) e) (hs : w.staging.isSome = true) (hl : w.listed = true)
    (hf : w.final = none) : Phase w.written w.written.pc := by
  unfold World.written
  split_ifs
  · exact ⟨hl, hf, Or.inr hs, done, rest, e, ⟨hwork.todo, hwork.entries, hwork.staged, hwork.names⟩, hh⟩
  · exact hwork.nextEntry hn hh hs hl hf

/-- A staged copy holds the entry when it has the whole extent. -/
theorem Copied.holds (hc : Copied w e e.byteLimit) (hi : e.inlineContents = []) (hsrc : Sourced w.files e) :
    Holds w.files (tree w) e := by
  obtain ⟨b, hb, hpre, hlen⟩ := hc
  refine ⟨fun f hf => ?_, fun _ => ⟨_, hb⟩⟩
  obtain rfl : f = .own b := Option.some.inj (hf.symm.trans hb)
  exact List.prefix_of_prefix_length_le (hsrc.source hi) hpre (hlen ▸ hsrc.limit hi)

/-- A file that was just put down whole. -/
theorem holds_stage {f : StagedFile} (h : e.captured <+: f.content w.files e.name) :
    Holds w.files (tree (w.stage e.name (some f))) e := by
  refine ⟨fun g hg => ?_, fun _ => ⟨f, by rw [tree_stage, Function.update_self]⟩⟩
  rw [tree_stage, Function.update_self] at hg
  exact Option.some.inj hg ▸ h

/-- An entry whose source was purged needs no file. -/
theorem holds_purged (hi : e.inlineContents = []) (hp : (w.files e.name).present = false)
    (hnone : sub e.name = none) : Holds w.files sub e := by
  refine ⟨fun f hf => ?_, fun hk => ?_⟩
  · rw [hnone] at hf
    cases hf
  · rcases hk with hk | hk
    · exact absurd hi hk
    · exact absurd (hp.symm.trans hk) Bool.false_ne_true

/-- A chunk read behind the copied bytes continues them. -/
theorem prefix_append_chunk {b bytes : Bytes} (h : b <+: bytes) (m : ℕ) :
    b ++ (bytes.drop b.length).take m <+: bytes := by
  obtain ⟨t, rfl⟩ := h
  rw [List.drop_left]
  exact (List.prefix_append_right_inj b).mpr (List.take_prefix m t)

theorem Working.phase (hwork : Working w done rest e) (pc : EntryPc) (hl : w.listed = true)
    (hf : w.final = none) (hs : w.staging.isSome = true) (hat : AtEntry w e pc) :
    Phase (w.goto (.entry pc)) (.entry pc) :=
  ⟨hl, hf, Or.inr hs, done, rest, e, ⟨hwork.todo, hwork.entries, hwork.staged, hwork.names⟩, hat⟩

/-- One chunk: the copy stays the beginning of the source. -/
theorem Working.copyChunk (hwork : Working w done rest e) (hn : (w.entries.map fun e => e.name).Nodup)
    (hl : w.listed = true) (hf : w.final = none) (hs : w.staging.isSome = true) {remaining : ℕ}
    {eof : Bool} (hat : AtEntry w e (.copyLoop remaining eof)) :
    Phase (w.copyChunk e remaining eof ok n) (w.copyChunk e remaining eof ok n).pc := by
  obtain ⟨hi, hle, b, hb, hpre, hlen⟩ := hat
  have happend : ∀ bytes, w.appendStaged e.name bytes = w.stage e.name (some (.own (b ++ bytes))) := by
    intro bytes
    rw [World.appendStaged, staged_eq_tree, hb]
  unfold World.copyChunk
  dsimp only
  generalize hg : (if eof = true then []
    else ((w.files e.name).bytes.drop (e.byteLimit - remaining)).take (min remaining World.bufferSize)) = got
  have hgot : b ++ got <+: (w.files e.name).bytes ∧ got.length ≤ remaining := by
    rw [← hg, ← hlen]
    split_ifs
    · exact ⟨by simpa using hpre, Nat.zero_le _⟩
    · refine ⟨prefix_append_chunk hpre _, ?_⟩
      rw [List.length_take]
      omega
  rw [happend, happend]
  split_ifs
  · exact hwork.phase _ hl hf hs hi
  · exact (hwork.stage hn _).phase _ hl hf rfl hi
  · refine (hwork.stage hn _).phase (.copyLoop _ _) hl hf rfl ⟨hi, by omega, b ++ got, ?_, hgot.1, ?_⟩
    · rw [tree_stage, Function.update_self]
    · rw [List.length_append]
      omega

/-- One operation on an entry. -/
theorem Working.entryStep (hwork : Working w done rest e) (hi : Inv w) (hl : w.listed = true)
    (hf : w.final = none) {pc : EntryPc} (hs : pc = .createDirectories ∨ w.staging.isSome = true)
    (hat : AtEntry w e pc) (hok : ok = true ∨ w.mayFail (.entry pc) = true) :
    Phase (w.entryStep e ok n pc) (w.entryStep e ok n pc).pc := by
  have hn := hi.nodup
  have hsrc : Sourced w.files e := hi.sourced e (by rw [hwork.entries]; simp)
  have hhead : w.todo.head? = some e := by rw [hwork.todo, List.head?_cons]
  cases pc with
  | createDirectories =>
    have hwork' : Working { w with staging := some (w.staging.getD fun _ => none) } done rest e :=
      ⟨hwork.todo, hwork.entries, hwork.staged, hwork.names⟩
    rw [World.entryStep]
    dsimp only
    split_ifs with h1 h2 h3
    · exact hf
    · exact hwork'.phase _ hl hf rfl ⟨hat, h2⟩
    · exact hwork'.phase .link hl hf rfl ⟨hat, not_not.mp h2⟩
    · exact hwork'.phase .openSource hl hf rfl ⟨hat, not_not.mp h2⟩
  | writeInline =>
    rw [World.entryStep]
    split_ifs
    · exact hf
    · refine (hwork.stage hn _).written hn (holds_stage (w := w) ?_) rfl hl hf
      rw [hsrc.inline hat.2]
      exact List.prefix_rfl
  | link =>
    have hs' : w.staging.isSome = true := hs.resolve_left (by decide)
    rw [World.entryStep]
    split_ifs
    · exact hwork.phase .openSource hl hf hs' hat
    · exact (hwork.stage hn _).written hn (holds_stage (w := w) (hsrc.source hat.2)) rfl hl hf
  | openSource =>
    have hs' : w.staging.isSome = true := hs.resolve_left (by decide)
    rw [World.entryStep]
    split_ifs
    · exact hwork.phase .recheckSource hl hf hs' hat.2
    · exact hwork.phase .createFile hl hf hs' hat
  | createFile =>
    have hs' : w.staging.isSome = true := hs.resolve_left (by decide)
    have hcreate : w.createFile e = w.stage e.name (some (.own [])) := by
      rw [World.createFile, staged_eq_tree, hat.1]
    rw [World.entryStep]
    split_ifs
    · exact hwork.phase .recheckSource hl hf hs' hat.2
    · rw [hcreate]
      refine (hwork.stage hn _).phase (.copyLoop _ _) hl hf rfl ⟨hat.2, le_rfl, [], ?_, List.nil_prefix, ?_⟩
      · rw [tree_stage, Function.update_self]
      · rw [Nat.sub_self, List.length_nil]
  | copyLoop remaining eof =>
    have hs' : w.staging.isSome = true := hs.resolve_left (by rintro ⟨⟩)
    rw [World.entryStep]
    split_ifs with h0
    · subst h0
      exact hwork.phase .closeFile hl hf hs' ⟨hat.1, hat.2.2⟩
    · exact hwork.copyChunk hn hl hf hs' hat
  | closeFile =>
    have hs' : w.staging.isSome = true := hs.resolve_left (by decide)
    rw [World.entryStep]
    split_ifs
    · exact hwork.phase .recheckSource hl hf hs' hat.1
    · exact hwork.phase .stampFile hl hf hs' hat
  | stampFile =>
    have hs' : w.staging.isSome = true := hs.resolve_left (by decide)
    rw [World.entryStep]
    split_ifs
    · exact hwork.phase .recheckSource hl hf hs' hat.1
    · exact hwork.written hn (hat.2.holds hat.1 hsrc) hs' hl hf
  | recheckSource =>
    have hs' : w.staging.isSome = true := hs.resolve_left (by decide)
    rw [World.entryStep]
    split_ifs with hgone
    · -- a check that fails is let pass only where the source is gone
      have hp : (w.files e.name).present = false := by
        rcases hgone with hfail | hp
        · rcases hok with hok | hok
          · exact absurd (hfail.symm.trans hok) Bool.false_ne_true
          · simpa [World.mayFail, hhead] using hok
        · exact hp
      exact hwork.phase .removePartial hl hf hs' ⟨hat, hp⟩
    · exact hf
  | removePartial =>
    have hs' : w.staging.isSome = true := hs.resolve_left (by decide)
    rw [World.entryStep]
    split_ifs with hfail
    · have hnone : tree w e.name = none := by
        rcases hok with hok | hok
        · exact absurd (hfail.symm.trans hok) Bool.false_ne_true
        · rw [← staged_eq_tree]
          simpa [World.mayFail, hhead] using hok
      exact hwork.nextEntry hn (holds_purged hat.1 hat.2 hnone) hs' hl hf
    · refine (hwork.stage hn none).nextEntry hn (holds_purged hat.1 hat.2 ?_) rfl hl hf
      rw [tree_stage, Function.update_self]
  | syncFile =>
    have hs' : w.staging.isSome = true := hs.resolve_left (by decide)
    rw [World.entryStep]
    split_ifs
    · exact hf
    · exact hwork.nextEntry hn hat hs' hl hf

/-! ### The whole call -/

/-- The entries and the live files are the same. -/
def Same (w w' : World) : Prop := w'.entries = w.entries ∧ w'.files = w.files

theorem written_same (w : World) : Same w w.written := by
  unfold World.written
  split_ifs
  · exact ⟨rfl, rfl⟩
  · exact ⟨rfl, rfl⟩

/-- Only a stale hard link would let the copy write through to a live file. -/
theorem copyChunk_same {b : Bytes} (hb : tree w e.name = some (.own b)) (remaining : ℕ) (eof ok : Bool) (n : ℕ) :
    Same w (w.copyChunk e remaining eof ok n) := by
  have happend : ∀ bytes, w.appendStaged e.name bytes = w.stage e.name (some (.own (b ++ bytes))) := by
    intro bytes
    rw [World.appendStaged, staged_eq_tree, hb]
  unfold World.copyChunk
  dsimp only
  rw [happend, happend]
  split_ifs
  all_goals exact ⟨rfl, rfl⟩

theorem AtEntry.same {pc : EntryPc} (hat : AtEntry w e pc) : Same w (w.entryStep e ok n pc) := by
  cases pc with
  | createDirectories =>
    rw [World.entryStep]
    split_ifs
    all_goals exact ⟨rfl, rfl⟩
  | writeInline =>
    rw [World.entryStep]
    split_ifs
    · exact ⟨rfl, rfl⟩
    · exact written_same _
  | link =>
    rw [World.entryStep]
    split_ifs
    · exact ⟨rfl, rfl⟩
    · exact written_same _
  | createFile =>
    have hcreate : w.createFile e = w.stage e.name (some (.own [])) := by
      rw [World.createFile, staged_eq_tree, hat.1]
    rw [World.entryStep, hcreate]
    split_ifs
    all_goals exact ⟨rfl, rfl⟩
  | copyLoop remaining eof =>
    obtain ⟨-, -, b, hb, -⟩ := hat
    rw [World.entryStep]
    split_ifs
    · exact ⟨rfl, rfl⟩
    · exact copyChunk_same hb remaining eof ok n
  | stampFile =>
    rw [World.entryStep]
    split_ifs
    · exact ⟨rfl, rfl⟩
    · exact written_same _
  | openSource | closeFile | recheckSource | removePartial | syncFile =>
    rw [World.entryStep]
    split_ifs
    all_goals exact ⟨rfl, rfl⟩

theorem Inv.of_same (hi : Inv w) (h : Same w w') (hp : Phase w' w'.pc) : Inv w' := by
  refine ⟨?_, fun e he => ?_, hp⟩
  · rw [h.1]
    exact hi.nodup
  · rw [h.2]
    exact hi.sourced e (h.1 ▸ he)

/-- One operation of the call. -/
theorem Inv.opStep (hi : Inv w) (hok : ok = true ∨ w.mayFail w.pc = true)
    (hstep : w.opStep ok n = some w') : Inv w' := by
  have hp := hi.phase
  unfold World.opStep at hstep
  cases hpc : w.pc with
  | start | createBackupDir | acquireLock =>
    rw [hpc] at hstep hp
    obtain rfl := Option.some.inj hstep
    split_ifs
    · exact hi.of_same ⟨rfl, rfl⟩ hp
    · exact hi.of_same ⟨rfl, rfl⟩ hp
  | sweepStaging =>
    rw [hpc] at hstep hp hok
    obtain rfl := Option.some.inj hstep
    split_ifs with hfail
    · have hnone : w.staging = none := by
        rcases hok with hok | hok
        · exact absurd (hfail.symm.trans hok) Bool.false_ne_true
        · exact Option.isNone_iff_eq_none.mp hok
      exact hi.of_same ⟨rfl, rfl⟩ ⟨hp.1, hp.2, hnone⟩
    · exact hi.of_same ⟨rfl, rfl⟩ ⟨hp.1, hp.2, rfl⟩
  | openEngine =>
    rw [hpc] at hstep hp
    obtain rfl := Option.some.inj hstep
    split_ifs
    · exact hi.of_same ⟨rfl, rfl⟩ ⟨hp.1, hp.2.1⟩
    · exact hi.of_same ⟨rfl, rfl⟩ hp
  | createBackup =>
    rw [hpc] at hstep hp
    obtain rfl := Option.some.inj hstep
    split_ifs
    · exact hi.of_same ⟨rfl, rfl⟩ ⟨hp.1, hp.2.1⟩
    · exact hi.of_same ⟨rfl, rfl⟩ ⟨rfl, hp.2⟩
  | collect =>
    rw [hpc] at hstep
    cases hstep
  | entry pc =>
    rw [hpc] at hstep hp hok
    obtain ⟨hl, hf, hs, done, rest, e, hwork, hat⟩ := hp
    have hhead : w.todo.head? = some e := by rw [hwork.todo, List.head?_cons]
    dsimp only at hstep
    rw [hhead] at hstep
    obtain rfl := Option.some.inj hstep
    exact hi.of_same hat.same (hwork.entryStep hi hl hf hs hat hok)
  | syncDirs left =>
    rw [hpc] at hstep hp
    obtain rfl := Option.some.inj hstep
    obtain ⟨hl, hf, sub, hs, hw⟩ := hp
    split_ifs
    · exact hi.of_same ⟨rfl, rfl⟩ ⟨hl, hf, sub, hs, hw.holds, hw.names⟩
    · exact hi.of_same ⟨rfl, rfl⟩ hf
    · exact hi.of_same ⟨rfl, rfl⟩ ⟨hl, hf, sub, hs, hw.holds, hw.names⟩
  | syncBase =>
    rw [hpc] at hstep hp
    obtain rfl := Option.some.inj hstep
    obtain ⟨hl, hf, sub, hs, hw⟩ := hp
    split_ifs
    · exact hi.of_same ⟨rfl, rfl⟩ hf
    · exact hi.of_same ⟨rfl, rfl⟩ ⟨hl, hf, sub, hs, hw.holds, hw.names⟩
  | rename =>
    rw [hpc] at hstep hp
    obtain rfl := Option.some.inj hstep
    obtain ⟨hl, hf, sub, hs, hw⟩ := hp
    split_ifs
    · exact hi.of_same ⟨rfl, rfl⟩ hf
    · exact hi.of_same ⟨rfl, rfl⟩ ⟨hl, sub, hs, hw.holds, hw.names⟩
    · exact hi.of_same ⟨rfl, rfl⟩ ⟨hl, Or.inr ⟨sub, hs, hw.holds, hw.names⟩⟩
  | syncParent =>
    rw [hpc] at hstep hp hok
    obtain rfl := Option.some.inj hstep
    obtain ⟨hl, sub, hs, hw⟩ := hp
    rw [if_neg (fun hfail => absurd (hfail.symm.trans (hok.resolve_right Bool.false_ne_true)) Bool.false_ne_true)]
    exact hi.of_same ⟨rfl, rfl⟩ ⟨hl, Or.inr ⟨sub, hs, hw.holds, hw.names⟩⟩
  | removeStaging =>
    rw [hpc] at hstep hp
    obtain rfl := Option.some.inj hstep
    split_ifs
    · exact hi.of_same ⟨rfl, rfl⟩ hp
    · exact hi.of_same ⟨rfl, rfl⟩ hp
  | deleteBackup =>
    rw [hpc] at hstep hp hok
    obtain rfl := Option.some.inj hstep
    rw [if_neg (fun hfail => absurd (hfail.symm.trans (hok.resolve_right Bool.false_ne_true)) Bool.false_ne_true)]
    exact hi.of_same ⟨rfl, rfl⟩ ⟨rfl, hp⟩
  | returned ok =>
    rw [hpc] at hstep
    cases hstep

theorem capture_sourced (w : World) (e : NamedEntry) : Sourced w.files (w.capture e) := by
  refine ⟨fun h => if_pos h, fun h => ?_, fun h => ?_⟩
  · have hcap : (w.capture e).captured = (w.files e.name).bytes.take e.byteLimit := if_neg (not_not.mpr h)
    rw [hcap]
    exact List.take_prefix _ _
  · have hcap : (w.capture e).captured = (w.files e.name).bytes.take e.byteLimit := if_neg (not_not.mpr h)
    rw [hcap, List.length_take]
    exact min_le_left _ _

theorem Inv.collect (hi : Inv w) {es : List NamedEntry} (hstep : w.step (.collect es) = some w') : Inv w' := by
  rw [World.step] at hstep
  by_cases hc : w.pc = .collect ∧ (es.map NamedEntry.name).Nodup
  case neg =>
    rw [if_neg hc] at hstep
    cases hstep
  rw [if_pos hc] at hstep
  obtain rfl := Option.some.inj hstep
  have hp := hi.phase
  rw [hc.1] at hp
  have hnames : (es.map w.capture).map (fun e => e.name) = es.map NamedEntry.name := by
    rw [List.map_map]
    rfl
  refine ⟨hnames ▸ hc.2, fun e he => ?_, ?_⟩
  · obtain ⟨x, -, rfl⟩ := List.mem_map.mp he
    exact capture_sourced w x
  · cases es with
    | nil => exact ⟨hp.1, Or.inl ⟨rfl, hp.2.1⟩⟩
    | cons e es =>
      have hempty : tree w = fun _ => none := by rw [tree, hp.2.2, Option.getD_none]
      refine ⟨hp.1, hp.2.1, Or.inl rfl, [], es.map w.capture, w.capture e,
        ⟨rfl, rfl, fun d hd => (by cases hd), fun name f hf => ?_⟩, ?_⟩
      · have hnone : tree w name = some f := hf
        rw [hempty] at hnone
        cases hnone
      · exact congrFun hempty _

theorem Inv.step (hi : Inv w) {ev : Event} (hok : Unslipped w ev) (hstep : w.step ev = some w') : Inv w' := by
  cases ev with
  | append name bytes =>
    obtain rfl := Option.some.inj hstep
    exact hi.later (Later.append w.files name bytes)
  | purge name =>
    obtain rfl := Option.some.inj hstep
    exact hi.later (Later.purge w.files name)
  | collect es => exact hi.collect hstep
  | op ok n => exact hi.opStep hok hstep

/-- Wherever a crash ends the call, and however it returns, the backup is whole or not there. -/
theorem backup_all_or_nothing {events : List Event} (h0 : Initial w) (hok : Runs.Along World.step Unslipped w events)
    (hrun : Runs.exec World.step w events = some w') : AllOrNothing w' :=
  (Runs.exec_invariant (fun _ _ _ hi hok hstep => Inv.step hi hok hstep) h0.inv hok hrun).allOrNothing

/-- A live store with a rotated file and the current one, the backup not yet begun. -/
def twoFiles : World where
  sync := true
  files := fun name => if name = ("log", "1.txnlog") then ⟨[1, 2, 3], true⟩
    else if name = ("log", "2.txnlog") then ⟨[4, 5], true⟩ else ⟨[], false⟩

theorem twoFiles_initial : Initial twoFiles := ⟨rfl, rfl, rfl, rfl⟩

/-- Up to the snapshot, which captures both files. -/
def captureBoth : List Event :=
  List.replicate 6 (.op true 0) ++ [.collect [⟨("log", "1.txnlog"), 3, true, []⟩, ⟨("log", "2.txnlog"), 2, false, []⟩]]

/-- The rotated file is linked, and the current one copied while the store appends to it. -/
def linkAndCopy : List Event :=
  [.op true 0, .op true 0, .op true 0, .op true 0, .append ("log", "2.txnlog") [6], .op true 0, .op true 0, .op true 0,
    .op true 0, .op true 0, .op true 0, .op true 0]

/-- One directory and the base are synced, and the subtree is renamed. -/
def publish : List Event := [.op true 0, .op true 0, .op true 0, .op true 0]

theorem backup_all_or_nothing_copied :
    AllOrNothing (Runs.final World.step twoFiles (captureBoth ++ linkAndCopy ++ publish ++ [.op true 0]))
    ∧ (Runs.final World.step twoFiles (captureBoth ++ linkAndCopy ++ publish ++ [.op true 0])).pc = .returned true :=
  ⟨backup_all_or_nothing twoFiles_initial (by decide +kernel)
    (Runs.exec_final _ _ _ (by decide +kernel)), by decide +kernel⟩

/-- The parent's sync fails after the rename: the call reports failure, and the subtree stays. -/
theorem published_after_failure :
    (Runs.final World.step twoFiles (captureBoth ++ linkAndCopy ++ publish ++
      [.op false 0, .op true 0, .op true 0])).pc = .returned false
    ∧ ¬ AllOrNothing (Runs.final World.step twoFiles (captureBoth ++ linkAndCopy ++ publish ++
      [.op false 0, .op true 0, .op true 0])) := by
  have hpc : (Runs.final World.step twoFiles (captureBoth ++ linkAndCopy ++ publish ++
      [.op false 0, .op true 0, .op true 0])).pc = .returned false := by
    decide +kernel
  have hfinal : (Runs.final World.step twoFiles (captureBoth ++ linkAndCopy ++ publish ++
      [.op false 0, .op true 0, .op true 0])).final.isSome = true := by
    decide +kernel
  refine ⟨hpc, fun h => ?_⟩
  rw [(h.failed hpc).2] at hfinal
  cases hfinal

end CreateBackup
end RocksdbJs
