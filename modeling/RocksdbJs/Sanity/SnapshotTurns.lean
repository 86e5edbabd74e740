import RocksdbJs.Proofs.OneWriter

/-! What a backup directory keeps as long as one operation at a time works on it: a backup's log
snapshot is the one that its own call has published, and whatever is being removed belongs to none. -/

namespace RocksdbJs
namespace BackupDirs

/-- The ids are those of the engine, and the subtree under the id of a backup that is not corrupt
is what its call has published, if that is anything. -/
structure Directory.Matched (d : Directory) : Prop where
  ids : ∀ id b, d.backups.lookup id = some b → id < 2 ^ 32
  snapshots : ∀ id b, d.backups.lookup id = some b → b.valid = true → d.logs.lookup id.repr = b.published

theorem Body.Ok.congr {d d' : Directory} {c : Call} {b : Body} (h : b.Ok d c)
    (hd : ∀ id, d.backups.lookup id = none → d'.backups.lookup id = none) :
    b.Ok d' c := by
  unfold Body.Ok at h ⊢
  split <;> simp_all

namespace Directory.Matched

variable {d : Directory}

theorem ne_staging {name : String} (h : isStaging name = true) (id : ℕ) : id.repr ≠ name := by
  rintro rfl
  rw [isStaging_repr] at h
  cases h

theorem setLogs (h : d.Matched) {name : String} (s : Option Subtree)
    (hname : ∀ id b, d.backups.lookup id = some b → b.valid = true → id.repr ≠ name) : (d.setLogs name s).Matched := by
  refine ⟨h.ids, fun id b hb hv => ?_⟩
  rw [Directory.lookup_setLogs, if_neg (hname id b hb hv)]
  exact h.snapshots id b hb hv

theorem create (h : d.Matched) {id : ℕ} {image : Bytes} (hid : id < 2 ^ 32) (hfree : d.logs.lookup id.repr = none) :
    Directory.Matched { d with backups := d.backups.insert id { image := image } } := by
  have hsplit : ∀ other b, (d.backups.insert id { image := image }).lookup other = some b →
      (other = id ∧ b = { image := image }) ∨ d.backups.lookup other = some b := by
    intro other b hb
    by_cases h : other = id
    · subst h
      rw [AList.lookup_insert] at hb
      exact .inl ⟨rfl, (Option.some.inj hb).symm⟩
    · exact .inr ((AList.lookup_insert_ne h).symm.trans hb)
  constructor
  · intro other b hb
    obtain ⟨rfl, -⟩ | hb := hsplit other b hb
    · exact hid
    · exact h.ids other b hb
  · intro other b hb hv
    obtain ⟨rfl, rfl⟩ | hb := hsplit other b hb
    · exact hfree
    · exact h.snapshots other b hb hv

theorem publish (h : d.Matched) (id : ℕ) (s : Subtree) :
    (((d.setLogs (stagingName id) none).setLogs id.repr (some s)).setBackup id fun b =>
      { b with published := some s }).Matched := by
  constructor
  · intro other b hb
    rw [Directory.lookup_setBackup] at hb
    by_cases hother : other = id
    · subst hother
      rw [if_pos rfl] at hb
      obtain ⟨old, hold, -⟩ := Option.map_eq_some_iff.mp hb
      exact h.ids other old hold
    · rw [if_neg hother] at hb
      exact h.ids other b hb
  · intro other b hb hv
    rw [Directory.lookup_setBackup] at hb
    rw [Directory.setBackup_logs, Directory.lookup_setLogs, Directory.lookup_setLogs,
      if_neg (ne_staging (isStaging_stagingName id) other)]
    by_cases hother : other = id
    · subst hother
      rw [if_pos rfl] at hb
      obtain ⟨old, -, rfl⟩ := Option.map_eq_some_iff.mp hb
      rw [if_pos rfl]
    · rw [if_neg hother] at hb
      rw [if_neg fun he => hother (Nat.repr_inj.mp he)]
      exact h.snapshots other b hb hv

theorem eraseBackups (h : d.Matched) (ids : List ℕ) : (d.eraseBackups ids).Matched := by
  have hsub : ∀ id b, (d.eraseBackups ids).backups.lookup id = some b → d.backups.lookup id = some b := by
    intro id b hb
    rw [Directory.lookup_eraseBackups] at hb
    split at hb
    · cases hb
    · exact hb
  exact ⟨fun id b hb => h.ids id b (hsub id b hb), fun id b hb => h.snapshots id b (hsub id b hb)⟩

theorem corrupt (h : d.Matched) (id : ℕ) : (d.setBackup id fun b => { b with valid := false }).Matched := by
  have hsub : ∀ other b, (d.setBackup id fun b => { b with valid := false }).backups.lookup other = some b →
      ∃ old, d.backups.lookup other = some old ∧ (b = old ∨ b.valid = false) := by
    intro other b hb
    rw [Directory.lookup_setBackup] at hb
    split at hb
    · next hother =>
      subst hother
      obtain ⟨old, hold, rfl⟩ := Option.map_eq_some_iff.mp hb
      exact ⟨old, hold, .inr rfl⟩
    · exact ⟨b, hb, .inl rfl⟩
  constructor
  · intro other b hb
    obtain ⟨old, hold, -⟩ := hsub other b hb
    exact h.ids other old hold
  · intro other b hb hv
    obtain ⟨old, hold, rfl | hinvalid⟩ := hsub other b hb
    · rw [Directory.setBackup_logs]
      exact h.snapshots other b hold hv
    · rw [hinvalid] at hv
      cases hv

end Directory.Matched

namespace World

variable {w w' : World} {n : ℕ} {c : Call} {t : ℕ} {a : Answer} {e : Event}

/-- A tree that is being removed belongs to no backup, and its call has the lock of the directory. -/
structure RemovalOk (w : World) (r : Removal) : Prop where
  owner : ∃ (c : Call) (t : ℕ), w.calls[r.owner]? = some c ∧ c.dir = r.dir ∧ c.process = r.process ∧
    (c.pc = .body t .await ∨ c.pc = .abandoned t)
  name : ∀ id ∈ (w.dirs r.dir).listing, id.repr ≠ r.name

/-- Of the directories whose file system has `flock`. -/
structure Kept (w : World) : Prop where
  matched : ∀ dir, w.flocks dir = true → (w.dirs dir).Matched
  bodies : ∀ (n : ℕ) (c : Call) t b, w.calls[n]? = some c → c.pc = .body t b →
    w.flocks c.dir = true → b.Ok (w.dirs c.dir) c
  removals : ∀ r ∈ w.removals, w.flocks r.dir = true → w.RemovalOk r

theorem token_of_owner {pc : Pc} (h : pc = .body t .await ∨ pc = .abandoned t) : pc.token? = some t := by
  obtain rfl | rfl := h <;> rfl

/-- While an operation does anything but wait, nothing is removed from its directory beside it. -/
theorem Kept.no_removal (h : w.Kept) (hone : w.OneWriter) (hc : w.calls[n]? = some c) {b : Body}
    (hpc : c.pc = .body t b) (hflocks : w.flocks c.dir = true)
    (hb : b = .await → ∀ r ∈ w.removals, r.owner ≠ n) :
    ∀ r ∈ w.removals, r.dir ≠ c.dir := by
  intro r hr hdir
  obtain ⟨c', t', hc', hdir', -, hpc'⟩ := (h.removals r hr (hdir ▸ hflocks)).owner
  obtain rfl : n = r.owner := by
    refine hone n r.owner c c' hc hc' (hdir'.trans hdir).symm hflocks ?_ ?_
    · rw [hpc]
      rfl
    · rw [token_of_owner hpc']
      rfl
  obtain rfl : c = c' := Option.some.inj (hc.symm.trans hc')
  obtain hpc' | hpc' := hpc'
  · rw [hpc] at hpc'
    cases hpc'
    exact hb rfl r hr rfl
  · rw [hpc] at hpc'
    cases hpc'

theorem Turn.removal_free {d d' : Directory} {b : Body} {pc : Pc} {names : List String}
    (h : Turn w n c t a d b d' pc names) :
    b = .await → ∀ r ∈ w.removals, r.owner ≠ n := by
  intro hb
  subst hb
  cases h with
  | goes hb => exact absurd rfl hb
  | releases ok hb => exact hb rfl
  | stages name s hb => exact absurd rfl hb
  | erases ids hb => exact absurd rfl hb

theorem turned_dir (d : Directory) (pc : Pc) (names : List String) : (w.turned n c d pc names).dirs c.dir = d :=
  Function.update_self ..

theorem turned_dir_ne (d : Directory) (pc : Pc) (names : List String) {dir : Dir} (h : dir ≠ c.dir) :
    (w.turned n c d pc names).dirs dir = w.dirs dir := Function.update_of_ne h ..

/-- The directory after a turn, where a new backup finds no subtree under its id. -/
theorem Turn.matched {d d' : Directory} {b : Body} {pc : Pc} {names : List String} (h : Turn w n c t a d b d' pc names)
    (hd : d.Matched) (hok : b.Ok d c)
    (hfree : ∀ id image, a = .created id image → d.logs.lookup id.repr = none) : d'.Matched := by
  cases h with
  | goes => exact hd
  | releases => exact hd
  | stages name s _ _ hname => exact hd.setLogs s fun id _ _ _ => Directory.Matched.ne_staging (hname hok) id
  | creates id image ha hid => exact hd.create hid (hfree id image ha)
  | publishes id s => exact hd.publish id s
  | erases ids => exact hd.eraseBackups ids
  | removes => exact hd
  | prunes => exact hd

theorem Turn.ok {d d' : Directory} {b b' : Body} {names : List String}
    (h : Turn w n c t a d b d' (.body t b') names) (hok : b.Ok d c) :
    b'.Ok d' c := by
  cases h with
  | goes _ _ hok' => exact hok' hok
  | stages name s _ _ _ hok' => exact hok' hok
  | creates id image _ _ _ _ hok' => exact hok' hok
  | publishes id s _ _ hok' => exact hok' _
  | erases ids _ _ hok' => exact hok' hok
  | removes => trivial
  | prunes => trivial

/-- The trees that a turn starts to remove belong to no backup. -/
theorem Turn.removes_none {d d' : Directory} {b : Body} {pc : Pc} {names : List String}
    (h : Turn w n c t a d b d' pc names) (hd : d.Matched) (hok : b.Ok d c) :
    ∀ name ∈ names, pc = .body t .await ∧ ∀ id ∈ d'.listing, id.repr ≠ name := by
  intro name hname
  cases h with
  | removes id hop =>
    obtain rfl := List.mem_singleton.mp hname
    refine ⟨rfl, fun other hother he => ?_⟩
    obtain rfl := Nat.repr_inj.mp he
    obtain ⟨b, hb, -⟩ := Directory.mem_listing.mp hother
    have hgone := hok other hop
    rw [Nat.mod_eq_of_lt (hd.ids other b hb), hb] at hgone
    cases hgone
  | prunes names =>
    have hkeep := of_decide_eq_true (List.mem_filter.mp hname).2
    exact ⟨rfl, fun id hid he => hkeep (List.mem_map.mpr ⟨id, hid, he⟩)⟩
  | _ => cases hname

theorem Kept.turn (h : w.Kept) (hone : w.OneWriter) (hc : w.calls[n]? = some c) {b : Body} (hpc : c.pc = .body t b)
    {d : Directory} {pc : Pc} {names : List String} (hturn : Turn w n c t a (w.dirs c.dir) b d pc names)
    (hfree : w.flocks c.dir = true → ∀ id image, a = .created id image → (w.dirs c.dir).logs.lookup id.repr = none) :
    (w.turned n c d pc names).Kept := by
  have hcalls : ∀ (m : ℕ) (c' : Call), (w.turned n c d pc names).calls[m]? = some c' →
      (m = n ∧ c' = { c with pc := pc }) ∨ (m ≠ n ∧ w.calls[m]? = some c') := fun _ _ hm => call_of_set hc hm
  have hself : (w.turned n c d pc names).calls[n]? = some { c with pc := pc } :=
    (getElem?_set_call hc n).trans (if_pos rfl)
  refine ⟨fun dir hflocks => ?_, fun m c' t' b' hm hpc' hflocks => ?_, fun r hr hflocks => ?_⟩
  · by_cases hdir : dir = c.dir
    · subst hdir
      rw [turned_dir]
      exact Turn.matched hturn (h.matched _ hflocks) (h.bodies n c t b hc hpc hflocks) (hfree hflocks)
    · rw [turned_dir_ne _ _ _ hdir]
      exact h.matched dir hflocks
  · obtain ⟨-, rfl⟩ | ⟨hmn, hm⟩ := hcalls m c' hm
    · have hpc' : pc = .body t' b' := hpc'
      obtain rfl : t = t' := by
        have ht := (Turn.token hturn).1
        rw [hpc'] at ht
        exact (Option.some.inj ht).symm
      subst hpc'
      rw [show ({ c with pc := Pc.body t b' } : Call).dir = c.dir from rfl, turned_dir]
      have hnew := Turn.ok hturn (h.bodies n c t b hc hpc hflocks)
      exact hnew
    · have hdir : c'.dir ≠ c.dir := by
        intro hdir
        refine hmn (hone m n c' c hm hc hdir hflocks ?_ ?_)
        · rw [hpc']
          rfl
        · rw [hpc]
          rfl
      rw [turned_dir_ne _ _ _ hdir]
      exact h.bodies m c' t' b' hm hpc' hflocks
  · obtain hold | hnew := List.mem_append.mp hr
    · have hdir : r.dir ≠ c.dir := by
        intro hdir
        exact h.no_removal hone hc hpc (hdir ▸ hflocks) (Turn.removal_free hturn) r hold hdir
      obtain ⟨⟨c', t', hm, hdir', hp, hpc'⟩, hname⟩ := h.removals r hold hflocks
      refine ⟨⟨c', t', ?_, hdir', hp, hpc'⟩, ?_⟩
      · refine ((getElem?_set_call hc _).trans (if_neg ?_)).trans hm
        intro hmn
        rw [hmn] at hm
        obtain rfl : c = c' := Option.some.inj (hc.symm.trans hm)
        exact hdir hdir'.symm
      · rw [turned_dir_ne _ _ _ hdir]
        exact hname
    · obtain ⟨name, hname, rfl⟩ := List.mem_map.mp hnew
      obtain ⟨hpc', hfresh⟩ := Turn.removes_none hturn (h.matched _ hflocks)
        (h.bodies n c t b hc hpc hflocks) name hname
      refine ⟨⟨_, t, hself, rfl, rfl, .inl hpc'⟩, ?_⟩
      rw [show (Removal.mk c.process c.dir name n).dir = c.dir from rfl, turned_dir]
      exact hfresh

/-- A step that leaves the directories, by a call that has no tree removed. -/
theorem Kept.move (h : w.Kept) (hc : w.calls[n]? = some c) {pc : Pc}
    (hcalls : w'.calls = w.calls.set n { c with pc := pc }) (hflocks : w'.flocks = w.flocks)
    (hdirs : w'.dirs = w.dirs) (hremovals : w'.removals = w.removals)
    (hidle : ∀ t, c.pc = .body t .await ∨ c.pc = .abandoned t → pc = .abandoned t ∨ ∀ r ∈ w.removals, r.owner ≠ n)
    (hbody : ∀ t b, pc = .body t b → b.Ok (w.dirs c.dir) c) : w'.Kept := by
  refine ⟨?_, fun m c' t b hm hpc hf => ?_, fun r hr hf => ?_⟩
  · rw [hflocks, hdirs]
    exact h.matched
  · rw [hcalls] at hm
    rw [hflocks] at hf
    rw [hdirs]
    obtain ⟨-, rfl⟩ | ⟨-, hm⟩ := call_of_set hc hm
    · exact hbody t b hpc
    · exact h.bodies m c' t b hm hpc hf
  · rw [hremovals] at hr
    rw [hflocks] at hf
    obtain ⟨⟨c', t, hm, hdir, hp, hpc⟩, hname⟩ := h.removals r hr hf
    refine ⟨?_, hdirs ▸ hname⟩
    by_cases hmn : r.owner = n
    · rw [hmn] at hm
      obtain rfl : c = c' := Option.some.inj (hc.symm.trans hm)
      obtain hpc' | hnone := hidle t hpc
      · refine ⟨{ c with pc := pc }, t, ?_, hdir, hp, .inr hpc'⟩
        rw [hcalls, getElem?_set_call hc, if_pos hmn]
      · exact absurd hmn (hnone r hr)
    · refine ⟨c', t, ?_, hdir, hp, hpc⟩
      rw [hcalls, getElem?_set_call hc, if_neg hmn]
      exact hm

theorem Kept.start (h : w.Kept) (p : ℕ) (dir : Dir) (op : Op) :
    Kept { w with calls := w.calls ++ [⟨p, dir, op, firstPc op⟩] } := by
  refine ⟨h.matched, fun m c t b hm hpc hf => ?_, fun r hr hf => ?_⟩
  · rcases Nat.lt_or_ge m w.calls.length with hlt | hge
    · exact h.bodies m c t b ((List.getElem?_append_left hlt).symm.trans hm) hpc hf
    · have hm := (List.getElem?_append_right hge).symm.trans hm
      rw [List.getElem?_singleton] at hm
      split at hm
      · obtain rfl := Option.some.inj hm
        cases op <;> cases hpc
      · cases hm
  · obtain ⟨⟨c, t, hm, hdir, hp, hpc⟩, hname⟩ := h.removals r hr hf
    exact ⟨⟨c, t, (List.getElem?_append_left (lt_of_call hm)).trans hm, hdir, hp, hpc⟩, hname⟩

end World

end BackupDirs
end RocksdbJs
