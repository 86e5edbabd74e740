import Mathlib
import RocksdbJs.Sanity.FileLocks

/-! What one step of an operation with the lock can do to its directory. -/

namespace RocksdbJs
namespace BackupDirs

/-- What holds where an operation stands, by what it has done so far. -/
def Body.Ok (d : Directory) (c : Call) : Body → Prop
  | .sweep names => ∀ name ∈ names, isStaging name = true
  | .createBackup => ∀ id, c.op ≠ .delete id
  | .purgeOldBackups => c.op = .purge
  | .closeEngine true => ∀ id, c.op = .delete id → d.backups.lookup (id % 2 ^ 32) = none
  | _ => True

/-- The step of a call `n` that stands at a body: the directory, the call and the removals after it. -/
inductive Turn (w : World) (n : ℕ) (c : Call) (t : ℕ) (a : Answer) (d : Directory) : Body → Directory →
    Pc → List String → Prop
  | goes {b b' : Body} (hb : b ≠ .await) (hb' : b' ≠ .await) (hok : b.Ok d c → b'.Ok d c) :
      Turn w n c t a d b d (.body t b') []
  | releases {b : Body} (ok : Bool) (hb : b = .await → ∀ r ∈ w.removals, r.owner ≠ n) :
      Turn w n c t a d b d (.release t ok) []
  | stages {b b' : Body} (name : String) (s : Option Subtree) (hb : b ≠ .await) (hb' : b' ≠ .await)
      (hname : b.Ok d c → isStaging name = true) (hok : b.Ok d c → b'.Ok (d.setLogs name s) c) :
      Turn w n c t a d b (d.setLogs name s) (.body t b') []
  | creates {b' : Body} (id : ℕ) (image : Bytes) (ha : a = .created id image) (hid : id < 2 ^ 32)
      (hnew : ∀ old ∈ d.backups.keys, old < id) (hb' : b' ≠ .await)
      (hok : (∀ id, c.op ≠ .delete id) → b'.Ok { d with backups := d.backups.insert id { image := image } } c) :
      Turn w n c t a d .createBackup { d with backups := d.backups.insert id { image := image } } (.body t b') []
  | publishes {b' : Body} (id : ℕ) (s : Subtree) (hb' : b' ≠ .await) (hop : ∀ id,
      c.op ≠ .delete id) (hok : ∀ d, b'.Ok d c) :
      Turn w n c t a d (.publish id)
        (((d.setLogs (stagingName id) none).setLogs id.repr (some s)).setBackup id fun b =>
          { b with published := some s }) (.body t b') []
  | erases {b b' : Body} (ids : List ℕ) (hb : b ≠ .await) (hb' : b' ≠ .await) (hok : b.Ok d c →
      b'.Ok (d.eraseBackups ids) c) :
      Turn w n c t a d b (d.eraseBackups ids) (.body t b') []
  | removes (id : ℕ) (hop : c.op = .delete id) : Turn w n c t a d (.closeEngine true) d (.body t .await) [id.repr]
  | prunes (names : List String) :
      Turn w n c t a d (.list names) d (.body t .await) (names.filter fun name =>
        decide (name ∉ d.listing.map Nat.repr))

theorem isStaging_stagingName (id : ℕ) : isStaging (stagingName id) = true := by
  simp [isStaging, stagingName]

/-- A backup's name begins with a digit. -/
theorem isStaging_repr (id : ℕ) : isStaging id.repr = false := by
  rw [Bool.eq_false_iff]
  intro h
  have hdot : '.' ∈ id.repr.toList := by
    obtain ⟨rest, hrest⟩ := List.isPrefixOf_iff_prefix.mp h
    rw [← hrest]
    exact List.mem_append_left _ (by decide)
  rw [Nat.toList_repr] at hdot
  have hdigit := Nat.isDigit_of_mem_toDigits (by decide) (by decide) hdot
  cases hdigit

namespace Directory

variable {d : Directory} {id : ℕ} {name : String}

@[simp] theorem setBackup_logs (id : ℕ) (f : Backup → Backup) : (d.setBackup id f).logs = d.logs := by
  unfold setBackup
  split <;> rfl

@[simp] theorem eraseBackups_logs (ids : List ℕ) : (d.eraseBackups ids).logs = d.logs := rfl

theorem lookup_setLogs (name : String) (s : Option Subtree) (other : String) :
    (d.setLogs name s).logs.lookup other = if other = name then s else d.logs.lookup other := by
  unfold setLogs
  cases s with
  | none =>
    by_cases h : other = name
    · subst h
      simp
    · simp [AList.lookup_erase_ne h, h]
  | some s =>
    by_cases h : other = name
    · subst h
      simp
    · simp [AList.lookup_insert_ne h, h]

theorem lookup_setBackup (id : ℕ) (f : Backup → Backup) (other : ℕ) :
    (d.setBackup id f).backups.lookup other = if other = id then (d.backups.lookup id).map f
      else d.backups.lookup other := by
  unfold setBackup
  cases hid : d.backups.lookup id with
  | none =>
    by_cases h : other = id
    · subst h
      simp [hid]
    · simp [h]
  | some b =>
    by_cases h : other = id
    · subst h
      simp
    · simp [AList.lookup_insert_ne h, h]

theorem lookup_eraseBackups (ids : List ℕ) (other : ℕ) :
    (d.eraseBackups ids).backups.lookup other = if other ∈ ids then none else d.backups.lookup other := by
  unfold eraseBackups
  induction ids generalizing d with
  | nil => simp
  | cons i ids ih =>
    have hstep := ih (d := { d with backups := d.backups.erase i })
    simp only [List.foldl_cons] at hstep ⊢
    rw [hstep]
    by_cases hmem : other ∈ ids
    · simp [hmem]
    · by_cases h : other = i
      · subst h
        simp
      · simp [hmem, h, AList.lookup_erase_ne h]

theorem mem_listing : id ∈ d.listing ↔ ∃ b, d.backups.lookup id = some b ∧ b.valid = true := by
  unfold listing
  rw [List.mem_filter, Option.any_eq_true]
  constructor
  · rintro ⟨-, hvalid⟩
    exact hvalid
  · rintro ⟨b, hb, hv⟩
    exact ⟨AList.mem_keys.mpr (AList.lookup_isSome.mp (by rw [hb]; rfl)), b, hb, hv⟩

end Directory

namespace World

variable {w w' : World} {n : ℕ} {c : Call} {t : ℕ} {b : Body} {a : Answer}

/-- The world after a turn of the call `n`. -/
def turned (w : World) (n : ℕ) (c : Call) (d : Directory) (pc : Pc) (names : List String) : World :=
  { w.setDir c.dir d with
    calls := w.calls.set n { c with pc := pc }
    removals := w.removals ++ names.map fun name => Removal.mk c.process c.dir name n }

theorem goto_eq_turned (pc : Pc) : w.goto n c pc = w.turned n c (w.dirs c.dir) pc [] := by
  simp [goto, turned, setDir]

theorem setDir_goto_eq_turned (d : Directory) (pc : Pc) : (w.setDir c.dir d).goto n c pc = w.turned n c d pc [] := by
  simp [goto, turned, setDir]

theorem setDir_eq_turned (hc : w.calls[n]? = some c) (d : Directory) : w.setDir c.dir d = w.turned n c d c.pc [] := by
  simp only [turned, setDir, List.map_nil, List.append_nil]
  exact congrArg (fun calls => { w with dirs := Function.update w.dirs c.dir d, calls := calls }) (set_self hc).symm

theorem spawn_eq_turned (names : List String) :
    w.spawn n c t names = w.turned n c (w.dirs c.dir) (.body t .await) names := by
  simp [spawn, goto, turned, setDir]

/-- The step is a turn of its call. -/
def Turns (w : World) (n : ℕ) (c : Call) (t : ℕ) (b : Body) (a : Answer) (w' : World) : Prop :=
  ∃ d pc names, Turn w n c t a (w.dirs c.dir) b d pc names ∧ w' = w.turned n c d pc names

theorem Turns.goes {b' : Body} (hb : b ≠ .await) (hb' : b' ≠ .await)
    (hok : b.Ok (w.dirs c.dir) c → b'.Ok (w.dirs c.dir) c) :
    w.Turns n c t b a (w.goto n c (.body t b')) :=
  ⟨_, _, _, .goes hb hb' hok, goto_eq_turned _⟩

theorem Turns.releases (ok : Bool) (hb : b = .await → ∀ r ∈ w.removals, r.owner ≠ n) :
    w.Turns n c t b a (w.goto n c (.release t ok)) :=
  ⟨_, _, _, .releases ok hb, goto_eq_turned _⟩

theorem Turns.stages {b' : Body} (name : String) (s : Option Subtree) (hb : b ≠ .await)
    (hb' : b' ≠ .await) (hname : b.Ok (w.dirs c.dir) c → isStaging name = true)
    (hok : b.Ok (w.dirs c.dir) c → b'.Ok ((w.dirs c.dir).setLogs name s) c) :
    w.Turns n c t b a ((w.setDir c.dir ((w.dirs c.dir).setLogs name s)).goto n c (.body t b')) :=
  ⟨_, _, _, .stages name s hb hb' hname hok, setDir_goto_eq_turned _ _⟩

/-- Something of a staged tree is written or removed, and the call stays where it is. -/
theorem Turns.partly (hc : w.calls[n]? = some c) (hpc : c.pc = .body t b) (name : String)
    (s : Option Subtree) (hb : b ≠ .await) (hname : b.Ok (w.dirs c.dir) c → isStaging name = true)
    (hok : b.Ok (w.dirs c.dir) c → b.Ok ((w.dirs c.dir).setLogs name s) c) :
    w.Turns n c t b a (w.setDir c.dir ((w.dirs c.dir).setLogs name s)) :=
  ⟨_, _, _, .stages name s hb hb hname hok, hpc ▸ setDir_eq_turned hc _⟩

theorem sweepStep_turns (hc : w.calls[n]? = some c) {name : String} {rest : List String}
    (hpc : c.pc = .body t (.sweep (name :: rest))) (h : w.sweepStep n c t name rest a = some w') :
    w.Turns n c t (.sweep (name :: rest)) a w' := by
  have hname : (Body.sweep (name :: rest)).Ok (w.dirs c.dir) c → isStaging name = true :=
    fun hok => hok name List.mem_cons_self
  have hrest : ∀ d, (Body.sweep (name :: rest)).Ok (w.dirs c.dir) c → (Body.sweep rest).Ok d c :=
    fun _ hok other hmem => hok other (List.mem_cons_of_mem name hmem)
  cases a with
  | partly s =>
    simp only [sweepStep, Option.ite_none_right_eq_some] at h
    obtain ⟨-, h⟩ := h
    cases h
    exact .partly hc hpc name _ (by simp) hname fun hok => hok
  | ok =>
    cases h
    exact .stages name none (by simp) (by simp) hname (hrest _)
  | failed =>
    cases h
    exact .goes (by simp) (by simp) (hrest _)
  | _ => cases h

theorem snapshotStep_turns (hc : w.calls[n]? = some c) (hpc : c.pc = .body t b) {sync : Bool}
    (hop : ∀ id, c.op ≠ .delete id) (h : w.snapshotStep n c t sync b a = some w') : w.Turns n c t b a w' := by
  have hfine : ∀ d ok, (Body.closeEngine ok).Ok d c := by
    intro d ok
    cases ok with
    | true => exact fun id hid => absurd hid (hop id)
    | false => trivial
  cases b with
  | collect id =>
    cases a <;> cases h
    · exact .goes (by simp) (by simp) fun _ => trivial
    · exact .goes (by simp) (by simp) fun _ => hfine _ _
  | stage id =>
    cases a <;> cases h
    · exact .goes (by simp) (by simp) fun _ => trivial
    · exact .goes (by simp) (by simp) fun _ => trivial
    · exact .partly hc hpc (stagingName id) (some _) (by simp) (fun _ => isStaging_stagingName id) fun _ => trivial
  | publish id =>
    cases a <;> try cases h
    · simp only [snapshotStep, Option.bind_eq_some_iff, Option.ite_none_right_eq_some] at h
      obtain ⟨s, -, -, h⟩ := h
      cases h
      cases sync with
      | true =>
        have hsync : ∀ d, (Body.syncParent id).Ok d c := fun _ => trivial
        exact ⟨_, _, _, .publishes id s (by simp) hop hsync, setDir_goto_eq_turned _ _⟩
      | false => exact ⟨_, _, _, .publishes id s (by simp) hop fun d => hfine d true, setDir_goto_eq_turned _ _⟩
    · exact .goes (by simp) (by simp) fun _ => trivial
  | syncParent id =>
    cases a <;> cases h
    · exact .goes (by simp) (by simp) fun _ => hfine _ _
    · exact .goes (by simp) (by simp) fun _ => trivial
  | removeStaging id =>
    cases a <;> try cases h
    · exact .stages _ _ (by simp) (by simp) (fun _ => isStaging_stagingName id) fun _ => trivial
    · exact .goes (by simp) (by simp) fun _ => trivial
    · simp only [snapshotStep, Option.ite_none_right_eq_some] at h
      obtain ⟨-, h⟩ := h
      cases h
      exact .partly hc hpc _ _ (by simp) (fun _ => isStaging_stagingName id) fun _ => trivial
  | rollback id =>
    cases a <;> cases h
    · exact ⟨_, _, _, .erases [id] (by simp) (by simp) fun _ => hfine _ _, setDir_goto_eq_turned _ _⟩
    · exact .goes (by simp) (by simp) fun _ => hfine _ _
  | _ => cases a <;> cases h

theorem engineCall_ok (d : Directory) : (engineCall c.op).Ok d c := by
  cases hop : c.op <;> simp [engineCall, Body.Ok, hop]

theorem engineCall_ne_await (op : Op) : engineCall op ≠ .await := by
  cases op <;> simp [engineCall]

theorem afterEngine_turns (ok : Bool) : w.Turns n c t (.closeEngine ok) a (w.afterEngine n c t ok) := by
  unfold afterEngine
  split
  · next id hop => exact ⟨_, _, _, .removes id hop, spawn_eq_turned _⟩
  · exact .goes (by simp) (by simp) fun _ => trivial
  · exact .releases _ (by simp)

theorem engineStep_turns (h : w.engineStep n c t b a = some w') : w.Turns n c t b a w' := by
  cases b with
  | openEngine =>
    cases a <;> cases h
    · exact .goes (by simp) (engineCall_ne_await _) fun _ => engineCall_ok _
    · exact .releases _ (by simp)
  | createBackup =>
    cases a <;> try cases h
    · exact .goes (by simp) (by simp) fun _ => trivial
    · next id image =>
      simp only [engineStep, Option.ite_none_right_eq_some] at h
      obtain ⟨⟨hid, hnew⟩, h⟩ := h
      cases h
      refine ⟨_, _, _, .creates id image rfl hid hnew ?_ ?_, setDir_goto_eq_turned _ _⟩
      · split <;> simp
      · intro hop
        split
        · trivial
        · exact fun id hid => absurd hid (hop id)
  | deleteBackup =>
    cases a <;> try cases h
    · simp only [engineStep] at h
      split at h
      · next id hop =>
        simp only [Option.ite_none_right_eq_some] at h
        obtain ⟨-, h⟩ := h
        cases h
        have hgone : (Body.closeEngine true).Ok ((w.dirs c.dir).eraseBackups [id % 2 ^ 32]) c := by
          intro other hother
          rw [hop] at hother
          cases hother
          simp [Directory.lookup_eraseBackups]
        exact ⟨_, _, _, .erases _ (by simp) (by simp) fun _ => hgone, setDir_goto_eq_turned _ _⟩
      · cases h
    · exact .goes (by simp) (by simp) fun _ => trivial
  | purgeOldBackups =>
    cases a <;> try cases h
    next ids ok =>
    refine ⟨_, _, _, .erases ids (by simp) (by simp) fun hop => ?_, setDir_goto_eq_turned _ _⟩
    cases ok with
    | true =>
      intro id hid
      rw [show c.op = .purge from hop] at hid
      cases hid
    | false => trivial
  | closeEngine ok =>
    cases a <;> cases h
    exact afterEngine_turns ok
  | _ => cases a <;> cases h

theorem bodyStep_turns (hc : w.calls[n]? = some c) (hpc : c.pc = .body t b)
    (h : w.bodyStep n c t b a = some w') : w.Turns n c t b a w' := by
  unfold bodyStep at h
  split at h
  · cases h
    exact .goes (by simp) (by simp) fun _ name hname => (List.mem_filter.mp hname).2
  · cases h
    exact .goes (by simp) (by simp) fun _ => trivial
  · cases h
    exact .goes (by simp) (by simp) fun _ => trivial
  · exact sweepStep_turns hc hpc h
  · cases h
    exact .goes (by simp) (by simp) fun _ => trivial
  · cases h
    exact ⟨_, _, _, .prunes _, spawn_eq_turned _⟩
  · cases h
    exact .releases _ (by simp)
  · cases h
    exact .releases _ (by simp)
  · simp only [Option.ite_none_right_eq_some] at h
    obtain ⟨hnone, h⟩ := h
    cases h
    exact .releases _ fun _ => hnone
  · split at h
    · next sync hop =>
      rw [Option.or_eq_some_iff] at h
      obtain h | ⟨-, h⟩ := h
      · exact snapshotStep_turns hc hpc (fun id hid => by rw [hop] at hid; cases hid) h
      · exact engineStep_turns h
    · exact engineStep_turns h

end World

end BackupDirs
end RocksdbJs
