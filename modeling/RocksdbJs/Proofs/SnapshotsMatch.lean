import RocksdbJs.Sanity.SnapshotTurns

/-! Whatever operations run over a backup directory, in whatever processes and order: the log
subtree under the id of a backup that is not corrupt is the snapshot that the backup's own call has
published. It is needed that no new backup comes upon a subtree that an earlier one of its id has
left; where the operations are left to end, there is none. -/

namespace RocksdbJs
namespace BackupDirs

/-- The call that is told the id of its new backup, and the id. -/
def Event.created? : Event → Option (ℕ × ℕ)
  | .op n (.created id _) => some (n, id)
  | _ => none

def Event.failedRemoval? : Event → Option Removal
  | .removal r .failed => some r
  | _ => none

namespace World

variable {w w' : World} {n : ℕ} {c : Call} {a : Answer} {e : Event}

/-- A new backup's id has no subtree, and an `rm` that fails is the last of its call. -/
def Tended (w : World) (e : Event) : Prop :=
  (∀ k ∈ e.created?, ∀ c ∈ w.calls[k.1]?, k.2.repr ∉ (w.dirs c.dir).logs) ∧
  ∀ r ∈ e.failedRemoval?, ∀ r' ∈ w.removals.erase r, r'.owner ≠ r.owner

instance decidableTended (w : World) (e : Event) : Decidable (w.Tended e) :=
  inferInstanceAs (Decidable ((∀ k ∈ e.created?, ∀ c ∈ w.calls[k.1]?, k.2.repr ∉ (w.dirs c.dir).logs) ∧
    ∀ r ∈ e.failedRemoval?, ∀ r' ∈ w.removals.erase r, r'.owner ≠ r.owner))

theorem afterLock_ok {t t' : ℕ} {op : Op} {b : Body} (h : afterLock t op = .body t' b) (d : Directory) : b.Ok d c := by
  cases op with
  | backup transactionLogs sync => cases transactionLogs <;> cases h <;> trivial
  | tryFileLock => cases h
  | _ =>
    cases h
    trivial

theorem Kept.quiet (h : w.Kept) (hc : w.calls[n]? = some c) {pc : Pc}
    (hcalls : w'.calls = w.calls.set n { c with pc := pc }) (hflocks : w'.flocks = w.flocks)
    (hdirs : w'.dirs = w.dirs) (hremovals : w'.removals = w.removals)
    (hidle : ∀ t, c.pc ≠ .body t .await ∧ c.pc ≠ .abandoned t)
    (hbody : ∀ t b, pc = .body t b → b.Ok (w.dirs c.dir) c) : w'.Kept := by
  refine h.move hc hcalls hflocks hdirs hremovals ?_ hbody
  rintro t (hpc | hpc)
  · exact absurd hpc (hidle t).1
  · exact absurd hpc (hidle t).2

theorem Kept.flock (h : w.Kept) (hc : w.calls[n]? = some c) {fd : ℕ} (hpc : c.pc = .flock fd) {r : FlockResult}
    (hs : w.flock n c fd r = some w') : w'.Kept := by
  have hidle : ∀ t, c.pc ≠ .body t .await ∧ c.pc ≠ .abandoned t := fun t => by simp [hpc]
  cases r with
  | acquired =>
    obtain ⟨-, hs⟩ := Option.ite_none_right_eq_some.mp hs
    cases hs
    exact h.quiet hc rfl rfl rfl rfl hidle fun _ _ hb => by cases hb
  | wouldBlock =>
    obtain ⟨-, hs⟩ := Option.ite_none_right_eq_some.mp hs
    cases hs
    exact h.quiet hc rfl rfl rfl rfl hidle fun _ _ hb => by cases hb
  | interrupted =>
    cases hs
    exact h
  | unsupported =>
    obtain ⟨-, hs⟩ := Option.ite_none_right_eq_some.mp hs
    cases hs
    exact h.quiet hc rfl rfl rfl rfl hidle fun _ _ hb => by cases hb
  | failed =>
    cases hs
    exact h.quiet hc rfl rfl rfl rfl hidle fun _ _ hb => by cases hb

theorem Kept.eraseToken (h : w.Kept) (hc : w.calls[n]? = some c) {t : ℕ} (ok : Bool)
    (hidle : ∀ t, c.pc ≠ .body t .await ∧ c.pc ≠ .abandoned t) : (w.eraseToken n c t ok).Kept := by
  unfold World.eraseToken
  split
  · exact h.quiet hc rfl rfl rfl rfl hidle fun _ _ hb => by cases hb
  · exact h.quiet hc rfl rfl rfl rfl hidle fun _ _ hb => by cases hb

theorem Kept.callStep (h : w.Kept) (hone : w.OneWriter) (hc : w.calls[n]? = some c)
    (hfree : ∀ id image, a = .created id image → (w.dirs c.dir).logs.lookup id.repr = none)
    (hs : w.callStep n c a = some w') : w'.Kept := by
  unfold World.callStep at hs
  split at hs
  · next hpc =>
    obtain ⟨-, hs⟩ := Option.ite_none_right_eq_some.mp hs
    cases hs
    exact h.quiet hc rfl rfl rfl rfl (fun t => by simp [hpc]) fun _ _ hb => by cases hb
  · next hpc =>
    cases hs
    exact h.quiet hc rfl rfl rfl rfl (fun t => by simp [hpc]) fun _ _ hb => by cases hb
  · next hpc => exact h.flock hc hpc hs
  · next hpc =>
    cases hs
    exact h.quiet hc rfl rfl rfl rfl (fun t => by simp [hpc]) fun _ _ hb => by cases hb
  · next hpc =>
    cases hs
    exact h.quiet hc rfl rfl rfl rfl (fun t => by simp [hpc]) fun _ _ hb => afterLock_ok hb _
  · next hpc =>
    obtain ⟨d, pc, names, hturn, rfl⟩ := bodyStep_turns hc hpc hs
    exact h.turn hone hc hpc hturn fun _ => hfree
  · next hpc =>
    cases hs
    exact h.eraseToken hc _ fun t => by simp [hpc]
  · next hpc =>
    cases hs
    exact h.eraseToken hc _ fun t => by simp [hpc]
  · next hpc =>
    cases hs
    exact h.quiet hc rfl rfl rfl rfl (fun t => by simp [hpc]) fun _ _ hb => by cases hb
  · next hpc =>
    split at hs
    · obtain ⟨pc, dbs, hbare, rfl⟩ := restoreStep_eq hc hpc hs
      refine h.quiet hc rfl rfl rfl rfl (fun t => by simp [hpc]) fun t b hb => ?_
      have ht := hbare.token
      rw [hb] at ht
      cases ht
    · cases hs
  · cases hs

/-- The trees of a directory change below names that no backup has. -/
theorem Kept.setLogs (h : w.Kept) {dir : Dir} {name : String} (s : Option Subtree)
    (hcalls : w'.calls = w.calls) (hflocks : w'.flocks = w.flocks)
    (hdirs : w'.dirs = Function.update w.dirs dir ((w.dirs dir).setLogs name s))
    (hremovals : ∀ r ∈ w'.removals, r ∈ w.removals)
    (hname : w.flocks dir = true → ∀ id ∈ (w.dirs dir).listing, id.repr ≠ name) : w'.Kept := by
  have hbackups : ∀ other, (w'.dirs other).backups = (w.dirs other).backups := by
    intro other
    rw [hdirs]
    by_cases hother : other = dir
    · subst hother
      rw [Function.update_self]
      rfl
    · rw [Function.update_of_ne hother]
  refine ⟨fun other hf => ?_, fun m c t b hm hpc hf => ?_, fun r hr hf => ?_⟩
  · rw [hflocks] at hf
    rw [hdirs]
    by_cases hother : other = dir
    · subst hother
      rw [Function.update_self]
      exact (h.matched other hf).setLogs s fun id b hb hv => hname hf id (Directory.mem_listing.mpr ⟨b, hb, hv⟩)
    · rw [Function.update_of_ne hother]
      exact h.matched other hf
  · rw [hcalls] at hm
    rw [hflocks] at hf
    exact (h.bodies m c t b hm hpc hf).congr fun id hid => (hbackups c.dir).symm ▸ hid
  · rw [hflocks] at hf
    obtain ⟨howner, hname⟩ := h.removals r (hremovals r hr) hf
    refine ⟨hcalls ▸ howner, fun id hid => hname id ?_⟩
    rw [Directory.mem_listing, hbackups] at hid
    exact Directory.mem_listing.mpr hid

theorem Kept.removalStep (h : w.Kept) {r : Removal} (hr : r ∈ w.removals)
    (hlast : a = .failed → ∀ r' ∈ w.removals.erase r, r'.owner ≠ r.owner)
    (hs : w.removalStep r a = some w') : w'.Kept := by
  cases a with
  | partly s =>
    obtain ⟨-, hs⟩ := Option.ite_none_right_eq_some.mp hs
    cases hs
    exact h.setLogs (some s) rfl rfl rfl (fun _ hr => hr) fun hf => (h.removals r hr hf).name
  | ok =>
    cases hs
    exact h.setLogs none rfl rfl rfl (fun _ hr => List.mem_of_mem_erase hr) fun hf => (h.removals r hr hf).name
  | failed =>
    have hrest : Kept { w with removals := w.removals.erase r } :=
      ⟨h.matched, h.bodies, fun r' hr' hf => ⟨(h.removals r' (List.mem_of_mem_erase hr') hf).owner,
        (h.removals r' (List.mem_of_mem_erase hr') hf).name⟩⟩
    cases hs
    simp only
    split
    · next c hc =>
      split
      · next t hpc => exact hrest.move hc rfl rfl rfl rfl (fun _ _ => .inr (hlast rfl)) fun _ _ hb => by cases hb
      · exact hrest
    · exact hrest
  | _ => cases hs

theorem Kept.crash (h : w.Kept) (p : ℕ) : (w.crash p).Kept := by
  refine ⟨h.matched, fun m c t b hm hpc hf => ?_, fun r hr hf => ?_⟩
  · obtain ⟨c', hc', rfl⟩ := Option.map_eq_some_iff.mp ((List.getElem?_map ..).symm.trans hm)
    split at hpc
    · cases hpc
    · next hp =>
      rw [if_neg hp] at hf ⊢
      exact h.bodies m c' t b hc' hpc hf
  · obtain ⟨hr, hp⟩ := List.mem_filter.mp hr
    obtain ⟨⟨c, t, hm, hdir, hprocess, hpc⟩, hname⟩ := h.removals r hr hf
    refine ⟨⟨c, t, ?_, hdir, hprocess, hpc⟩, hname⟩
    have hp : c.process ≠ p := hprocess ▸ of_decide_eq_true hp
    simp [World.crash, List.getElem?_map, hm, hp]

theorem Kept.terminate (h : w.Kept) (hc : w.calls[n]? = some c) (hs : w.terminate n c = some w') : w'.Kept := by
  unfold World.terminate at hs
  split at hs
  · next t _ _ hpc _ =>
    cases hs
    refine h.move hc rfl rfl rfl rfl ?_ fun _ _ hb => by cases hb
    rintro t' (hpc' | hpc') <;> rw [hpc] at hpc' <;> cases hpc'
    exact .inl rfl
  · next t _ hpc _ =>
    cases hs
    refine h.move hc rfl rfl rfl rfl ?_ fun _ _ hb => by cases hb
    rintro t' (hpc' | hpc') <;> rw [hpc] at hpc' <;> cases hpc'
    exact .inl rfl
  · next hpc =>
    cases hs
    exact h.quiet hc rfl rfl rfl rfl (fun t => by simp [hpc]) fun _ _ hb => by cases hb
  · cases hs

theorem Kept.corrupt (h : w.Kept) (dir : Dir) (id : ℕ) :
    (w.setDir dir ((w.dirs dir).setBackup id fun b => { b with valid := false })).Kept := by
  have hself : (w.setDir dir ((w.dirs dir).setBackup id fun b => { b with valid := false })).dirs dir =
      (w.dirs dir).setBackup id fun b => { b with valid := false } := Function.update_self ..
  have hother : ∀ other, other ≠ dir →
      (w.setDir dir ((w.dirs dir).setBackup id fun b => { b with valid := false })).dirs other = w.dirs other :=
    fun other hne => Function.update_of_ne hne ..
  refine ⟨fun other hf => ?_, fun m c t b hm hpc hf => ?_, fun r hr hf => ?_⟩
  · by_cases hdir : other = dir
    · subst hdir
      rw [hself]
      exact (h.matched other hf).corrupt id
    · rw [hother other hdir]
      exact h.matched other hf
  · by_cases hdir : c.dir = dir
    · rw [hdir, hself]
      refine (h.bodies m c t b hm hpc hf).congr fun i hi => ?_
      rw [hdir] at hi
      rw [Directory.lookup_setBackup]
      split
      · next he =>
        rw [← he, hi]
        rfl
      · exact hi
    · rw [hother c.dir hdir]
      exact h.bodies m c t b hm hpc hf
  · obtain ⟨howner, hname⟩ := h.removals r hr hf
    refine ⟨howner, fun i hi => hname i ?_⟩
    by_cases hdir : r.dir = dir
    · rw [hdir, hself, Directory.mem_listing] at hi
      obtain ⟨b, hb, hv⟩ := hi
      rw [Directory.lookup_setBackup] at hb
      split at hb
      · obtain ⟨old, -, rfl⟩ := Option.map_eq_some_iff.mp hb
        cases hv
      · rw [hdir]
        exact Directory.mem_listing.mpr ⟨b, hb, hv⟩
    · rw [hother r.dir hdir] at hi
      exact hi

theorem Kept.step (h : w.Kept) (hone : w.OneWriter) (hok : w.Tended e) (hs : w.step e = some w') : w'.Kept := by
  cases e with
  | start p dir op =>
    obtain ⟨-, hs⟩ := Option.ite_none_right_eq_some.mp hs
    cases hs
    exact h.start p dir op
  | op n a =>
    obtain ⟨c, hc, hs⟩ := Option.bind_eq_some_iff.mp hs
    refine h.callStep hone hc ?_ hs
    rintro id image rfl
    exact AList.lookup_eq_none.mpr (hok.1 (n, id) rfl c (Option.mem_def.mpr hc))
  | removal r a =>
    obtain ⟨hr, hs⟩ := Option.ite_none_right_eq_some.mp hs
    refine h.removalStep hr ?_ hs
    rintro rfl
    exact hok.2 r rfl
  | terminate n =>
    obtain ⟨c, hc, hs⟩ := Option.bind_eq_some_iff.mp hs
    exact h.terminate hc hs
  | crash p =>
    cases hs
    exact h.crash p
  | corrupt dir id =>
    cases hs
    exact h.corrupt dir id

theorem Initial.kept (h : w.Initial) (hdirs : ∀ dir, w.flocks dir = true → (w.dirs dir).Matched) : w.Kept := by
  refine ⟨hdirs, fun n c t b hc => ?_, fun r hr => ?_⟩
  · rw [h.calls] at hc
    cases hc
  · rw [h.removals] at hr
    cases hr

theorem snapshots_match {es : List Event} (h0 : w.Initial) (hdirs : ∀ dir, w.flocks dir = true → (w.dirs dir).Matched)
    (hok : Runs.Along step (fun w e => w.TokensOk e ∧ w.Tended e) w es) (hrun : Runs.exec step w es = some w') :
    ∀ dir, w'.flocks dir = true → (w'.dirs dir).Matched := by
  have hstep : ∀ (v : World) (e : Event) (v' : World), v.Locked ∧ v.Kept →
    v.TokensOk e ∧ v.Tended e → v.step e = some v' →
      v'.Locked ∧ v'.Kept := by
    rintro v e v' ⟨hl, hk⟩ ⟨htokens, htended⟩ hs
    exact ⟨hl.step htokens hs, hk.step hl.oneWriter htended hs⟩
  exact (Runs.exec_invariant hstep ⟨h0.locked, h0.kept hdirs⟩ hok hrun).2.matched

theorem empty_matched (dir : Dir) : (empty.dirs dir).Matched := by
  constructor <;> intro id b hb <;> cases hb

def snapshot : Subtree := AList.singleton "log/1.txnlog" [1, 2, 3]

/-- A backup with its log snapshot, up to the publishing rename. -/
def makesBackup (n fd id : ℕ) (logs : Subtree) : List Event :=
  takesLock n fd ++ [.op n .ok, .op n .ok, .op n .ok, .op n (.created id [7]), .op n .ok,
    .op n (.partly logs), .op n .ok]

/-- What an operation does after its engine is closed, or its wait is over. -/
def givesBack (n : ℕ) : List Event := [.op n .ok, .op n .ok, .op n .ok]

/-- One backup is made, the process dies in the next, and a purge of another process sweeps what is left. -/
def sweptUp : List Event :=
  .flatten [[.start 0 7 (.backup true false)], makesBackup 0 3 1 snapshot, [.op 0 .ok], givesBack 0,
    [.start 0 7 (.backup true false)], makesBackup 1 3 2 snapshot, [.crash 0, .start 1 7 .purge], takesLock 2 5,
    [.op 2 .ok, .op 2 (.purged [] true), .op 2 .ok, .op 2 .ok, .op 2 .ok, .removal ⟨1, 7, ".staging-2", 2⟩ .ok],
    givesBack 2]

theorem snapshots_match_sweptUp :
    (∀ dir, (Runs.final step empty sweptUp).flocks dir = true → ((Runs.final step empty sweptUp).dirs dir).Matched) ∧
    ((Runs.final step empty sweptUp).dirs 7).listing = [2, 1] ∧
    ((Runs.final step empty sweptUp).dirs 7).logs.keys = ["1"] :=
  ⟨snapshots_match empty_initial (fun dir _ => empty_matched dir) (by decide +kernel)
    (Runs.exec_final step empty sweptUp (by decide +kernel)),
    by decide +kernel, by decide +kernel⟩

/-- The process that deletes backup 1 dies before it gets to the log snapshot; the next backup, one
without logs, is number 1 again. -/
def inherited : List Event :=
  .flatten [[.start 0 7 (.backup true false)], makesBackup 0 3 1 snapshot, [.op 0 .ok], givesBack 0,
    [.start 0 7 (.delete 1)], takesLock 1 3, [.op 1 .ok, .op 1 .ok, .crash 0, .start 1 7 (.backup false false)],
    takesLock 2 3, [.op 2 .ok, .op 2 (.created 1 [8])], givesBack 2]

theorem inherits_leftover :
    (((Runs.final step empty inherited).dirs 7).backups.lookup 1).map
      (fun b => (b.image, b.valid, b.published.isNone)) = some ([8], true, true) ∧
    (((Runs.final step empty inherited).dirs 7).logs.lookup "1").bind (fun s => s.lookup "log/1.txnlog") =
      some [1, 2, 3] := by
  decide +kernel

end World

end BackupDirs
end RocksdbJs
