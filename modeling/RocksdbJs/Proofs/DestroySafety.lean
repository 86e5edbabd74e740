import RocksdbJs.Lib.Runs
import RocksdbJs.Sanity.Sessions
import RocksdbJs.Spec.StoreRegistry

/-! What the destruction of log stores leaves alone. A close deletes nothing, as the map of files is
emptied before its purge, and phase 3 takes a store out of the map only where it is still the one
of its name. Phase 4 then deletes a directory by its name alone: a store that was made since is at
work there, and what it has written goes. -/

namespace RocksdbJs

section Stores
variable {cfg : StoreConfig} {w w' : World} {wr : Writer} {s : TransactionLogStore} {d : Disk}

theorem ensureOpen_touches {seq : ℕ} (f : TransactionLogFile) (io : OpenCalls) :
    (s.ensureOpen d seq f io).2.1.isClosing = s.isClosing ∧
      ∀ n, n ≠ seq → (s.ensureOpen d seq f io).2.2.logs.get? n = d.logs.get? n := by
  rw [TransactionLogStore.ensureOpen]
  split_ifs
  · exact ⟨rfl, fun n _ => rfl⟩
  · refine ⟨rfl, fun n hn => ?_⟩
    rw [TransactionLogStore.openLogFile]
    dsimp only
    split
    · exact (SeqMap.get?_set ..).trans (if_neg hn)
    · rfl

/-- A step of `writeBatch` changes one log file at most. -/
theorem writerStep_touches {io : WriterCalls} (h : writerStep cfg w wr io = some w') :
    w'.store.isClosing = w.store.isClosing ∧ ∀ n, wr.touches ≠ some n → w'.disk.logs.get? n = w.disk.logs.get? n := by
  cases writerStep_move h with
  | turn | rotate | place | setNext | finish => exact ⟨rfl, fun n _ => rfl⟩
  | get hpc =>
    rw [TransactionLogStore.getLogFile]
    split
    all_goals exact ⟨rfl, fun n _ => rfl⟩
  | opens seq f hpc hf hroom =>
    rw [Writer.touches, hpc]
    obtain ⟨hclosing, hlogs⟩ := ensureOpen_touches (s := w.store) (d := w.disk) f io.openCalls
    exact ⟨hclosing, fun n hn => hlogs n fun heq => hn (congrArg some heq.symm)⟩
  | append seq f hpc hf hreturns =>
    rw [Writer.touches, hpc]
    exact ⟨rfl, fun n hn => (SeqMap.get?_set ..).trans (if_neg fun heq => hn (congrArg some heq.symm))⟩

theorem doPurge_isClosing (all : Bool) (before : ℕ) (io : TransactionLogStore.FilesCalls) :
    (s.doPurge cfg d all before io).1.isClosing = s.isClosing := by
  have hforget : ∀ (removed : List ℕ) (s : TransactionLogStore),
      (removed.foldl TransactionLogStore.forgetFile s).isClosing = s.isClosing := by
    intro removed
    induction removed with
    | nil => exact fun s => rfl
    | cons seq removed ih =>
      intro s
      rw [List.foldl_cons, ih, TransactionLogStore.forgetFile]
      dsimp only
      split_ifs
      all_goals rfl
  rw [TransactionLogStore.doPurge]
  split_ifs
  all_goals exact hforget ..

/-- A phase of `tryClose` deletes nothing, and a store that closes goes on to. -/
theorem closePhase_kept {c : CloseCall} {io : TransactionLogStore.FilesCalls} {c' : Option CloseCall}
    (h : Session.closePhase cfg w c io = some (w', c')) :
    w'.disk = w.disk ∧ (w.store.isClosing = true → w'.store.isClosing = true) := by
  unfold Session.closePhase at h
  cases hpc : c.pc with
  | phase1 | phase2 =>
    simp only [hpc] at h
    split_ifs at h
    all_goals
      cases h
      exact ⟨rfl, id⟩
  | phase3 =>
    simp only [hpc] at h
    split_ifs at h
    · cases h
      exact ⟨rfl, id⟩
    · cases h
      exact ⟨rfl, fun _ => rfl⟩
  | phase4 =>
    simp only [hpc] at h
    split_ifs at h
    cases h
    -- the files are forgotten before the purge, which finds none
    exact ⟨rfl, fun _ => rfl⟩

/-- What a step of a transaction does to the store and its directory. -/
theorem transaction_touches {y y' : Session} {a : SessionAction} (hstep : Session.step cfg y a = some y')
    (ha : a.ofTransaction = true) :
    y'.world.store.isClosing = y.world.store.isClosing ∧
      ∀ n, (∀ io wr, a = .writer io → y.world.writer = some wr → wr.touches ≠ some n) →
      y'.world.disk.logs.get? n = y.world.disk.logs.get? n := by
  by_cases hw : ∃ io, a = .writer io
  · obtain ⟨io, rfl⟩ := hw
    obtain ⟨h, -, hstep⟩ := Option.bind_eq_some_iff.mp hstep
    cases hpc : h.pc with
    | writing sync =>
      simp only [hpc] at hstep
      obtain ⟨w', hw', hstep⟩ := Option.bind_eq_some_iff.mp hstep
      obtain ⟨wr, hwr, hw'⟩ := Option.bind_eq_some_iff.mp hw'
      obtain ⟨wr', -, rfl⟩ := Option.map_eq_some_iff.mp hstep
      obtain ⟨hclosing, hlogs⟩ := writerStep_touches hw'
      split_ifs
      · exact ⟨hclosing, fun n hn => hlogs n (hn io wr rfl hwr)⟩
      · exact ⟨hclosing, fun n hn => hlogs n (hn io wr rfl hwr)⟩
    | idle => simp [hpc] at hstep
    | failed => simp [hpc] at hstep
    | written => simp [hpc] at hstep
  · obtain ⟨hclosing, hdisk⟩ := Session.step_quiet hstep ha fun io hio => hw ⟨io, hio⟩
    exact ⟨hclosing, fun n _ => by rw [hdisk]⟩

end Stores

namespace StoreRegistry
variable {cfg : StoreConfig} {y y' : StoreRegistry} {a : StoreAction} {k i : ℕ} {o o' : StoreObject} {name : String}

/-- The directory of the name is still to be deleted by a phase 4. -/
def Doomed (y : StoreRegistry) (name : String) : Prop := ∃ c ∈ y.purges, name ∈ c.deleting

instance (y : StoreRegistry) (name : String) : Decidable (y.Doomed name) :=
  inferInstanceAs (Decidable (∃ c ∈ y.purges, name ∈ c.deleting))

/-- What a step has to meet: a store that is registered and not closing does not write a log file in a
directory that a phase 4 is about to delete. -/
def WritesApart (y : StoreRegistry) : StoreAction → Prop
  | .transaction k a =>
    ∀ o ∈ y.objects[k]?, (o.touches a).isSome = true → (o.name, k) ∈ y.stores → o.isClosing = false → ¬ y.Doomed o.name
  | _ => True

instance (y : StoreRegistry) : ∀ a : StoreAction, Decidable (y.WritesApart a)
  | .transaction k a =>
    inferInstanceAs (Decidable (∀ o ∈ y.objects[k]?, (o.touches a).isSome = true → (o.name, k) ∈ y.stores →
      o.isClosing = false → ¬ y.Doomed o.name))
  | .resolveStore _ | .flush _ _ | .purgeStores _ _ _ | .purge _ _ | .tryClose _ _ | .removeClosed _ | .unlink _ _
  | .removeDirectory _ _ =>
    inferInstanceAs (Decidable True)

/-- A store that is at work in a directory about to be deleted has written nothing there. -/
structure Sparing (y : StoreRegistry) : Prop where
  names : ∀ e ∈ y.stores, ∃ o, y.objects[e.2]? = some o ∧ o.name = e.1
  apart : ∀ name, y.Doomed name → ∀ k o, (name, k) ∈ y.stores → y.objects[k]? = some o →
    o.isClosing = true ∨ o.written = []

/-- What the sections of a store may do to it. -/
structure Kept (y : StoreRegistry) (k : ℕ) (o o' : StoreObject) : Prop where
  name : o'.name = o.name
  closing : o.isClosing = true → o'.isClosing = true
  written : (o.name, k) ∈ y.stores → o.isClosing = false → y.Doomed o.name → o'.written = o.written

/-- The directories to delete may get fewer, and the stores change as they may. -/
theorem Sparing.keep (h : Sparing y) (hstores : y'.stores = y.stores) (hdoomed : ∀ name, y'.Doomed name → y.Doomed name)
    (hold : ∀ (k : ℕ) o, y.objects[k]? = some o → ∃ o', y'.objects[k]? = some o')
    (hnew : ∀ (k : ℕ) o', y'.objects[k]? = some o' → ∃ o, y.objects[k]? = some o ∧ Kept y k o o') : Sparing y' := by
  refine ⟨fun e he => ?_, fun name hname k o' hmem ho' => ?_⟩
  · rw [hstores] at he
    obtain ⟨o, ho, hoe⟩ := h.names e he
    obtain ⟨o', ho'⟩ := hold e.2 o ho
    obtain ⟨o₁, ho₁, hkept⟩ := hnew e.2 o' ho'
    obtain rfl := Option.some.inj (ho.symm.trans ho₁)
    exact ⟨o', ho', hkept.name.trans hoe⟩
  · rw [hstores] at hmem
    obtain ⟨o, ho, hkept⟩ := hnew k o' ho'
    obtain ⟨o₁, ho₁, hname₁⟩ := h.names _ hmem
    obtain rfl := Option.some.inj (ho.symm.trans ho₁)
    rcases h.apart name (hdoomed name hname) k o hmem ho with hclosing | hwritten
    · exact Or.inl (hkept.closing hclosing)
    · cases hc : o.isClosing with
      | true => exact Or.inl (hkept.closing hc)
      | false =>
        right
        have hname₁ : o.name = name := hname₁
        rw [hkept.written (by rw [hname₁]; exact hmem) hc (by rw [hname₁]; exact hdoomed name hname)]
        exact hwritten

/-- A section of one store. -/
theorem Sparing.leave (h : Sparing y) (ho : y.objects[k]? = some o) {s : Session}
    (hname : o'.name = o.name) (hclosing : o.isClosing = true → s.world.store.isClosing = true)
    (hwritten : (o.name, k) ∈ y.stores → o.isClosing = false → y.Doomed o.name → o'.written = o.written) :
    Sparing (y.leave k o' s) := by
  refine h.keep rfl (fun _ hd => hd) (fun j u hu => ?_) (fun j u hu => ?_)
  · have hlt := (List.getElem?_eq_some_iff.mp hu).1
    exact Option.isSome_iff_exists.mp (by simp [StoreRegistry.leave, hlt])
  · change (y.objects.set k { o' with session := s })[j]? = some u at hu
    by_cases hjk : k = j
    · subst hjk
      have hlt := (List.getElem?_eq_some_iff.mp ho).1
      rw [List.getElem?_set_self hlt] at hu
      obtain rfl := Option.some.inj hu
      exact ⟨o, ho, hname, hclosing, hwritten⟩
    · rw [List.getElem?_set_ne hjk] at hu
      exact ⟨u, hu, rfl, id, fun _ _ _ => rfl⟩

/-- A call of `PurgeStores` goes on, with no more to delete. -/
theorem Sparing.setCall (h : Sparing y) {c : PurgeCall} {pc : PurgePc} (hc : y.purges[i]? = some c)
    (hpc : ∀ name ∈ ({ c with pc := pc } : PurgeCall).deleting, name ∈ c.deleting) : Sparing (y.setCall i c pc) := by
  refine h.keep rfl (fun name hd => ?_) (fun k o ho => ⟨o, ho⟩) (fun k o ho => ⟨o, ho, rfl, id, fun _ _ _ => rfl⟩)
  obtain ⟨c', hc', hname⟩ := hd
  rcases List.mem_or_eq_of_mem_set hc' with hold | rfl
  · exact ⟨c', hold, hname⟩
  · exact ⟨c, List.mem_of_getElem? hc, hpc name hname⟩

section Resolve

theorem mem_insertOrAssign {stores : List (String × ℕ)} {e : String × ℕ} (he : e ∈ insertOrAssign stores name k) :
    e = (name, k) ∨ (e ∈ stores ∧ e.1 ≠ name) := by
  rw [insertOrAssign, List.mem_append, List.mem_cons, List.mem_filter, List.mem_filter, decide_eq_true_eq,
    decide_eq_true_eq] at he
  rcases he with ⟨he, hlt⟩ | rfl | ⟨he, hlt⟩
  · exact Or.inr ⟨he, hlt.ne⟩
  · exact Or.inl rfl
  · exact Or.inr ⟨he, hlt.ne'⟩

theorem Sparing.create (h : Sparing y) (name : String) : Sparing (y.create name) := by
  have hold : ∀ e ∈ y.stores, (y.create name).objects[e.2]? = y.objects[e.2]? := by
    intro e he
    obtain ⟨o, ho, -⟩ := h.names e he
    exact List.getElem?_append_left (List.getElem?_eq_some_iff.mp ho).1
  have hnew : (y.create name).objects[y.objects.length]? = some { name := name } := List.getElem?_concat_length
  refine ⟨fun e he => ?_, fun n hn k o hmem ho => ?_⟩
  · rcases mem_insertOrAssign he with rfl | ⟨he, -⟩
    · exact ⟨_, hnew, rfl⟩
    · obtain ⟨o, ho, hoe⟩ := h.names e he
      exact ⟨o, (hold e he).trans ho, hoe⟩
  · rcases mem_insertOrAssign hmem with heq | ⟨hmem, -⟩
    · obtain ⟨rfl, rfl⟩ := Prod.mk.inj heq
      obtain rfl := Option.some.inj (hnew.symm.trans ho)
      exact Or.inr rfl
    · exact h.apart n hn k o hmem ((hold _ hmem).symm.trans ho)

theorem Sparing.resolveStore (h : Sparing y) (name : String) : Sparing (y.resolveStore name) := by
  rw [StoreRegistry.resolveStore]
  split
  · split_ifs
    · exact h.create name
    · exact h
  · exact h.create name

end Resolve

section Phases

/-- What phase 3 has done after some of its stores. -/
structure Removing (y : StoreRegistry) (acc : List (String × ℕ) × List String) : Prop where
  sub : acc.1 ⊆ y.stores
  gone : ∀ name ∈ acc.2, ∀ k, (name, k) ∉ acc.1

theorem Removing.removeStore {acc : List (String × ℕ) × List String} (h : Removing y acc) (k : ℕ) :
    Removing y (removeStore y.objects acc k) := by
  rw [StoreRegistry.removeStore]
  split
  next o ho =>
    split_ifs
    · refine ⟨fun e he => h.sub (List.mem_filter.mp he).1, fun name hname j hmem => ?_⟩
      obtain ⟨hmem, hne⟩ := List.mem_filter.mp hmem
      rcases List.mem_append.mp hname with hold | hnew
      · exact h.gone name hold j hmem
      · exact of_decide_eq_true hne (List.mem_singleton.mp hnew)
    · exact h
  next => exact h

theorem Removing.foldl (ks : List ℕ) {acc : List (String × ℕ) × List String} (h : Removing y acc) :
    Removing y (ks.foldl (StoreRegistry.removeStore y.objects) acc) := by
  induction ks generalizing acc with
  | nil => exact h
  | cons k ks ih => exact ih (h.removeStore k)

theorem Sparing.removeClosed (h : Sparing y) (hs : y.removeClosed i = some y') : Sparing y' := by
  obtain ⟨c, hc, hs⟩ := Option.bind_eq_some_iff.mp hs
  split at hs
  next hpc =>
    split_ifs at hs
    · obtain rfl := Option.some.inj hs
      have hremoving : Removing y (c.storesToPurge.foldl (StoreRegistry.removeStore y.objects) (y.stores, [])) :=
        Removing.foldl _ ⟨List.Subset.refl _, fun name hname => absurd hname List.not_mem_nil⟩
      refine ⟨fun e he => h.names e (hremoving.sub he), fun name hd k o hmem ho => ?_⟩
      obtain ⟨c', hc', hname⟩ := hd
      rcases List.mem_or_eq_of_mem_set hc' with hold | rfl
      · exact h.apart name ⟨c', hold, hname⟩ k o (hremoving.sub hmem) ho
      · exact absurd hmem (hremoving.gone name hname k)
    · obtain rfl := Option.some.inj hs
      refine h.keep rfl (fun name hd => ?_) (fun k o ho => ⟨o, ho⟩) (fun k o ho => ⟨o, ho, rfl, id, fun _ _ _ => rfl⟩)
      obtain ⟨c', hc', hname⟩ := hd
      exact ⟨c', List.mem_of_mem_eraseIdx hc', hname⟩
  next => cases hs

theorem Sparing.purge {io : TransactionLogStore.FilesCalls} (h : Sparing y)
    (hs : y.purge cfg i io = some y') : Sparing y' := by
  obtain ⟨c, hc, hs⟩ := Option.bind_eq_some_iff.mp hs
  split at hs
  next k rest hpc =>
    obtain ⟨o, ho, hs⟩ := Option.bind_eq_some_iff.mp hs
    dsimp only at hs
    split_ifs at hs with hbusy hdestroy
    all_goals
      obtain rfl := Option.some.inj hs
      refine Sparing.setCall (h.leave ho rfl (fun hclosing => ?_) fun _ _ _ => rfl) hc fun name hname =>
        absurd hname List.not_mem_nil
      exact (doPurge_isClosing ..).trans hclosing
  next => cases hs

theorem Sparing.tryClose {io : TransactionLogStore.FilesCalls} (h : Sparing y)
    (hs : y.tryClose cfg i io = some y') : Sparing y' := by
  obtain ⟨c, hc, hs⟩ := Option.bind_eq_some_iff.mp hs
  split at hs
  next k call rest hpc =>
    obtain ⟨o, ho, hs⟩ := Option.bind_eq_some_iff.mp hs
    obtain ⟨⟨w', call'⟩, hphase, rfl⟩ := Option.map_eq_some_iff.mp hs
    have hleft : Sparing (y.leave k o { o.session with world := w' }) :=
      h.leave ho rfl (closePhase_kept hphase).2 fun _ _ _ => rfl
    refine hleft.setCall hc fun name hname => ?_
    cases call' with
    | none => exact absurd hname List.not_mem_nil
    | some call' => exact absurd hname List.not_mem_nil
  next => cases hs

theorem Sparing.removeDirectory {removed : Bool} (h : Sparing y)
    (hs : y.removeDirectory i removed = some y') : Sparing y' := by
  obtain ⟨c, hc, hs⟩ := Option.bind_eq_some_iff.mp hs
  split at hs
  next name rest hpc =>
    have hless : ∀ n ∈ ({ c with pc := .removeAll rest } : PurgeCall).deleting, n ∈ c.deleting := by
      intro n hn
      rw [PurgeCall.deleting, hpc]
      exact List.mem_cons_of_mem _ hn
    split_ifs at hs
    · obtain rfl := Option.some.inj hs
      have hgone : Sparing { y with
          objects := y.objects.map fun o : StoreObject => if o.name = name then o.unlinkState else o
          directories := Function.update y.directories name { directory := false } } := by
        refine h.keep rfl (fun _ hd => hd) (fun k o ho => ?_) (fun k o' ho' => ?_)
        · exact ⟨_, by rw [List.getElem?_map, ho]; rfl⟩
        · rw [List.getElem?_map] at ho'
          obtain ⟨o, ho, rfl⟩ := Option.map_eq_some_iff.mp ho'
          refine ⟨o, ho, ?_⟩
          split_ifs
          all_goals exact ⟨rfl, id, fun _ _ _ => rfl⟩
      exact hgone.setCall hc hless
    · obtain rfl := Option.some.inj hs
      exact h.setCall hc hless
  next => cases hs

theorem Sparing.step (h : Sparing y) (hok : y.WritesApart a) (hs : y.step cfg a = some y') : Sparing y' := by
  cases a with
  | resolveStore name =>
    obtain rfl := Option.some.inj hs
    exact h.resolveStore name
  | transaction k a =>
    rw [StoreRegistry.step] at hs
    split_ifs at hs with ha
    obtain ⟨o, ho, hs⟩ := Option.bind_eq_some_iff.mp hs
    obtain ⟨s, hstep, rfl⟩ := Option.map_eq_some_iff.mp hs
    refine h.leave ho rfl (fun hclosing => (transaction_touches hstep ha).1.trans hclosing) fun hmem hopen hdoomed => ?_
    cases htouches : o.touches a with
    | none => rfl
    | some seq => exact absurd hdoomed (hok o ho (by rw [htouches]; rfl) hmem hopen)
  | flush k position =>
    obtain ⟨o, ho, rfl⟩ := Option.map_eq_some_iff.mp hs
    obtain ⟨stream, written, state, heq⟩ :=
      writeFlushedPosition_cases o.session.world.store (y.directories o.name) position
    refine h.leave ho rfl (fun hclosing => ?_) fun _ _ _ => rfl
    rw [heq]
    exact hclosing
  | purgeStores name destroy before =>
    obtain rfl := Option.some.inj hs
    refine h.keep rfl (fun n hd => ?_) (fun k o ho => ⟨o, ho⟩) (fun k o ho => ⟨o, ho, rfl, id, fun _ _ _ => rfl⟩)
    obtain ⟨c, hc, hname⟩ := hd
    rcases List.mem_append.mp hc with hold | hnew
    · exact ⟨c, hold, hname⟩
    · obtain rfl := List.mem_singleton.mp hnew
      exact absurd hname List.not_mem_nil
  | purge i io => exact h.purge hs
  | tryClose i io => exact h.tryClose hs
  | removeClosed i => exact h.removeClosed hs
  | unlink i seq =>
    obtain ⟨c, hc, hs⟩ := Option.bind_eq_some_iff.mp hs
    split at hs
    next name rest hpc =>
      obtain rfl := Option.some.inj hs
      exact h.keep rfl (fun _ hd => hd) (fun k o ho => ⟨o, ho⟩) (fun k o ho => ⟨o, ho, rfl, id, fun _ _ _ => rfl⟩)
    next => cases hs
  | removeDirectory i removed => exact h.removeDirectory hs

theorem Initial.sparing (h : Initial y) : Sparing y := by
  refine ⟨fun e he => ?_, fun name hd => ?_⟩
  · obtain ⟨o, ho, hname⟩ := (Option.any_eq_true ..).mp (h.2 e he)
    exact ⟨o, ho, of_decide_eq_true hname⟩
  · obtain ⟨c, hc, -⟩ := hd
    rw [h.1] at hc
    cases hc

end Phases

section Spared

/-- The step deletes the log file. -/
def Removes (y y' : StoreRegistry) (name : String) (seq : ℕ) : Prop :=
  ((y.directories name).logs.get? seq).isSome = true ∧ (y'.directories name).logs.get? seq = none

/-- The deletions of phase 4, and the purge of a store that closes. -/
def destroys : StoreAction → Bool
  | .tryClose _ _ => true
  | .unlink _ _ => true
  | .removeDirectory _ _ => true
  | _ => false

/-- What a step does to the log files. -/
structure Spares (y : StoreRegistry) (a : StoreAction) (y' : StoreRegistry) : Prop where
  recorded : ∀ k b o seq, a = .transaction k b → y.objects[k]? = some o →
    (y'.directories o.name).logs.get? seq ≠ (y.directories o.name).logs.get? seq →
      ∃ o', y'.objects[k]? = some o' ∧ seq ∈ o'.written
  spared : destroys a = true → ∀ name seq, Removes y y' name seq →
    ∀ k o, (name, k) ∈ y.stores → y.objects[k]? = some o → o.isClosing = false → seq ∉ o.written

theorem recorded_transaction {b : SessionAction} {seq : ℕ} (hs : y.step cfg (.transaction k b) = some y')
    (ho : y.objects[k]? = some o)
    (hne : (y'.directories o.name).logs.get? seq ≠ (y.directories o.name).logs.get? seq) :
    ∃ o', y'.objects[k]? = some o' ∧ seq ∈ o'.written := by
  rw [StoreRegistry.step] at hs
  split_ifs at hs with hb
  obtain ⟨u, hu, hs⟩ := Option.bind_eq_some_iff.mp hs
  obtain rfl := Option.some.inj (ho.symm.trans hu)
  obtain ⟨s, hstep, rfl⟩ := Option.map_eq_some_iff.mp hs
  have hlt := (List.getElem?_eq_some_iff.mp ho).1
  refine ⟨_, List.getElem?_set_self hlt, List.mem_append_left _ ?_⟩
  by_contra hmem
  refine hne ?_
  change (Function.update y.directories o.name s.world.disk o.name).logs.get? seq = _
  rw [Function.update_self]
  refine (transaction_touches hstep hb).2 seq fun io wr hio hwr htouches => hmem ?_
  subst hio
  have hwriter : o.session.world.writer = some wr := hwr
  rw [StoreObject.touches, hwriter, Option.bind_some, htouches]
  exact List.mem_singleton_self seq

/-- Only `unlink` deletes a log file, in a directory that phase 4 has come to. -/
theorem removes_unlink {seq : ℕ} (hs : y.step cfg a = some y') (ha : destroys a = true)
    (hremoves : Removes y y' name seq) : y.Doomed name := by
  obtain ⟨hthere, hgone⟩ := hremoves
  have hsame : (y'.directories name).logs = (y.directories name).logs → False := by
    intro heq
    rw [heq, ← Option.not_isSome_iff_eq_none] at hgone
    exact hgone hthere
  cases a with
  | tryClose i io =>
    obtain ⟨c, hc, hs⟩ := Option.bind_eq_some_iff.mp hs
    split at hs
    next k call rest hpc =>
      obtain ⟨o, ho, hs⟩ := Option.bind_eq_some_iff.mp hs
      obtain ⟨⟨w', call'⟩, hphase, rfl⟩ := Option.map_eq_some_iff.mp hs
      refine (hsame ?_).elim
      change (Function.update y.directories o.name w'.disk name).logs = _
      rw [(closePhase_kept hphase).1]
      change (Function.update y.directories o.name (y.directories o.name) name).logs = _
      rw [Function.update_eq_self]
    next => cases hs
  | unlink i n =>
    obtain ⟨c, hc, hs⟩ := Option.bind_eq_some_iff.mp hs
    split at hs
    next m rest hpc =>
      obtain rfl := Option.some.inj hs
      by_cases hname : name = m
      · subst hname
        exact ⟨c, List.mem_of_getElem? hc, by rw [PurgeCall.deleting, hpc]; exact List.mem_cons_self⟩
      · exact (hsame (congrArg Disk.logs (Function.update_of_ne hname ..))).elim
    next => cases hs
  | removeDirectory i removed =>
    obtain ⟨c, hc, hs⟩ := Option.bind_eq_some_iff.mp hs
    split at hs
    next m rest hpc =>
      by_cases hname : name = m
      · subst hname
        exact ⟨c, List.mem_of_getElem? hc, by rw [PurgeCall.deleting, hpc]; exact List.mem_cons_self⟩
      · split_ifs at hs
        · obtain rfl := Option.some.inj hs
          exact (hsame (congrArg Disk.logs (Function.update_of_ne hname ..))).elim
        · obtain rfl := Option.some.inj hs
          exact (hsame rfl).elim
    next => cases hs
  | resolveStore _ | transaction _ _ | flush _ _ | purgeStores _ _ _ | purge _ _ | removeClosed _ => cases ha

theorem Sparing.spares (h : Sparing y) (hs : y.step cfg a = some y') : Spares y a y' := by
  refine ⟨fun k b o seq ha ho hne => ?_, fun ha name seq hremoves k o hmem ho hopen hseq => ?_⟩
  · subst ha
    exact recorded_transaction hs ho hne
  · rcases h.apart name (removes_unlink hs ha hremoves) k o hmem ho with hclosing | hnone
    · exact absurd (hopen.symm.trans hclosing) Bool.false_ne_true
    · rw [hnone] at hseq
      cases hseq

end Spared

/-- In every run in which no store that is registered and not closing writes in a directory that a
phase 4 is about to delete, phase 4 and the purges of closing stores delete no log file that such a
store has written. -/
theorem destroy_spares {y₀ : StoreRegistry} {acts : List StoreAction} (h₀ : Initial y₀)
    (hok : Runs.Along (step cfg) WritesApart y₀ acts) :
    Runs.Along (step cfg) (fun y a => ∀ y', y.step cfg a = some y' → Spares y a y') y₀ acts := by
  refine hok.of_invariant (fun y a y' h hg hs => h.step hg hs) ?_ h₀.sparing
  intro y a h _ y' hs
  exact h.spares hs

section Sample

/-- A store of the name is there, or made, and a transaction of store `k` writes its one entry. -/
def resolvedWrite (k : ℕ) : List StoreAction :=
  .resolveStore "log" :: ([.newTransaction ⟨5⟩, .addLogEntry 0 (oneByteEntry 7), .commit 0 true, .writer {},
    .writer {}, .writer {}, .writer {},
    .writer { results := [.count 14] }, .writer {}, .writer {}, .writer {}, .commitResult 0 .ok 9,
    .close 0].map (StoreAction.transaction k))

/-- The stores are destroyed up to the end of phase 3. -/
def destroyed : List StoreAction :=
  [.purgeStores "" true 0, .purge 0 {}, .tryClose 0 {}, .tryClose 0 {}, .tryClose 0 {}, .tryClose 0 {}, .removeClosed 0]

end Sample

theorem destroy_spares_later :
    Runs.Along (step { maxFileSize := 200 }) (fun y a => ∀ y', y.step { maxFileSize := 200 } a =
      some y' → Spares y a y') {}
    (resolvedWrite 0 ++ destroyed ++ [.unlink 0 1, .removeDirectory 0 true] ++ resolvedWrite 1) :=
  destroy_spares ⟨rfl, fun e he => absurd he List.not_mem_nil⟩ (by decide +kernel)

/-- A store is made and written between phases 3 and 4, and its log file is deleted. -/
theorem destroyed_alive :
    ¬ ∀ (cfg : StoreConfig) (y₀ : StoreRegistry) (acts : List StoreAction), Initial y₀ →
      Runs.Along (step cfg) (fun y a => ∀ y', y.step cfg a = some y' → Spares y a y') y₀ acts := by
  intro h
  have halong := h { maxFileSize := 200 } {} (resolvedWrite 0 ++ destroyed ++ resolvedWrite 1 ++ [.unlink 0 1])
    ⟨rfl, fun e he => absurd he List.not_mem_nil⟩
  obtain ⟨-, hlast⟩ := halong.append (Runs.exec_final _ _ _ (by decide +kernel))
  have hspares := hlast.1 _ (Runs.step_final _ _ _ (by decide +kernel))
  set y := Runs.final (step { maxFileSize := 200 }) {} (resolvedWrite 0 ++ destroyed ++ resolvedWrite 1) with hy
  have hlive : (y.objects[1]?).any (fun o => !o.isClosing && decide (1 ∈ o.written)) = true := by
    rw [hy]
    decide +kernel
  obtain ⟨o, ho, hlive⟩ := (Option.any_eq_true ..).mp hlive
  rw [Bool.and_eq_true, Bool.not_eq_true', decide_eq_true_eq] at hlive
  refine hspares.spared rfl "log" 1 ⟨?_, ?_⟩ 1 o ?_ ho hlive.1 hlive.2
  all_goals
    rw [hy]
    decide +kernel

end StoreRegistry

end RocksdbJs
