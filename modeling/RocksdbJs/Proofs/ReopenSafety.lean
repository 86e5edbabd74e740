import RocksdbJs.Lib.Runs
import RocksdbJs.Spec.Registry

/-! A path that is being closed. While every call of `OpenDB` finds its entry without a closing descriptor,
no database is opened before the close of the one before it has returned, and only one descriptor
is not closing. A call that finds a closing descriptor takes it out of the entry before it waits, and
the next look at the entry, its own or that of another call, finds nothing to wait for. -/

namespace RocksdbJs
namespace Registry
variable {y y' : Registry} {a : RegistryAction}

/-- No close is under way. -/
def Quiet (y : Registry) : Prop := ∀ x ∈ y.descriptors, x.closing = true → x.finished = true

/-- Only one descriptor is not closing. -/
def OneOpen (y : Registry) : Prop :=
  ∀ (i j : ℕ) (x x' : DBDescriptor), y.descriptors[i]? = some x → y.descriptors[j]? = some x' → x.closing = false →
    x'.closing = false → i = j

/-- A call of `OpenDB` finds no closing descriptor in its entry. -/
def FindsOpen (y : Registry) : RegistryAction → Prop
  | .openDB _ => ∀ d ∈ y.databases.bind y.descriptorAt, y.isClosing d = false
  | _ => True

instance (y : Registry) : ∀ a : RegistryAction, Decidable (y.FindsOpen a)
  | .openDB _ => inferInstanceAs (Decidable (∀ d ∈ y.databases.bind y.descriptorAt, y.isClosing d = false))
  | .wake _ _ | .retain _ | .release _ | .purge | .finishClose _ | .erase _ => inferInstanceAs (Decidable True)

/-- The descriptor has been closed. -/
def Closed (y : Registry) (d : ℕ) : Prop := ∀ x, y.descriptors[d]? = some x → x.closing = true ∧ x.finished = true

/-- The one descriptor that is not closed, which is in the entry: it is open, or one call is closing it. -/
structure Entered (y : Registry) (d : ℕ) (x : DBDescriptor) : Prop where
  found : y.descriptors[d]? = some x
  closed : ∀ d', d' ≠ d → y.Closed d'
  closers : (y.closers = [] ∧ x.closing = false) ∨
    ∃ c, y.closers = [c] ∧ c.descriptor = d ∧ x.closing = true ∧ (c.finished = true → x.finished = true)

/-- Nobody waits, and the registry holds every descriptor that is not closed. -/
def Settled (y : Registry) : Prop :=
  y.waiting = [] ∧
    match y.databases with
    | none => y.closers = [] ∧ ∀ d, y.Closed d
    | some e => ∃ d x, y.descriptorAt e = some d ∧ y.Entered d x

theorem settled_none (h : y.databases = none) : Settled y ↔ y.waiting = [] ∧ y.closers = [] ∧ ∀ d, y.Closed d := by
  rw [Settled, h]

theorem settled_some {e : ℕ} (h : y.databases = some e) :
    Settled y ↔ y.waiting = [] ∧ ∃ d x, y.descriptorAt e = some d ∧ y.Entered d x := by
  rw [Settled, h]

theorem settled_of_none (hdb : y.databases = none) (hwaiting : y.waiting = []) (hclosers : y.closers = [])
    (hclosed : ∀ d, y.Closed d) :
    Settled y := (settled_none hdb).mpr ⟨hwaiting, hclosers, hclosed⟩

theorem settled_of_some {e d : ℕ} {x : DBDescriptor} (hdb : y.databases = some e)
    (hwaiting : y.waiting = []) (hd : y.descriptorAt e = some d) (hentered : y.Entered d x) : Settled y :=
  (settled_some hdb).mpr ⟨hwaiting, d, x, hd, hentered⟩

theorem Settled.oneOpen (h : Settled y) : OneOpen y := by
  intro i j x x' hi hj hx hx'
  cases hdb : y.databases with
  | none =>
    obtain ⟨-, -, hclosed⟩ := (settled_none hdb).mp h
    exact absurd (hx.symm.trans (hclosed i x hi).1) Bool.false_ne_true
  | some e =>
    obtain ⟨-, d, z, -, hentered⟩ := (settled_some hdb).mp h
    have hone : ∀ {i x}, y.descriptors[i]? = some x → x.closing = false → i = d := by
      intro i x hi hx
      by_contra hne
      exact absurd (hx.symm.trans (hentered.closed i hne x hi).1) Bool.false_ne_true
    exact (hone hi hx).trans (hone hj hx').symm

/-- Where a database is opened, no entry was there. -/
theorem Settled.quiet (h : Settled y) (ha : y.runsOpen a = true) : Quiet y := by
  cases a with
  | openDB c =>
    rw [runsOpen, Option.isNone_iff_eq_none] at ha
    cases hdb : y.databases with
    | none =>
      obtain ⟨-, -, hclosed⟩ := (settled_none hdb).mp h
      intro x hx _
      obtain ⟨i, hi⟩ := List.mem_iff_getElem?.mp hx
      exact (hclosed i x hi).2
    | some e =>
      obtain ⟨-, d, z, hd, -⟩ := (settled_some hdb).mp h
      rw [hdb, Option.bind_some, hd] at ha
      cases ha
  | wake e c =>
    rw [runsOpen, h.1, Bool.and_eq_true, Bool.and_eq_true] at ha
    exact absurd (of_decide_eq_true ha.1.1) List.not_mem_nil
  | _ => cases ha

section Steps

/-- The one descriptor changes, and the calls that close it. -/
theorem Entered.modify {d : ℕ} {x : DBDescriptor} {f : DBDescriptor → DBDescriptor}
    {closers : List RegistryCloser} (h : y.Entered d x)
    (hclosers : (closers = [] ∧ (f x).closing = false) ∨ ∃ c, closers = [c] ∧ c.descriptor = d ∧
      (f x).closing = true ∧ (c.finished = true → (f x).finished = true)) :
    ({ y with descriptors := y.descriptors.modify d f, closers := closers } : Registry).Entered d (f x) := by
  refine ⟨?_, fun d' hne z hz => ?_, hclosers⟩
  · rw [List.getElem?_modify_eq, h.found]
    rfl
  · rw [List.getElem?_modify_ne f y.descriptors hne.symm] at hz
    exact h.closed d' hne z hz

theorem isClosing_eq {d : ℕ} {x : DBDescriptor} (h : y.descriptors[d]? = some x) : y.isClosing d = x.closing := by
  rw [isClosing, h]
  rfl

/-- A database is opened in a new entry, or the entry is taken away again. -/
theorem Settled.openFirst (h : Settled y) (hdb : y.databases = none) (c : OpenCall) : Settled (y.openDB c) := by
  obtain ⟨hwaiting, hclosers, hclosed⟩ := (settled_none hdb).mp h
  have hfind : y.findOrEmplace = (y.entries.length,
      { y with entries := y.entries ++ [{}], databases := some y.entries.length }) := by
    rw [findOrEmplace, hdb]
  have hnone : Registry.descriptorAt { y with entries := y.entries ++ [{}], databases := some y.entries.length }
      y.entries.length = none := by
    simp [descriptorAt]
  rw [openDB, hfind, tryOpen, hnone, proceed, hnone]
  simp only
  split_ifs
  · refine settled_of_some (e := y.entries.length) (d := y.descriptors.length) (x := { mode := c.mode }) rfl hwaiting ?_
      ⟨?_, ?_, Or.inl ⟨hclosers, rfl⟩⟩
    · simp [descriptorAt, setDescriptor]
    · exact List.getElem?_concat_length
    · intro d hne x hx
      rcases lt_or_gt_of_ne hne with hlt | hgt
      · exact hclosed d x ((List.getElem?_append_left hlt).symm.trans hx)
      · have hend : (y.descriptors ++ [({ mode := c.mode } : DBDescriptor)])[d]? = none :=
          List.getElem?_eq_none (by simpa using hgt)
        cases hend.symm.trans hx
  · exact settled_of_none (by simp [eraseEntry]) hwaiting hclosers hclosed

theorem Settled.openDB (h : Settled y) {c : OpenCall} (hg : y.FindsOpen (.openDB c)) : Settled (y.openDB c) := by
  cases hdb : y.databases with
  | none => exact h.openFirst hdb c
  | some e =>
    obtain ⟨hwaiting, d, x, hd, hentered⟩ := (settled_some hdb).mp h
    have hopen : y.isClosing d = false := hg d (by rw [hdb]; exact hd)
    have hfind : y.findOrEmplace = (e, y) := by rw [findOrEmplace, hdb]
    have htry : y.openDB c = y.proceed e c := by
      rw [Registry.openDB, hfind, tryOpen, hd]
      simp only [hopen, Bool.false_eq_true, if_false]
    rw [htry, proceed, hd]
    simp only
    split_ifs
    · exact settled_of_some hdb hwaiting hd (hentered.modify (f := fun x =>
        { x with handles := x.handles + 1 }) hentered.closers)
    · exact h

theorem Settled.handles (h : Settled y) (d : ℕ) {f : ℕ → ℕ} :
    Settled { y with descriptors := y.descriptors.modify d fun x => { x with handles := f x.handles } } := by
  have hclosed : ∀ {d'}, y.Closed d' →
      ({ y with descriptors := y.descriptors.modify d fun x => { x with handles := f x.handles } } :
      Registry).Closed d' := by
    intro d' hd' z hz
    rw [List.getElem?_modify] at hz
    obtain ⟨x, hx, hz⟩ := Option.map_eq_some_iff.mp hz
    obtain ⟨hc, hf⟩ := hd' x hx
    split_ifs at hz
    · subst hz
      exact ⟨hc, hf⟩
    · subst hz
      exact ⟨hc, hf⟩
  cases hdb : y.databases with
  | none =>
    obtain ⟨hwaiting, hclosers, hall⟩ := (settled_none hdb).mp h
    exact settled_of_none rfl hwaiting hclosers fun d' => hclosed (hall d')
  | some e =>
    obtain ⟨hwaiting, d₀, x, hd, hentered⟩ := (settled_some hdb).mp h
    refine settled_of_some (x := if d = d₀ then { x with handles := f x.handles } else x) (e := e) rfl hwaiting hd
      ⟨?_, fun d' hne => hclosed (hentered.closed d' hne), ?_⟩
    · rw [List.getElem?_modify, hentered.found]
      split_ifs
      all_goals rfl
    · split_ifs
      all_goals exact hentered.closers

theorem Settled.purge (h : Settled y) : Settled y.purgeIfUnreferenced := by
  rw [purgeIfUnreferenced]
  split
  · exact h
  next d hd =>
    split_ifs with hclaim
    · obtain ⟨e, hdb, hd⟩ := Option.bind_eq_some_iff.mp hd
      obtain ⟨hwaiting, d₀, x, hd₀, hentered⟩ := (settled_some hdb).mp h
      obtain rfl := Option.some.inj (hd.symm.trans hd₀)
      refine settled_of_some hdb hwaiting hd (hentered.modify (f := fun x => { x with closing := true }) (Or.inr ?_))
      rcases hentered.closers with ⟨hnone, -⟩ | ⟨c, -, -, hclosing, -⟩
      · exact ⟨{ descriptor := d }, by rw [hnone]; rfl, rfl, rfl, fun hf => by cases hf⟩
      · exact absurd (hclaim.2.symm.trans ((isClosing_eq hentered.found).trans hclosing)) Bool.false_ne_true
    · exact h

/-- A call that closes is the only one, and closes the descriptor in the entry. -/
theorem Settled.closer (h : Settled y) {c : RegistryCloser} (hc : c ∈ y.closers) :
    ∃ e x, y.databases = some e ∧ y.waiting = [] ∧ y.descriptorAt e = some c.descriptor ∧
      y.Entered c.descriptor x ∧ y.closers = [c] ∧
      x.closing = true ∧ (c.finished = true → x.finished = true) := by
  cases hdb : y.databases with
  | none =>
    obtain ⟨-, hnone, -⟩ := (settled_none hdb).mp h
    rw [hnone] at hc
    cases hc
  | some e =>
    obtain ⟨hwaiting, d, x, hd, hentered⟩ := (settled_some hdb).mp h
    rcases hentered.closers with ⟨hnone, -⟩ | ⟨c', hone, rfl, hclosing, hfinished⟩
    · rw [hnone] at hc
      cases hc
    · rw [hone] at hc
      obtain rfl := List.mem_singleton.mp hc
      exact ⟨e, x, rfl, hwaiting, hd, hentered, hone, hclosing, hfinished⟩

theorem Settled.step (h : Settled y) (hg : y.FindsOpen a) (hs : y.step a = some y') : Settled y' := by
  cases a with
  | openDB c =>
    obtain rfl := Option.some.inj hs
    exact h.openDB hg
  | wake e c =>
    rw [Registry.step] at hs
    split_ifs at hs with hwait
    rw [h.1] at hwait
    exact absurd hwait.1 List.not_mem_nil
  | retain d =>
    rw [Registry.step] at hs
    split_ifs at hs
    obtain rfl := Option.some.inj hs
    exact h.handles d (f := fun n => n + 1)
  | release d =>
    rw [Registry.step] at hs
    split_ifs at hs
    obtain rfl := Option.some.inj hs
    exact h.handles d (f := fun n => n - 1)
  | purge =>
    obtain rfl := Option.some.inj hs
    exact h.purge
  | finishClose c =>
    rw [Registry.step] at hs
    split_ifs at hs with hc
    obtain rfl := Option.some.inj hs
    obtain ⟨e, x, hdb, hwaiting, hd, hentered, hone, hclosing, -⟩ := h.closer hc.1
    refine settled_of_some hdb hwaiting hd (hentered.modify (f := fun x => { x with finished := true }) (Or.inr ?_))
    exact ⟨{ c with finished := true }, by rw [hone, List.erase_cons_head], rfl, hclosing, fun _ => rfl⟩
  | erase c =>
    rw [Registry.step] at hs
    split_ifs at hs with hc
    obtain rfl := Option.some.inj hs
    obtain ⟨e, x, hdb, hwaiting, hd, hentered, hone, hclosing, hfinished⟩ := h.closer hc.1
    have herase : y.purgeErase c = { y with closers := y.closers.erase c }.eraseEntry e := by
      rw [purgeErase]
      simp only [hdb]
      exact if_pos (Or.inr hd)
    rw [herase]
    refine settled_of_none (by simp [eraseEntry, hdb]) hwaiting (by simp [eraseEntry, hone]) fun d z hz => ?_
    by_cases hne : d = c.descriptor
    · subst hne
      obtain rfl := Option.some.inj (hentered.found.symm.trans hz)
      exact ⟨hclosing, hfinished hc.2⟩
    · exact hentered.closed d hne z hz

end Steps

/-- In every run in which no call of `OpenDB` comes to a closing descriptor, a database is opened only
when no close is under way, and only one descriptor is not closing. -/
theorem reopen_waits {acts : List RegistryAction} (hok : Runs.Along step FindsOpen {} acts) :
    Runs.Along step (fun y a => OneOpen y ∧ (y.runsOpen a = true → Quiet y)) {} acts ∧
      ∀ y, Runs.exec step {} acts = some y → OneOpen y := by
  have h0 : Settled {} := (settled_none rfl).mpr ⟨rfl, rfl, fun d x hx => by cases hx⟩
  exact ⟨hok.of_invariant (fun _ _ _ h hg hs => h.step hg hs) (fun _ _ h _ => ⟨h.oneOpen, fun ha => h.quiet ha⟩) h0,
    fun _ hrun => (Runs.exec_invariant (fun _ _ _ h hg hs => h.step hg hs) h0 hok hrun).oneOpen⟩

section Sample

/-- A database is opened twice, closed, and opened again. -/
def openedAgain : List RegistryAction :=
  [.openDB {}, .openDB {}, .release 0, .purge, .release 0, .purge, .finishClose ⟨0, false⟩,
    .erase ⟨0, true⟩, .openDB {}]

/-- Two calls come while it is closed. -/
def openedEarly : List RegistryAction := [.openDB {}, .release 0, .purge, .openDB {}, .openDB {}]

end Sample

theorem reopen_waits_again :
    Runs.Along step (fun y a => OneOpen y ∧ (y.runsOpen a = true → Quiet y)) {} openedAgain ∧
      ∀ y, Runs.exec step {} openedAgain = some y → OneOpen y :=
  reopen_waits (by decide +kernel)

/-- The second of them opens the database while the first descriptor is still closing. -/
theorem reopened_early :
    ¬ ∀ acts : List RegistryAction, Runs.Along step (fun y a => OneOpen y ∧ (y.runsOpen a = true → Quiet y)) {} acts ∧
      ∀ y, Runs.exec step {} acts = some y → OneOpen y := by
  intro h
  have hrun := Runs.exec_final step {} (openedEarly.take 4) (by decide +kernel)
  have halong : Runs.Along step (fun y a => OneOpen y ∧ (y.runsOpen a = true → Quiet y)) {}
      (openedEarly.take 4 ++ [.openDB {}]) :=
    (h openedEarly).1
  have hlast := (halong.append hrun).2.1.2 (by decide +kernel)
  have hquiet := hlast ⟨true, true, false, 0⟩ (by decide +kernel) rfl
  cases hquiet

end Registry

end RocksdbJs
