import RocksdbJs.Sanity.TableSound

/-! What reads publish into the verification table, and what a verification may be trusted for. In
every run whose steps meet `Guarded`, a CAS installs only the latest committed version of the key
that was read, while no writer of the key is between its commit and the release of its intent.
Each condition of `Guarded` is on a step that the code can take and goes wrong at: a commit
without intents (the table came after the writes, or `cancelForDB` took the tracker of another
database's intents), an asynchronous read at an old snapshot or of an own write, a CAS over a
version that went and came back, a CAS while a `clear` is under way. -/

namespace RocksdbJs

namespace Access
variable {cfg : TableConfig} {y y' : Access} {a : AccessAction} {loc : Location} {v : ℕ}

/-- The step is one of a read of `loc` and puts the version `v` into the key's slot. -/
def Installs (cfg : TableConfig) (y : Access) (a : AccessAction) (y' : Access) (loc : Location) (v : ℕ) : Prop :=
  (∃ j action, a = .reader j action ∧ (y.readers[j]?).map Reader.loc = some loc) ∧ vtIsVersion v = true ∧
    y.shared.vt.slots (cfg.slotFor loc) ≠ .word v ∧ y'.shared.vt.slots (cfg.slotFor loc) = .word v

/-- A writer of the key has committed and not yet released its intent. -/
def InFlight (cfg : TableConfig) (y : Access) (loc : Location) : Prop :=
  ∃ u ∈ y.units, u.releases = true ∧ (∃ x ∈ u.writes, u.location x = loc) ∧ ∃ p ∈ u.intents, p.1 = cfg.slotFor loc

/-- The step publishes nothing but a latest version. -/
def PublishesLatest (cfg : TableConfig) (y : Access) (a : AccessAction) : Prop :=
  ∀ y', y.step cfg a = some y' → ∀ loc v, Installs cfg y a y' loc v → y.shared.latest loc = v ∧ ¬ InFlight cfg y loc

/-- No slot holds a version that is superseded for the key it was published for, unless a `clear`
of the key has yet to settle the slot. -/
def SlotsLatest (cfg : TableConfig) (y : Access) : Prop :=
  ∀ s v, y.shared.vt.slots s = .word v → vtIsVersion v = true →
    ∃ loc, y.shared.vt.publisher s = some loc ∧ cfg.slotFor loc = s ∧
      (y.shared.Clearing cfg loc ∨ y.shared.latest loc = v)

theorem Sound.not_inFlight (h : Sound cfg y) {o : ℕ}
    (hslot : y.shared.vt.slots (cfg.slotFor loc) = .word o) : ¬ InFlight cfg y loc := by
  rintro ⟨u, hu, hrel, -, p, hp, heq⟩
  have hlock := h.held.live u hu hrel p hp
  rw [heq, hslot] at hlock
  cases hlock

/-- The CAS of a read. -/
theorem Sound.installs_latest (h : Sound cfg y) {j : ℕ} {r : Reader} (hr : y.readers[j]? = some r)
    (hg : Unreturned cfg y.shared r) {v' : ℕ} (hpc : r.pc = .gated v' ∨ r.pc = .executed v')
    (hnot : y.shared.vt.slots (cfg.slotFor r.loc) ≠ .word v)
    (hnow : (r.populate cfg y.shared v').vt.slots (cfg.slotFor r.loc) = .word v) :
    y.shared.latest r.loc = v ∧ ¬ InFlight cfg y r.loc := by
  have hmem := List.mem_of_getElem? hr
  rcases populate_cases cfg y.shared r v' with heq | ⟨seen, o, hseen, hobs, -, -, hslot, heq⟩
  · rw [heq] at hnow
    exact absurd hnow hnot
  rw [heq] at hnow
  simp only [Function.update_self] at hnow
  obtain rfl := SlotValue.word.inj hnow
  have hun := undisturbed_of_cas hseen hobs hslot (h.turned.watched r hmem seen hseen) hg
  refine ⟨?_, h.not_inFlight hslot⟩
  have hholds := (h.carries r hmem hun).resolve_left (hg seen hseen (hslot.trans hobs.symm)).2
  rw [Reader.Holds] at hholds
  rcases hpc with hpc | hpc
  all_goals rw [hpc] at hholds
  all_goals exact hholds

theorem Sound.publishesLatest (h : Sound cfg y) (hg : Guarded cfg y a) : PublishesLatest cfg y a := by
  rintro y' hs loc v ⟨⟨j, action, rfl, hloc⟩, -, hnot, hnow⟩
  obtain ⟨r, hr, rfl⟩ := Option.map_eq_some_iff.mp hloc
  obtain ⟨r₁, hr₁, hs⟩ := Option.bind_eq_some_iff.mp hs
  obtain rfl := Option.some.inj (hr.symm.trans hr₁)
  obtain ⟨⟨w', us', r'⟩, hstep, rfl⟩ := Option.map_eq_some_iff.mp hs
  have hmove := stepReader_move hstep
  have hgr := hg.2 r hr
  cases hmove with
  | publish v' ha hpc =>
    subst ha
    exact h.installs_latest hr hgr (Or.inl hpc) hnot hnow
  | resolve v' ha hpc =>
    subst ha
    exact h.installs_latest hr hgr (Or.inr hpc) hnot hnow
  | load hpc =>
    rw [load_vt] at hnow
    exact absurd hnow hnot
  | hit hsync hpc hhits =>
    rw [load_vt] at hnow
    exact absurd hnow hnot
  | _ => exact absurd hnow hnot

/-- In every run whose steps meet the conditions, every publication is of the latest version, with
no writer of the key in flight, and at the end the slots hold latest versions. -/
theorem publishes_latest {y₀ : Access} {acts : List AccessAction} (h0 : Initial y₀)
    (hok : Runs.Along (step cfg) (Guarded cfg) y₀ acts) :
    Runs.Along (step cfg) (PublishesLatest cfg) y₀ acts ∧ ∀ y, Runs.exec (step cfg) y₀ acts = some y →
      SlotsLatest cfg y :=
  ⟨hok.of_invariant (fun _ _ _ h hg hs => Sound.step h hg hs) (fun _ _ h hg => Sound.publishesLatest h hg) h0.sound,
    fun _ hrun => (Sound.run h0 hok hrun).published.latest⟩

section Sample

/-- All keys share one slot. -/
def oneSlot : TableConfig := ⟨1, fun _ => 0, fun _ => Nat.zero_lt_one, fun _ _ => false⟩

/-- A value that carries a version. -/
def record (version : UInt8) : Bytes := [0, 0, 0, 0, 0, 0, 0, version]

def keyA : Location := ⟨1, 0, [1]⟩

def keyB : Location := ⟨1, 0, [2]⟩

/-- The time of every snapshot in the runs below. -/
def sampleTime : ℕ+ := 1

/-- The direct write of a key as the unit `i`. -/
def putKey (i : ℕ) (loc : Location) (version : UInt8) : List AccessAction :=
  [.direct loc.db true, .unit i (.put ⟨loc.cf, loc.key, some (record version)⟩ true true sampleTime),
    .unit i (.commit .ok), .unit i .release,
    .unit i .finish]

/-- The `getSync` of a key as the read `j`, up to its CAS. -/
def readKey (j : ℕ) (loc : Location) : List AccessAction :=
  [.call loc .databaseGetSync none none true, .reader j (.pin sampleTime), .reader j .load,
    .reader j (.read .ok sampleTime), .reader j .choose,
    .reader j .gateTime]

theorem initial_empty : Initial {} := ⟨rfl, rfl, rfl, rfl, rfl⟩

/-- A transaction writes a key, a read makes the table and reads the old value, the transaction commits. -/
def lateTable : List AccessAction :=
  [.direct 1 true, .unit 0 (.put ⟨0, [1], some (record 5)⟩ true true 1), .unit 0 (.commit .ok), .unit 0 .finish,
    .transaction 1 0 false false, .unit 1 (.put ⟨0, [1], some (record 7)⟩ true true 1),
    .call keyA .databaseGetSync none none true, .reader 0 (.pin 1), .reader 0 .load, .reader 0 (.read .ok 1),
    .unit 1 .beginCommit, .unit 1 (.commit .ok), .reader 0 .choose, .reader 0 .gateTime]

end Sample

/-- A write and a read of a key. -/
theorem publishes_latest_one :
    Runs.Along (step oneSlot) (PublishesLatest oneSlot) {}
        (.materialize :: putKey 0 keyA 5 ++ readKey 0 keyA ++ [.reader 0 .populate]) ∧
      ∀ y, Runs.exec (step oneSlot) {}
          (.materialize :: putKey 0 keyA 5 ++ readKey 0 keyA ++ [.reader 0 .populate]) = some y →
        SlotsLatest oneSlot y :=
  publishes_latest initial_empty (by decide +kernel)

/-- The read's CAS puts the version 5 into the slot of a key whose latest version is 7. -/
theorem late_table_stale :
    ¬ ∀ (cfg : TableConfig) (y₀ : Access) (acts : List AccessAction), Initial y₀ →
      Runs.Along (step cfg) (PublishesLatest cfg) y₀ acts ∧ ∀ y, Runs.exec (step cfg) y₀ acts = some y →
      SlotsLatest cfg y := by
  intro h
  have hrun := Runs.exec_final (step oneSlot) {} lateTable (by decide +kernel)
  obtain ⟨-, hlast, -⟩ := (h oneSlot {} (lateTable ++ [.reader 0 .populate]) initial_empty).1.append hrun
  have hstep := Runs.step_final (step oneSlot) (Runs.final (step oneSlot) {} lateTable)
    (.reader 0 .populate) (by decide +kernel)
  have hstale := (hlast _ hstep keyA 5 ⟨⟨0, .populate, rfl, by decide +kernel⟩, by decide +kernel, by
    decide +kernel, by decide +kernel⟩).1
  revert hstale
  decide +kernel

end Access

end RocksdbJs
