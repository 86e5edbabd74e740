import RocksdbJs.Proofs.SnapshotReads
import RocksdbJs.Spec.StoreGets

/-! When `Store.get` comes to what `Store.getSync` returns. The read of the cache tier agrees wherever
it can answer, and a database falls back to the full read. A transaction throws instead, and a read
through a transaction's id is finished in the column family of the transaction itself. -/

namespace RocksdbJs
namespace Reads

variable {V : Type}

theorem ensureSnapshot_idem (t : TransactionHandle V) (c : Database V) :
    (t.ensureSnapshot c).ensureSnapshot c = t.ensureSnapshot c := by
  by_cases h : t.disableSnapshot = false ∧ t.snapshotSet = false
  · simp [TransactionHandle.ensureSnapshot, h]
  · simp only [TransactionHandle.ensureSnapshot, if_neg h]

namespace TransactionHandle

/-- A value of the transaction under the snapshot that its first read takes. -/
def valueAt (t : TransactionHandle V) (committed later : Database V) (column : ℕ) (key : Slice) : Option V :=
  (t.view later (t.ensureSnapshot committed).readSnapshot column).value key

/-- The transaction's own column family is the one asked for, or the two hold the same for the key. -/
def HoldsAlike (t : TransactionHandle V) (committed : Database V) (column : ℕ) (key : Slice) : Prop :=
  t.column = column ∨ (t.view committed (t.ensureSnapshot committed).readSnapshot t.column).value key =
    (t.view committed (t.ensureSnapshot committed).readSnapshot column).value key

/-- The transaction has written the key. -/
def wrote (t : TransactionHandle V) (column : ℕ) (key : Slice) : Bool := ((t.writes column).value key).isSome

section
variable (t : TransactionHandle V) (committed : Database V) (onDb : Option ℕ) (key : Slice) (tier cached : Bool)

theorem ensureSnapshot_state : (t.ensureSnapshot committed).state = t.state := by
  unfold ensureSnapshot
  split_ifs <;> rfl

theorem view_ensureSnapshot (later : Database V) (s : Option (Database V)) (column : ℕ) :
    (t.ensureSnapshot committed).view later s column = t.view later s column := by
  rw [view, view, (ensureSnapshot_rest t committed).1]

theorem getSync_ensured : (t.ensureSnapshot committed).getSync committed onDb key tier cached =
    (t.ensureSnapshot committed,
      if tier = true ∧ cached = false ∧ t.wrote (onDb.getD t.column) key = false then .incomplete
      else .value (t.valueAt committed committed (onDb.getD t.column) key)) := by
  simp only [getSync, ensureSnapshot_idem, (ensureSnapshot_rest t committed).1, (ensureSnapshot_rest t committed).2.1,
    view_ensureSnapshot,
    wrote, Option.isSome_eq_false_iff, Option.isNone_iff_eq_none, valueAt]
  split_ifs <;> rfl

theorem get_ensured : (t.ensureSnapshot committed).get committed onDb key cached =
    (t.ensureSnapshot committed,
      if cached = false ∧ t.wrote (onDb.getD t.column) key = false then
        (some ⟨onDb.getD t.column, key, (t.ensureSnapshot committed).readSnapshot⟩, .queued)
      else (none, .value (t.valueAt committed committed (onDb.getD t.column) key))) := by
  simp only [get, ensureSnapshot_idem, (ensureSnapshot_rest t committed).1, (ensureSnapshot_rest t committed).2.1,
    view_ensureSnapshot,
    wrote, Option.isSome_eq_false_iff, Option.isNone_iff_eq_none, valueAt]
  split_ifs <;> rfl

/-- Under a snapshot nothing that is committed later is seen. -/
theorem valueAt_of_snapshot {later : Database V}
    (h : (t.ensureSnapshot committed).readSnapshot.isSome ∨ later = committed) (column : ℕ) :
    t.valueAt committed later column key = t.valueAt committed committed column key := by
  rcases h with h | rfl
  · obtain ⟨snap, hsnap⟩ := Option.isSome_iff_exists.mp h
    simp only [valueAt, view, hsnap, Option.getD_some]
  · rfl

end

end TransactionHandle

namespace GetContext

/-- The read is under a snapshot. -/
def snapshotTaken (committed : Database V) : GetContext V → Prop
  | .databaseWith _ (some t) => (t.ensureSnapshot committed).readSnapshot.isSome
  | .transaction t => (t.ensureSnapshot committed).readSnapshot.isSome
  | _ => False

/-- The value that `get` comes to, whatever is committed meanwhile where a snapshot is taken, is the
one of `getSync`. -/
def AgreesWithSync (committed : Database V) (ctx : GetContext V) (key : Slice) (cached cachedThen : Bool) : Prop :=
  ∀ later, ctx.snapshotTaken committed ∨ later = committed → ctx.get committed later key cached cachedThen =
    ctx.getSync committed key

/-- A transaction answers from memory or from its writes; one that is named by its id does, or is asked for
its own column family or for what that holds too. -/
def Answerable (committed : Database V) (key : Slice) (cached cachedThen : Bool) : GetContext V → Prop
  | .transaction t => t.state = .pending → cached = true ∨ t.wrote t.column key = true
  | .databaseWith column (some t) =>
    t.state = .pending → cached = true ∨ cachedThen = true ∨ t.wrote column key = true ∨
      t.HoldsAlike committed column key
  | _ => True

theorem get_database (committed later : Database V) (column : ℕ) (key : Slice) (cached cachedThen : Bool)
    (h : later = committed) :
    (GetContext.database column).get committed later key cached cachedThen =
      (GetContext.database column).getSync committed key := by
  subst h
  cases cached <;> rfl

theorem getSync_databaseWith {committed : Database V} {column : ℕ} {t : TransactionHandle V}
    (hp : t.state = .pending) (key : Slice) :
    (GetContext.databaseWith column (some t)).getSync committed key =
      .ok (t.valueAt committed committed column key) := by
  simp [getSync, bindingGetSync, hp, TransactionHandle.getSync_ensured]

theorem getSync_transaction {committed : Database V} {t : TransactionHandle V} (hp : t.state = .pending) (key : Slice) :
    (GetContext.transaction t).getSync committed key = .ok (t.valueAt committed committed t.column key) := by
  simp [getSync, bindingGetSync, hp, TransactionHandle.getSync_ensured]

/-- The three reads of a pending transaction named by its id. -/
theorem get_databaseWith {committed : Database V} (later : Database V) {column : ℕ}
    {t : TransactionHandle V} (hp : t.state = .pending) (key : Slice) (cached cachedThen : Bool) :
    (GetContext.databaseWith column (some t)).get committed later key cached cachedThen =
      .ok (if cached = true ∨ cachedThen = true ∨ t.wrote column key =
        true then t.valueAt committed committed column key
        else t.valueAt committed later t.column key) := by
  have hp' : (t.ensureSnapshot committed).state = .pending := (t.ensureSnapshot_state committed).trans hp
  rw [get, bindingGetSync, if_neg (not_not.mpr hp), t.getSync_ensured]
  cases cached <;> cases hw : t.wrote column key <;> simp [hw]
  -- neither in memory nor written: the tier is asked once more, then a worker
  rw [bindingGet, if_neg (not_not.mpr hp'), t.get_ensured]
  cases cachedThen <;> simp [hw, QueuedGet.execute, TransactionHandle.executeGet, TransactionHandle.valueAt,
    TransactionHandle.view_ensureSnapshot, (ensureSnapshot_rest t committed).2.1]

theorem get_transaction {committed : Database V} (later : Database V) {t : TransactionHandle V}
    (hp : t.state = .pending) (key : Slice) (cached cachedThen : Bool) :
    (GetContext.transaction t).get committed later key cached cachedThen =
      if cached = true ∨ t.wrote t.column key = true then .ok (t.valueAt committed committed t.column key)
        else .error .incomplete := by
  rw [get, bindingGetSync, if_neg (not_not.mpr hp), t.getSync_ensured]
  cases cached <;> cases hw : t.wrote t.column key <;> simp [hw]

theorem agreesWithSync_databaseWith {committed : Database V} {column : ℕ} {t : TransactionHandle V}
    (hp : t.state = .pending) (key : Slice) (cached cachedThen : Bool) :
    (GetContext.databaseWith column (some t)).AgreesWithSync committed key cached cachedThen ↔
      (GetContext.databaseWith column (some t)).Answerable committed key cached cachedThen := by
  rw [AgreesWithSync, getSync_databaseWith hp]
  constructor
  · intro h _
    have heq := h committed (Or.inr rfl)
    rw [get_databaseWith committed hp] at heq
    by_cases hc : cached = true ∨ cachedThen = true ∨ t.wrote column key = true
    · tauto
    · rw [if_neg hc] at heq
      exact Or.inr (Or.inr (Or.inr (Or.inr (Except.ok.inj heq))))
  · intro h later hl
    rw [get_databaseWith later hp]
    split_ifs with hc
    · rfl
    · have hsame : t.valueAt committed committed t.column key = t.valueAt committed committed column key := by
        rcases h hp with h | h | h | h
        · exact absurd (Or.inl h) hc
        · exact absurd (Or.inr (Or.inl h)) hc
        · exact absurd (Or.inr (Or.inr h)) hc
        · rcases h with rfl | h
          · rfl
          · exact h
      rw [t.valueAt_of_snapshot committed key hl t.column, hsame]

theorem agreesWithSync_transaction {committed : Database V} {t : TransactionHandle V} (hp : t.state = .pending)
    (key : Slice) (cached cachedThen : Bool) :
    (GetContext.transaction t).AgreesWithSync committed key cached cachedThen ↔
      (GetContext.transaction t).Answerable committed key cached cachedThen := by
  rw [AgreesWithSync, getSync_transaction hp]
  constructor
  · intro h _
    have heq := h committed (Or.inr rfl)
    rw [get_transaction committed hp] at heq
    split_ifs at heq with hc
    exact hc
  · intro h later _
    rw [get_transaction later hp, if_pos (h hp)]

/-- A call that both refuse. -/
theorem agreesWithSync_of_threw {committed : Database V} {ctx : GetContext V} {key : Slice} {e : GetError}
    (h : ∀ tier cached, (ctx.bindingGetSync committed key tier cached).2 = .threw e) (cached cachedThen : Bool) :
    ctx.AgreesWithSync committed key cached cachedThen := by
  intro later _
  rw [get, getSync, h false false]
  have ht := h true cached
  cases hr : ctx.bindingGetSync committed key true cached with
  | mk ctx' r =>
    rw [hr] at ht
    obtain rfl : r = .threw e := ht
    rfl

/-- `get` comes to what `getSync` returns exactly when a transaction need not go past the cache, and one that is
named by its id need not leave the column family it was asked for. -/
theorem get_agrees_iff_answerable (committed : Database V) (ctx : GetContext V) (key : Slice)
    (cached cachedThen : Bool) :
    ctx.AgreesWithSync committed key cached cachedThen ↔ ctx.Answerable committed key cached cachedThen := by
  match ctx with
  | .database column =>
    refine iff_of_true (fun later hl => ?_) trivial
    exact get_database committed later column key cached cachedThen (hl.resolve_left id)
  | .databaseWith column none => exact iff_of_true (agreesWithSync_of_threw (fun _ _ => rfl) cached cachedThen) trivial
  | .databaseWith column (some t) =>
    by_cases hp : t.state = .pending
    · exact agreesWithSync_databaseWith hp key cached cachedThen
    · have hthrew : ∀ tier cached, ((GetContext.databaseWith column (some t)).bindingGetSync committed key tier
          cached).2 = .threw .notPending := by
        intro _ _
        rw [bindingGetSync, if_pos hp]
      exact iff_of_true (agreesWithSync_of_threw hthrew cached cachedThen) (fun h => absurd h hp)
  | .transaction t =>
    by_cases hp : t.state = .pending
    · exact agreesWithSync_transaction hp key cached cachedThen
    · have hthrew : ∀ tier cached, ((GetContext.transaction t).bindingGetSync committed key tier cached).2 =
          .threw .notPending := by
        intro _ _
        rw [bindingGetSync, if_pos hp]
      exact iff_of_true (agreesWithSync_of_threw hthrew cached cachedThen) (fun h => absurd h hp)

/-- A pending transaction on the column family with the key, whose block is not in memory: `get` throws where
`getSync` has the value. Through another column family's handle `get` finds what its own family has. -/
theorem get_incomplete_throws :
    ¬ (GetContext.transaction { column := 0 }).AgreesWithSync oneKey [1] false false
      ∧ (GetContext.transaction { column := 0 }).get oneKey oneKey [1] false false = .error .incomplete
      ∧ (GetContext.transaction { column := 0 }).getSync oneKey [1] = .ok (some 10)
      ∧ (GetContext.databaseWith 1 (some { column := 0 })).get oneKey oneKey [1] false false = .ok (some 10)
      ∧ (GetContext.databaseWith 1 (some { column := 0 })).getSync oneKey [1] = .ok none := by
  refine ⟨fun h => ?_, rfl, rfl, rfl, rfl⟩
  cases h oneKey (Or.inr rfl)

end GetContext

end Reads
end RocksdbJs
