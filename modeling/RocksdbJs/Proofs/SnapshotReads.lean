import RocksdbJs.Spec.TransactionReads

/-! Reads of a transaction that has its snapshot. Point reads pass the snapshot on and see
it; iterators and counts pass none and see what is committed when they are made, and a
read finished by a worker looks into the transaction's own column family. So one view holds
as long as nobody commits into what a range covers and reads stay in that column family. -/

namespace RocksdbJs
namespace Reads

variable {V : Type}

namespace DBIteratorOptions

/-- The start key itself is left out. -/
def excludes (o : DBIteratorOptions) (k : Slice) : Bool := o.exclusiveStart && decide (o.startKey = some k)

/-- The keys a range is about. -/
def inRange (o : DBIteratorOptions) (k : Slice) : Bool := o.inBounds k && !o.excludes k

theorem start_le {o : DBIteratorOptions} {k s : Slice} (h : o.inBounds k = true)
    (hs : o.startKey = some s) : s ≤ k := by
  simp only [inBounds, hs, Option.all_some, Bool.and_eq_true, decide_eq_true_eq] at h
  exact h.1

end DBIteratorOptions

/-- What a range over a table is to yield. -/
def rangeItems (t : OrderedTable Slice V) (o : DBIteratorOptions) : List (Slice × Option V) :=
  (if o.reverse then (t.items o.inRange).reverse else t.items o.inRange).map fun e =>
    (e.1, if o.values then some e.2 else none)

theorem items_inRange (t : OrderedTable Slice V) (o : DBIteratorOptions) :
    t.items o.inRange = (t.items o.inBounds).filter fun e => !o.excludes e.1 := by
  apply OrderedTable.eq_of_ascending (t.items_sorted _) ((t.items_sorted _).filter _)
  rintro ⟨k, v⟩
  simp only [List.mem_filter, OrderedTable.mem_items, DBIteratorOptions.inRange, Bool.and_eq_true]
  tauto

/-- The entries of a table within the bounds: they ascend, from the start key on. -/
structure Bounded (o : DBIteratorOptions) (entries : List (Slice × V)) : Prop where
  ascending : entries.Pairwise (·.1 < ·.1)
  from_start : ∀ e ∈ entries, ∀ s, o.startKey = some s → s ≤ e.1

theorem items_bounded (t : OrderedTable Slice V) (o : DBIteratorOptions) : Bounded o (t.items o.inBounds) where
  ascending := t.items_sorted _
  from_start := fun _ he _ hs => DBIteratorOptions.start_le (OrderedTable.mem_items.mp he).1 hs

/-- Only the first entry can be the start key. -/
theorem Bounded.excluded_first {o : DBIteratorOptions} {entries : List (Slice × V)}
    (h : Bounded o entries) {i : ℕ} {e : Slice × V} (he : entries[i]? = some e)
    (hx : o.excludes e.1 = true) : i = 0 := by
  obtain ⟨hi, hget⟩ := List.getElem?_eq_some_iff.mp he
  have hstart : o.startKey = some e.1 := by
    simp only [DBIteratorOptions.excludes, Bool.and_eq_true, decide_eq_true_eq] at hx
    exact hx.2
  by_contra hne
  have hpos : 0 < entries.length := by omega
  have hlt := List.pairwise_iff_getElem.mp h.ascending 0 i hpos hi (by omega)
  rw [hget] at hlt
  exact absurd hlt (not_lt.mpr (h.from_start _ (List.getElem_mem hpos) _ hstart))

/-- Past the first entry nothing is excluded. -/
theorem Bounded.filter_drop_one {o : DBIteratorOptions} {entries : List (Slice × V)} (h : Bounded o entries) :
    (entries.drop 1).filter (fun e => !o.excludes e.1) = entries.drop 1 := by
  apply List.filter_eq_self.mpr
  intro e he
  obtain ⟨i, hi⟩ := List.mem_iff_getElem?.mp he
  rw [List.getElem?_drop] at hi
  cases hx : o.excludes e.1 with
  | false => rfl
  | true => exact absurd (h.excluded_first hi hx) (by omega)

namespace DBIteratorHandle

def shown (o : DBIteratorOptions) (e : Slice × V) : Slice × Option V := (e.1, if o.values then some e.2 else none)

theorem fetch_forward {o : DBIteratorOptions} (hf : o.reverse = false) (entries : List (Slice × V))
    (b : Bool) (n i : ℕ) :
    fetch n ⟨o, ⟨entries, some i⟩, b⟩ = ((entries.drop i).map (shown o)).take n := by
  induction n generalizing i with
  | zero => simp [fetch]
  | succ n ih =>
    cases he : entries[i]? with
    | none =>
      have hdrop : entries.drop i = [] := List.drop_eq_nil_of_le (List.getElem?_eq_none_iff.mp he)
      simp [fetch, next, RocksIterator.current?, he, hdrop]
    | some e =>
      obtain ⟨hi, hget⟩ := List.getElem?_eq_some_iff.mp he
      have hdrop : entries.drop i = e :: entries.drop (i + 1) := by rw [List.drop_eq_getElem_cons hi, hget]
      have hnext : (⟨o, ⟨entries, some i⟩, b⟩ : DBIteratorHandle V).next =
          (some (shown o e), ⟨o, ⟨entries, some (i + 1)⟩, b⟩) := by
        simp [next, RocksIterator.current?, he, hf, shown, RocksIterator.next]
      rw [fetch, hnext, hdrop]
      simp only [ih, List.map_cons, List.take_succ_cons]

theorem fetch_stopped (o : DBIteratorOptions) (entries : List (Slice × V)) (b : Bool) (n : ℕ) :
    fetch n ⟨o, ⟨entries, none⟩, b⟩ = [] := by
  cases n with
  | zero => rfl
  | succ n => rfl

theorem fetch_reverse {o : DBIteratorOptions} (hr : o.reverse = true) {entries : List (Slice × V)}
    (hb : Bounded o entries) (b : Bool) (n i : ℕ) (hi : i < entries.length) :
    fetch n ⟨o, ⟨entries, some i⟩, b⟩
      = ((((entries.take (i + 1)).reverse).filter fun e => !o.excludes e.1).map (shown o)).take n := by
  induction n generalizing i with
  | zero => simp [fetch]
  | succ n ih =>
    have he : entries[i]? = some entries[i] := List.getElem?_eq_getElem hi
    have htake : (entries.take (i + 1)).reverse = entries[i] :: (entries.take i).reverse := by
      rw [List.take_succ_eq_append_getElem hi, List.reverse_append]
      rfl
    cases hx : o.excludes entries[i].1 with
    | true =>
      -- the excluded start key is the first entry, so nothing lies before it
      obtain rfl := hb.excluded_first he hx
      have hstart : o.exclusiveStart = true ∧ o.startKey = some entries[0].1 := by
        simpa [DBIteratorOptions.excludes] using hx
      have hne : entries[0].1 ≠ [] := fun h0 => o.nonempty hr (h0 ▸ hstart.2)
      simp [fetch, next, RocksIterator.current?, he, hr, hstart, hne, RocksIterator.prev, RocksIterator.valid, htake,
        hx]
    | false =>
      have hkeep : ¬ (o.exclusiveStart = true ∧ o.startKey = some entries[i].1) := by
        simpa [DBIteratorOptions.excludes] using hx
      have hnext : (⟨o, ⟨entries, some i⟩, b⟩ : DBIteratorHandle V).next
          = (some (shown o entries[i]), ⟨o, ⟨entries, if i = 0 then none else some (i - 1)⟩, b⟩) := by
        have hcond : ¬ ((o.reverse = true ∧ o.exclusiveStart = true ∧ entries[i].1 ≠ [] ∧
          o.startKey = some entries[i].1)
            ∧ (⟨entries, some i⟩ : RocksIterator V).prev.valid = false) :=
          fun h => hkeep ⟨h.1.2.1, h.1.2.2.2⟩
        simp only [next, RocksIterator.current?, Option.bind_some, he]
        rw [if_neg hcond, if_pos hr]
        rfl
      rw [fetch, hnext, htake, List.filter_cons_of_pos (by rw [hx]; rfl)]
      simp only [List.map_cons, List.take_succ_cons, List.cons.injEq, true_and]
      by_cases h0 : i = 0
      · subst h0
        simp [fetch_stopped]
      · rw [if_neg h0, ih (i - 1) (by omega), Nat.sub_add_cancel (by omega)]

/-- Where the seek of a forward range ends. -/
theorem seek_forward {o : DBIteratorOptions} (hf : o.reverse = false) {entries : List (Slice × V)}
    (hb : Bounded o entries) :
    ∃ i, seek o ⟨entries, none⟩ = ⟨entries, some i⟩ ∧ entries.drop i = entries.filter fun e => !o.excludes e.1 := by
  cases entries with
  | nil =>
    exact ⟨0, by cases hs : o.startKey <;> simp [seek, hf, RocksIterator.seekToFirst, RocksIterator.current?, hs], rfl⟩
  | cons e rest =>
    have htail : rest.filter (fun e => !o.excludes e.1) = rest := hb.filter_drop_one
    cases hx : o.excludes e.1 with
    | true =>
      have hstart : o.exclusiveStart = true ∧ o.startKey = some e.1 := by simpa [DBIteratorOptions.excludes] using hx
      refine ⟨1, ?_, ?_⟩
      · simp [seek, hf, RocksIterator.seekToFirst, RocksIterator.current?, hstart, RocksIterator.next]
      · simp [hx, htail]
    | false =>
      have hkeep : o.exclusiveStart = true → o.startKey ≠ some e.1 := by simpa [DBIteratorOptions.excludes] using hx
      refine ⟨0, ?_, ?_⟩
      · cases hs : o.startKey with
        | none => simp [seek, hf, hs, RocksIterator.seekToFirst]
        | some s =>
          have hne : ¬ (o.exclusiveStart = true ∧ e.1 = s) := fun h => hkeep h.1 (h.2 ▸ hs)
          simp [seek, hf, hs, RocksIterator.seekToFirst, RocksIterator.current?, hne]
      · simp [hx, htail]

theorem fetch_seek (o : DBIteratorOptions) {entries : List (Slice × V)} (hb : Bounded o entries) (b : Bool) (n : ℕ) :
    fetch n ⟨o, seek o ⟨entries, none⟩, b⟩
      = ((if o.reverse then (entries.filter fun e => !o.excludes e.1).reverse
        else entries.filter fun e => !o.excludes e.1).map (shown o)).take n := by
  cases hr : o.reverse with
  | false =>
    obtain ⟨i, hseek, hdrop⟩ := seek_forward hr hb
    rw [hseek, fetch_forward hr, hdrop]
    rfl
  | true =>
    rw [if_pos rfl, ← List.filter_reverse]
    by_cases hnil : entries = []
    · subst hnil
      have hseek : seek o (⟨[], none⟩ : RocksIterator V) = ⟨[], some 0⟩ := by
        cases hs : o.startKey <;> simp [seek, hr, RocksIterator.seekToLast, RocksIterator.current?, hs]
      rw [hseek]
      cases n <;> simp [fetch, next, RocksIterator.current?]
    · have hpos : 0 < entries.length := List.length_pos_iff.mpr hnil
      have hlt : entries.length - 1 < entries.length := by omega
      have he : entries[entries.length - 1]? = some entries[entries.length - 1] := List.getElem?_eq_getElem hlt
      have hall : entries.take (entries.length - 1 + 1) = entries := by rw [Nat.sub_add_cancel hpos, List.take_length]
      have hfrom := fetch_reverse hr hb b n (entries.length - 1) hlt
      rw [hall] at hfrom
      cases hx : o.excludes entries[entries.length - 1].1 with
      | true =>
        -- the last entry is the first as well, and the seek steps off it
        have h0 := hb.excluded_first he hx
        obtain ⟨e, rfl⟩ := List.length_eq_one_iff.mp (show entries.length = 1 by omega)
        have hstart : o.exclusiveStart = true ∧ o.startKey = some e.1 := by simpa [DBIteratorOptions.excludes] using hx
        have hseek : seek o ⟨[e], none⟩ = ⟨[e], none⟩ := by
          simp [seek, hr, RocksIterator.seekToLast, RocksIterator.current?, hstart, RocksIterator.prev]
        rw [hseek, fetch_stopped]
        have hx' : o.excludes e.1 = true := hx
        simp [hx']
      | false =>
        have hkeep : o.exclusiveStart = true → o.startKey ≠ some entries[entries.length - 1].1 := by
          simpa [DBIteratorOptions.excludes] using hx
        have hseek : seek o ⟨entries, none⟩ = ⟨entries, some (entries.length - 1)⟩ := by
          cases hs : o.startKey with
          | none => simp [seek, hr, hs, RocksIterator.seekToLast]
          | some s =>
            have hne : ¬ (o.exclusiveStart = true ∧ entries[entries.length - 1].1 = s) := fun h => hkeep h.1 (h.2 ▸ hs)
            simp only [seek, hr, hs, if_true, RocksIterator.seekToLast, RocksIterator.current?, Option.bind_some, he]
            rw [if_neg hne]
        rw [hseek, hfrom]

end DBIteratorHandle

/-- The loop of a count takes as many steps as entries are left. -/
theorem count_from (entries : List (Slice × V)) (fuel i : ℕ) (hf : entries.length < fuel + i) :
    (⟨entries, some i⟩ : RocksIterator V).count fuel = (entries.drop i).length := by
  induction fuel generalizing i with
  | zero =>
    rw [List.length_drop, RocksIterator.count]
    omega
  | succ fuel ih =>
    rw [List.length_drop, RocksIterator.count]
    cases he : entries[i]? with
    | none =>
      have hlen := List.getElem?_eq_none_iff.mp he
      simp only [RocksIterator.valid, RocksIterator.current?, Option.bind_some, he, Option.isSome_none,
        Bool.false_eq_true, if_false]
      omega
    | some e =>
      have hi := (List.getElem?_eq_some_iff.mp he).1
      have hnext : (⟨entries, some i⟩ : RocksIterator V).next = ⟨entries, some (i + 1)⟩ := rfl
      simp only [RocksIterator.valid, RocksIterator.current?, Option.bind_some, he, Option.isSome_some, if_true]
      rw [hnext, ih (i + 1) (by omega), List.length_drop]
      omega

/-- A forward count is the number of entries of the range. -/
theorem count_seek {o : DBIteratorOptions} (hf : o.reverse = false) (table : OrderedTable Slice V) :
    (DBIteratorHandle.seek o ⟨table.items o.inBounds, none⟩).count
      ((DBIteratorHandle.seek o ⟨table.items o.inBounds, none⟩).entries.length + 1)
      = (rangeItems table o).length := by
  obtain ⟨i, hseek, hdrop⟩ := DBIteratorHandle.seek_forward hf (items_bounded table o)
  have hfuel : (table.items o.inBounds).length < (table.items o.inBounds).length + 1 + i := by omega
  rw [hseek, count_from _ _ _ hfuel, hdrop, rangeItems, items_inRange, List.length_map, hf]
  rfl

namespace TransactionHandle

variable {t : TransactionHandle V} {committed : Database V} {o : DBIteratorOptions}

/-- A range read through the transaction is one of what is committed, under its own writes. -/
theorem fetch_newIterator (n : ℕ) :
    DBIteratorHandle.fetch n (t.newIterator committed o) = (rangeItems (t.view committed none t.column) o).take n := by
  rw [newIterator, DBIteratorHandle.fetch_seek o (items_bounded _ o), rangeItems, items_inRange]
  rfl

theorem getCount_eq (hf : o.reverse = false) :
    t.getCount committed o = (rangeItems (t.view committed none t.column) o).length :=
  count_seek hf (t.view committed none t.column)

/-- A view is told by the values of the keys that are not written in the transaction. -/
theorem rangeItems_view_congr {a b : Option (Database V)} {c : ℕ}
    (h : ∀ k, o.inRange k = true → (t.writes c).value k = none → (a.getD committed c).value k =
      (b.getD committed c).value k) :
    rangeItems (t.view committed a c) o = rangeItems (t.view committed b c) o := by
  have hitems : (t.view committed a c).items o.inRange = (t.view committed b c).items o.inRange := by
    apply OrderedTable.items_congr
    intro k hk
    cases hw : (t.writes c).value k with
    | some v => simp [view, hw]
    | none => simpa [view, hw] using h k hk hw
  rw [rangeItems, rangeItems, hitems]

end TransactionHandle

/-- The snapshot's data under the transaction's own writes. -/
def TransactionHandle.pinnedView (t : TransactionHandle V) (snap : Database V) (c : ℕ) : OrderedTable Slice V :=
  (snap c).overlay (t.writes c)

/-- The answer of a read is the one of the snapshot under the transaction's writes. -/
def Agrees (w : World V) (snap : Database V) (a : Answer V) : Event V → Prop
  | .getSync onDb k blockCacheTier _ =>
    a = .value ((w.handle.pinnedView snap (onDb.getD w.handle.column)).value k) ∨
      (blockCacheTier = true ∧ a = .incomplete)
  | .get onDb k _ => a = .value ((w.handle.pinnedView snap (onDb.getD w.handle.column)).value k) ∨ a = .queued
  | .executeGet i => ∀ g, w.gets[i]? = some g → a = .value ((w.handle.pinnedView snap g.asked).value g.key)
  | .getCount onDb o => a = .count (rangeItems (w.handle.pinnedView snap (onDb.getD w.handle.column)) o).length
  | .newIterator o =>
    ∃ h, a = .iterator h ∧ ∀ n, h.fetch n = (rangeItems (w.handle.pinnedView snap w.handle.column) o).take n
  | .next i => ∀ h k x, w.iterators[i]? = some h → h.pinned = true → a = .item (some (k, x)) →
    ∃ v, (w.handle.pinnedView snap w.handle.column).value k = some v ∧ x = if h.options.values then some v else none
  | _ => True

/-- A call of `get` or `getSync`. -/
def Event.pointRead : Event V → Bool
  | .getSync .. => true
  | .get .. => true
  | _ => false

/-- A first point read takes the snapshot, no later call but a reset moves it, and every
read made with it agrees with it. -/
structure SeesSnapshot (w : World V) (e : Event V) : Prop where
  pins : ∀ w' a, w.perform e = some (w', a) → e.pointRead = true → w.handle.disableSnapshot = false →
    w'.handle.snapshotSet = true ∧ (w.handle.snapshotSet = false → w'.handle.snapshot = some w.committed)
  keeps : ∀ w' a, w.perform e = some (w', a) → w.handle.snapshotSet = true → w'.handle.snapshotSet = true →
    w'.handle.snapshot = w.handle.snapshot
  agrees : ∀ w' a snap, w.perform e = some (w', a) → w'.handle.snapshotSet = true →
    w'.handle.snapshot = some snap → Agrees w snap a e

/-- Within the range, what is committed of the keys the transaction has not written is
still what the snapshot holds. -/
def StillCommitted (w : World V) (o : DBIteratorOptions) : Prop :=
  ∀ snap, w.handle.snapshotSet = true → w.handle.snapshot = some snap → ∀ k, o.inRange k = true →
    (w.handle.writes w.handle.column).value k = none → (w.committed w.handle.column).value k =
      (snap w.handle.column).value k

/-- Nobody has committed into what the read covers, and it stays in the transaction's column family. -/
def Unmoved (w : World V) : Event V → Prop
  | .executeGet i => ∀ g, w.gets[i]? = some g → g.asked = w.handle.column
  | .getCount onDb o => onDb.getD w.handle.column = w.handle.column ∧ StillCommitted w o
  | .newIterator o => StillCommitted w o
  | _ => True

/-- The snapshot is there once it is set, queued reads carry it, and the iterators made
with it hold its entries. -/
structure Pinned (w : World V) : Prop where
  enabled : w.handle.disableSnapshot = false
  snapshot : w.handle.snapshotSet = true → ∃ snap, w.handle.snapshot = some snap
  gets : ∀ g ∈ w.gets, w.handle.snapshotSet = true ∧ g.snapshot = w.handle.snapshot
  iterators : ∀ h ∈ w.iterators, h.pinned = true → w.handle.snapshotSet = true ∧ ∀ snap, w.handle.snapshot = some snap →
    ∀ n, ∀ x ∈ h.fetch n, x ∈ rangeItems (w.handle.pinnedView snap w.handle.column) h.options

theorem ensureSnapshot_set {t : TransactionHandle V} (c : Database V) (h : t.snapshotSet = true) :
    t.ensureSnapshot c = t := by
  rw [TransactionHandle.ensureSnapshot, if_neg (fun hn => absurd (hn.2.symm.trans h) Bool.false_ne_true)]

theorem ensureSnapshot_unset {t : TransactionHandle V} (c : Database V) (he : t.disableSnapshot = false)
    (h : t.snapshotSet = false) :
    t.ensureSnapshot c = { t with snapshotSet := true, snapshot := some c } := by
  rw [TransactionHandle.ensureSnapshot, if_pos ⟨he, h⟩]

/-- Taking the snapshot leaves the rest of the handle alone. -/
theorem ensureSnapshot_rest (t : TransactionHandle V) (c : Database V) :
    (t.ensureSnapshot c).writes = t.writes ∧ (t.ensureSnapshot c).column = t.column
      ∧ (t.ensureSnapshot c).disableSnapshot = t.disableSnapshot := by
  rw [TransactionHandle.ensureSnapshot]
  split_ifs
  · exact ⟨rfl, rfl, rfl⟩
  · exact ⟨rfl, rfl, rfl⟩

theorem ensureSnapshot_pins {t : TransactionHandle V} (c : Database V) (he : t.disableSnapshot = false) :
    (t.ensureSnapshot c).snapshotSet = true ∧ (t.snapshotSet = false → (t.ensureSnapshot c).snapshot = some c) := by
  cases hs : t.snapshotSet with
  | true =>
    rw [ensureSnapshot_set c hs]
    exact ⟨hs, fun h => absurd h.symm Bool.false_ne_true⟩
  | false =>
    rw [ensureSnapshot_unset c he hs]
    exact ⟨rfl, fun _ => rfl⟩

/-- What is left of the invariant when the snapshot may just have been taken. -/
theorem Pinned.ensureSnapshot {w : World V} (h : Pinned w) :
    Pinned { w with handle := w.handle.ensureSnapshot w.committed } := by
  cases hs : w.handle.snapshotSet with
  | true =>
    rw [ensureSnapshot_set w.committed hs]
    exact h
  | false =>
    rw [ensureSnapshot_unset w.committed h.enabled hs]
    refine ⟨h.enabled, fun _ => ⟨_, rfl⟩, fun g hg => ?_, fun i hi hp => ?_⟩
    · exact absurd (hs.symm.trans (h.gets g hg).1) Bool.false_ne_true
    · exact absurd (hs.symm.trans (h.iterators i hi hp).1) Bool.false_ne_true

theorem TransactionHandle.write_snapshot (t : TransactionHandle V) (c : Database V) (p : Bool)
    (onDb : Option ℕ) (k : Slice) (v : Option V) (ok : Bool) :
    (t.write c p onDb k v ok).snapshotSet = (if p then t.ensureSnapshot c else t).snapshotSet
      ∧ (t.write c p onDb k v ok).snapshot = (if p then t.ensureSnapshot c else t).snapshot
      ∧ (t.write c p onDb k v ok).disableSnapshot = (if p then t.ensureSnapshot c else t).disableSnapshot := by
  cases ok
  · exact ⟨rfl, rfl, rfl⟩
  · exact ⟨rfl, rfl, rfl⟩

theorem Pinned.write {w : World V} (h : Pinned w) (onDb : Option ℕ) (k : Slice) (v : Option V) (ok : Bool) :
    Pinned (w.write onDb k v ok) := by
  obtain ⟨hset, hsnap, hdis⟩ := w.handle.write_snapshot w.committed w.pessimistic onDb k v ok
  have hpin : Pinned { w with handle := if w.pessimistic then w.handle.ensureSnapshot w.committed else w.handle } := by
    by_cases hp : w.pessimistic = true
    · rw [if_pos hp]
      exact h.ensureSnapshot
    · rw [if_neg hp]
      exact h
  refine ⟨hdis.trans hpin.enabled, fun hs => ?_, fun g hg => ?_, fun i hi => by cases hi⟩
  · obtain ⟨snap, hs'⟩ := hpin.snapshot (hset.symm.trans hs)
    exact ⟨snap, hsnap.trans hs'⟩
  · exact ⟨hset.trans (hpin.gets g hg).1, (hpin.gets g hg).2.trans hsnap.symm⟩

/-- What `next` leaves to be fetched was to be fetched before. -/
theorem fetch_next {h : DBIteratorHandle V} {n : ℕ} {x : Slice × Option V} (hx : x ∈ h.next.2.fetch n) :
    x ∈ h.fetch (n + 1) := by
  rw [DBIteratorHandle.fetch]
  cases hn : h.next with
  | mk y h' =>
    rw [hn] at hx
    cases y with
    | some y => exact List.mem_cons_of_mem _ hx
    | none =>
      -- a `next` that ends the range leaves the iterator off every entry
      have hoff : h'.iterator.current? = none := by
        unfold DBIteratorHandle.next at hn
        split at hn
        · next hc =>
          obtain ⟨-, rfl⟩ := Prod.mk.inj hn
          exact hc
        · split at hn
          · next hc =>
            obtain ⟨-, rfl⟩ := Prod.mk.inj hn
            simpa [RocksIterator.valid] using hc.2
          · cases hn
      cases n with
      | zero => cases hx
      | succ n => simp [DBIteratorHandle.fetch, DBIteratorHandle.next, hoff] at hx

theorem next_options (h : DBIteratorHandle V) : h.next.2.options = h.options ∧ h.next.2.pinned = h.pinned := by
  unfold DBIteratorHandle.next
  split
  · exact ⟨rfl, rfl⟩
  · split
    · exact ⟨rfl, rfl⟩
    · exact ⟨rfl, rfl⟩

theorem StillCommitted.rangeItems_eq {w : World V} {o : DBIteratorOptions} (h : StillCommitted w o) {snap : Database V}
    (hs : w.handle.snapshotSet = true) (hsnap : w.handle.snapshot = some snap) :
    rangeItems (w.handle.view w.committed none w.handle.column) o = rangeItems
      (w.handle.pinnedView snap w.handle.column) o :=
  TransactionHandle.rangeItems_view_congr (b := some snap) fun k hk hw => h snap hs hsnap k hk hw

theorem getSync_handle (t : TransactionHandle V) (c : Database V) (onDb : Option ℕ) (k : Slice) (tier cached : Bool) :
    (t.getSync c onDb k tier cached).1 = t.ensureSnapshot c := by
  unfold TransactionHandle.getSync
  dsimp only
  split_ifs
  · rfl
  · rfl

theorem get_handle (t : TransactionHandle V) (c : Database V) (onDb : Option ℕ) (k : Slice) (cached : Bool) :
    (t.get c onDb k cached).1 = t.ensureSnapshot c := by
  unfold TransactionHandle.get
  dsimp only
  split_ifs
  · rfl
  · rfl

/-- A queued read carries the snapshot of the call. -/
theorem Pinned.get {w : World V} (h : Pinned w) (onDb : Option ℕ) (k : Slice) (cached : Bool) :
    Pinned { w with handle := (w.handle.get w.committed onDb k cached).1,
                    gets := w.gets ++ (w.handle.get w.committed onDb k cached).2.1.toList } := by
  have hpin := h.ensureSnapshot
  have hset := (ensureSnapshot_pins w.committed h.enabled).1
  unfold TransactionHandle.get
  dsimp only
  split_ifs with hc
  · refine ⟨hpin.enabled, hpin.snapshot, fun g hg => ?_, hpin.iterators⟩
    rcases List.mem_append.mp hg with hg | hg
    · exact hpin.gets g hg
    · obtain rfl : g = _ := by simpa using hg
      exact ⟨hset, if_pos hset⟩
  · simpa using hpin

theorem Pinned.newIterator {w : World V} (h : Pinned w) {o : DBIteratorOptions} (hstill : StillCommitted w o) :
    Pinned { w with iterators := w.iterators ++ [w.handle.newIterator w.committed o] } := by
  refine ⟨h.enabled, h.snapshot, h.gets, fun i hi hp => ?_⟩
  rcases List.mem_append.mp hi with hi | hi
  · exact h.iterators i hi hp
  · obtain rfl : i = _ := by simpa using hi
    refine ⟨hp, fun snap hsnap n x hx => ?_⟩
    rw [TransactionHandle.fetch_newIterator, hstill.rangeItems_eq hp hsnap] at hx
    exact List.mem_of_mem_take hx

theorem Pinned.next {w : World V} (h : Pinned w) {i : ℕ} {it : DBIteratorHandle V} (hi : w.iterators[i]? = some it) :
    Pinned { w with iterators := w.iterators.set i it.next.2 } := by
  refine ⟨h.enabled, h.snapshot, h.gets, fun j hj hp => ?_⟩
  rcases List.mem_or_eq_of_mem_set hj with hj | rfl
  · exact h.iterators j hj hp
  · obtain ⟨hopt, hpin⟩ := next_options it
    obtain ⟨hset, hall⟩ := h.iterators it (List.mem_of_getElem? hi) (hpin.symm.trans hp)
    refine ⟨hset, fun snap hsnap n x hx => ?_⟩
    rw [hopt]
    exact hall snap hsnap (n + 1) x (fetch_next hx)

theorem call_of_perform {w : World V} {e : Event V} {r : World V × Answer V} (h : w.perform e = some r) :
    w.call e = some r := by
  unfold World.perform at h
  split_ifs at h
  exact h

theorem Pinned.step {w w' : World V} {e : Event V} (h : Pinned w) (hok : Unmoved w e)
    (hstep : w.step e = some w') : Pinned w' := by
  obtain ⟨⟨_, a⟩, hperf, rfl⟩ := Option.map_eq_some_iff.mp hstep
  have hcall := call_of_perform hperf
  cases e with
  | commitOther batch =>
    obtain ⟨rfl, -⟩ := Prod.mk.inj (Option.some.inj hcall)
    exact ⟨h.enabled, h.snapshot, h.gets, h.iterators⟩
  | putSync onDb k v ok =>
    obtain ⟨rfl, -⟩ := Prod.mk.inj (Option.some.inj hcall)
    exact h.write onDb k (some v) ok
  | removeSync onDb k ok =>
    obtain ⟨rfl, -⟩ := Prod.mk.inj (Option.some.inj hcall)
    exact h.write onDb k none ok
  | getSync onDb k tier cached =>
    obtain ⟨rfl, -⟩ := Prod.mk.inj (Option.some.inj hcall)
    rw [getSync_handle]
    exact h.ensureSnapshot
  | get onDb k cached =>
    obtain ⟨rfl, -⟩ := Prod.mk.inj (Option.some.inj hcall)
    exact h.get onDb k cached
  | executeGet i =>
    obtain ⟨g, hg, he⟩ := Option.map_eq_some_iff.mp hcall
    obtain ⟨rfl, -⟩ := Prod.mk.inj he
    exact ⟨h.enabled, h.snapshot, fun g hg => h.gets g (List.mem_of_mem_eraseIdx hg), h.iterators⟩
  | getCount onDb o =>
    rw [World.call] at hcall
    split_ifs at hcall
    obtain ⟨rfl, -⟩ := Prod.mk.inj (Option.some.inj hcall)
    exact h
  | newIterator o =>
    obtain ⟨rfl, -⟩ := Prod.mk.inj (Option.some.inj hcall)
    exact h.newIterator hok
  | next i =>
    obtain ⟨it, hi, he⟩ := Option.map_eq_some_iff.mp hcall
    obtain ⟨rfl, -⟩ := Prod.mk.inj he
    exact h.next hi
  | returnIterator i =>
    obtain ⟨rfl, -⟩ := Prod.mk.inj (Option.some.inj hcall)
    exact ⟨h.enabled, h.snapshot, h.gets, fun j hj => h.iterators j (List.mem_of_mem_eraseIdx hj)⟩
  | reset =>
    obtain ⟨rfl, -⟩ := Prod.mk.inj (Option.some.inj hcall)
    exact ⟨h.enabled, fun hs => absurd hs Bool.false_ne_true, fun g hg => (by cases hg), fun j hj => (by cases hj)⟩
  | finish st =>
    obtain ⟨rfl, -⟩ := Prod.mk.inj (Option.some.inj hcall)
    exact ⟨h.enabled, h.snapshot, fun g hg => (by cases hg), fun j hj => (by cases hj)⟩

theorem view_readSnapshot {t : TransactionHandle V} {snap : Database V} (hs : t.snapshotSet = true)
    (hsnap : t.snapshot = some snap) (committed : Database V) (c : ℕ) :
    t.view committed t.readSnapshot c = t.pinnedView snap c := by
  rw [TransactionHandle.readSnapshot, if_pos hs, hsnap]
  rfl

theorem pinnedView_ensureSnapshot (t : TransactionHandle V) (committed snap : Database V) (c : ℕ) :
    (t.ensureSnapshot committed).pinnedView snap c = t.pinnedView snap c := by
  rw [TransactionHandle.pinnedView, TransactionHandle.pinnedView, (ensureSnapshot_rest t committed).1]

theorem agrees_getSync {t : TransactionHandle V} {committed snap : Database V} (onDb : Option ℕ)
    (k : Slice) (tier cached : Bool) (hs : (t.ensureSnapshot committed).snapshotSet = true)
    (hsnap : (t.ensureSnapshot committed).snapshot = some snap) :
    (t.getSync committed onDb k tier cached).2 = .value ((t.pinnedView snap (onDb.getD t.column)).value k)
      ∨ (tier = true ∧ (t.getSync committed onDb k tier cached).2 = .incomplete) := by
  unfold TransactionHandle.getSync
  dsimp only
  rw [view_readSnapshot hs hsnap, pinnedView_ensureSnapshot, (ensureSnapshot_rest t committed).2.1]
  split_ifs with hc
  · exact Or.inr ⟨hc.1, rfl⟩
  · exact Or.inl rfl

theorem agrees_get {t : TransactionHandle V} {committed snap : Database V} (onDb : Option ℕ) (k : Slice) (cached : Bool)
    (hs : (t.ensureSnapshot committed).snapshotSet = true) (hsnap : (t.ensureSnapshot committed).snapshot = some snap) :
    (t.get committed onDb k cached).2.2 = .value ((t.pinnedView snap (onDb.getD t.column)).value k)
      ∨ (t.get committed onDb k cached).2.2 = .queued := by
  unfold TransactionHandle.get
  dsimp only
  rw [view_readSnapshot hs hsnap, pinnedView_ensureSnapshot, (ensureSnapshot_rest t committed).2.1]
  split_ifs with hc
  · exact Or.inr rfl
  · exact Or.inl rfl

/-- An entry of a range is one of the table. -/
theorem value_of_mem_rangeItems {t : OrderedTable Slice V} {o : DBIteratorOptions} {k : Slice} {x : Option V}
    (h : (k, x) ∈ rangeItems t o) : ∃ v, t.value k = some v ∧ x = if o.values then some v else none := by
  obtain ⟨⟨j, v⟩, hmem, he⟩ := List.mem_map.mp h
  obtain ⟨rfl, rfl⟩ := Prod.mk.inj he
  have hitem : (j, v) ∈ t.items o.inRange := by
    split_ifs at hmem
    · exact List.mem_reverse.mp hmem
    · exact hmem
  exact ⟨v, (OrderedTable.mem_items.mp hitem).2, rfl⟩

theorem Pinned.agrees {w w' : World V} {e : Event V} {a : Answer V} {snap : Database V} (h : Pinned w)
    (hok : Unmoved w e) (hcall : w.call e = some (w', a)) (hs : w'.handle.snapshotSet = true)
    (hsnap : w'.handle.snapshot = some snap) :
    Agrees w snap a e := by
  cases e with
  | getSync onDb k tier cached =>
    obtain ⟨rfl, rfl⟩ := Prod.mk.inj (Option.some.inj hcall)
    dsimp only at hs hsnap
    rw [getSync_handle] at hs hsnap
    exact agrees_getSync onDb k tier cached hs hsnap
  | get onDb k cached =>
    obtain ⟨rfl, rfl⟩ := Prod.mk.inj (Option.some.inj hcall)
    dsimp only at hs hsnap
    rw [get_handle] at hs hsnap
    exact agrees_get onDb k cached hs hsnap
  | executeGet i =>
    obtain ⟨g, hg, he⟩ := Option.map_eq_some_iff.mp hcall
    obtain ⟨rfl, rfl⟩ := Prod.mk.inj he
    intro g' hg'
    obtain rfl : g = g' := Option.some.inj (hg.symm.trans hg')
    have hcarried : g.snapshot = some snap := (h.gets g (List.mem_of_getElem? hg)).2.trans hsnap
    rw [hok g hg, TransactionHandle.executeGet, hcarried]
    rfl
  | getCount onDb o =>
    rw [World.call] at hcall
    split_ifs at hcall with hr
    obtain ⟨rfl, rfl⟩ := Prod.mk.inj (Option.some.inj hcall)
    have hf : o.reverse = false := by simpa using hr
    rw [Agrees, TransactionHandle.getCount_eq hf, hok.2.rangeItems_eq hs hsnap, hok.1]
  | newIterator o =>
    obtain ⟨rfl, rfl⟩ := Prod.mk.inj (Option.some.inj hcall)
    refine ⟨_, rfl, fun n => ?_⟩
    rw [TransactionHandle.fetch_newIterator, StillCommitted.rangeItems_eq hok hs hsnap]
  | next i =>
    obtain ⟨it, hi, he⟩ := Option.map_eq_some_iff.mp hcall
    obtain ⟨rfl, rfl⟩ := Prod.mk.inj he
    intro it' k x hi' hp hitem
    obtain rfl : it = it' := Option.some.inj (hi.symm.trans hi')
    have hfetched : (k, x) ∈ it.fetch 1 := by
      rw [DBIteratorHandle.fetch]
      cases hn : it.next with
      | mk y it' =>
        rw [hn] at hitem
        obtain rfl : y = some (k, x) := by simpa using hitem
        exact List.mem_cons_self
    exact value_of_mem_rangeItems ((h.iterators it (List.mem_of_getElem? hi) hp).2 snap hsnap 1 _ hfetched)
  | commitOther batch => trivial
  | putSync onDb k v ok => trivial
  | removeSync onDb k ok => trivial
  | returnIterator i => trivial
  | reset => trivial
  | finish st => trivial

/-- A point read of a transaction with snapshots takes one if there is none yet. -/
theorem pointRead_pins {w w' : World V} {e : Event V} {a : Answer V} (hcall : w.call e = some (w', a))
    (he : e.pointRead = true) (hen : w.handle.disableSnapshot = false) :
    w'.handle.snapshotSet = true ∧ (w.handle.snapshotSet = false → w'.handle.snapshot = some w.committed) := by
  have hhandle : w'.handle = w.handle.ensureSnapshot w.committed := by
    cases e with
    | getSync onDb k tier cached =>
      obtain ⟨rfl, -⟩ := Prod.mk.inj (Option.some.inj hcall)
      exact getSync_handle _ _ _ _ _ _
    | get onDb k cached =>
      obtain ⟨rfl, -⟩ := Prod.mk.inj (Option.some.inj hcall)
      exact get_handle _ _ _ _ _
    | _ => cases he
  rw [hhandle]
  exact ensureSnapshot_pins w.committed hen

theorem write_keeps {t : TransactionHandle V} (hs : t.snapshotSet = true) (c : Database V) (p : Bool)
    (onDb : Option ℕ) (k : Slice) (v : Option V) (ok : Bool) :
    (t.write c p onDb k v ok).snapshot = t.snapshot := by
  rw [(t.write_snapshot c p onDb k v ok).2.1, ensureSnapshot_set c hs, ite_self]

/-- The snapshot stays until the handle is reset. -/
theorem call_keeps {w w' : World V} {e : Event V} {a : Answer V} (hcall : w.call e = some (w', a))
    (hs : w.handle.snapshotSet = true) (hs' : w'.handle.snapshotSet = true) :
    w'.handle.snapshot = w.handle.snapshot := by
  cases e with
  | putSync onDb k v ok =>
    obtain ⟨rfl, -⟩ := Prod.mk.inj (Option.some.inj hcall)
    exact write_keeps hs _ _ _ _ _ _
  | removeSync onDb k ok =>
    obtain ⟨rfl, -⟩ := Prod.mk.inj (Option.some.inj hcall)
    exact write_keeps hs _ _ _ _ _ _
  | getSync onDb k tier cached =>
    obtain ⟨rfl, -⟩ := Prod.mk.inj (Option.some.inj hcall)
    dsimp only
    rw [getSync_handle, ensureSnapshot_set _ hs]
  | get onDb k cached =>
    obtain ⟨rfl, -⟩ := Prod.mk.inj (Option.some.inj hcall)
    dsimp only
    rw [get_handle, ensureSnapshot_set _ hs]
  | executeGet i =>
    obtain ⟨_, -, he⟩ := Option.map_eq_some_iff.mp hcall
    obtain ⟨rfl, -⟩ := Prod.mk.inj he
    rfl
  | next i =>
    obtain ⟨_, -, he⟩ := Option.map_eq_some_iff.mp hcall
    obtain ⟨rfl, -⟩ := Prod.mk.inj he
    rfl
  | getCount onDb o =>
    rw [World.call] at hcall
    split_ifs at hcall
    obtain ⟨rfl, -⟩ := Prod.mk.inj (Option.some.inj hcall)
    rfl
  | reset =>
    obtain ⟨rfl, -⟩ := Prod.mk.inj (Option.some.inj hcall)
    exact absurd hs' Bool.false_ne_true
  | commitOther batch =>
    obtain ⟨rfl, -⟩ := Prod.mk.inj (Option.some.inj hcall)
    rfl
  | newIterator o =>
    obtain ⟨rfl, -⟩ := Prod.mk.inj (Option.some.inj hcall)
    rfl
  | returnIterator i =>
    obtain ⟨rfl, -⟩ := Prod.mk.inj (Option.some.inj hcall)
    rfl
  | finish st =>
    obtain ⟨rfl, -⟩ := Prod.mk.inj (Option.some.inj hcall)
    rfl

theorem Pinned.seesSnapshot {w : World V} {e : Event V} (h : Pinned w) (hok : Unmoved w e) : SeesSnapshot w e where
  pins := fun _ _ hperf he hen => pointRead_pins (call_of_perform hperf) he hen
  keeps := fun _ _ hperf hs hs' => call_keeps (call_of_perform hperf) hs hs'
  agrees := fun _ _ _ hperf hs hsnap => h.agrees hok (call_of_perform hperf) hs hsnap

/-- A transaction just opened, with snapshots. -/
def World.opened (pessimistic : Bool) (committed : Database V) (column : ℕ) : World V :=
  { pessimistic, committed, handle := { column } }

theorem opened_pinned (pessimistic : Bool) (committed : Database V) (column : ℕ) :
    Pinned (World.opened pessimistic committed column) where
  enabled := rfl
  snapshot := fun hs => absurd hs Bool.false_ne_true
  gets := fun _ hg => by cases hg
  iterators := fun _ hi => by cases hi

/-- As long as nobody commits into what a range or a count covers, and reads stay in the
transaction's column family, every read of the transaction sees its one snapshot. -/
theorem reads_see_snapshot (pessimistic : Bool) (committed : Database V) (column : ℕ) (events : List (Event V))
    (hok : Runs.Along World.step Unmoved (World.opened pessimistic committed column) events) :
    Runs.Along World.step SeesSnapshot (World.opened pessimistic committed column) events :=
  Runs.Along.of_invariant (fun _ _ _ h hok hstep => h.step hok hstep) (fun _ _ h hok => h.seesSnapshot hok)
    (opened_pinned pessimistic committed column) hok

/-- One column family with the key `[1]`. -/
def oneKey : Database ℕ := applyBatch (fun _ => OrderedTable.empty) [(0, [1], some 10)]

/-- A read takes the snapshot, the transaction writes a key, another one commits past the
end of the range, and the range is read and counted. -/
def rangeBelow : List (Event ℕ) :=
  [.getSync none [1] false true, .putSync none [2] 20 true, .commitOther [(0, [9], some 90)],
    .newIterator { endKey := some [5] }, .next 0, .next 0, .getCount none { endKey := some [5] }]

/-- The other commit lies past the end of the range. -/
theorem committed_below {k : Slice} (hk : ({ endKey := some [5] } : DBIteratorOptions).inRange k = true) :
    (applyBatch oneKey [(0, [9], some 90)] 0).value k = (oneKey 0).value k := by
  have hlt : k < [5] := by
    simpa [DBIteratorOptions.inRange, DBIteratorOptions.inBounds, DBIteratorOptions.upperBound,
      DBIteratorOptions.excludes] using hk
  have hne : k ≠ [9] := by
    rintro rfl
    exact absurd hlt (by decide)
  simp [applyBatch, applyWrite, hne]

theorem reads_see_snapshot_below : Runs.Along World.step Unmoved (World.opened false oneKey 0) rangeBelow
    ∧ Runs.Along World.step SeesSnapshot (World.opened false oneKey 0) rangeBelow := by
  have hok : Runs.Along World.step Unmoved (World.opened false oneKey 0) rangeBelow := by
    have hstill : ∀ {w : World ℕ}, w.handle.column = 0 → w.handle.snapshot = some oneKey →
      w.committed = applyBatch oneKey [(0, [9], some 90)] →
        StillCommitted w { endKey := some [5] } := by
      intro w hc hsnap hcom snap _ hs k hk _
      obtain rfl : oneKey = snap := Option.some.inj (hsnap.symm.trans hs)
      rw [hc, hcom]
      exact committed_below hk
    refine ⟨trivial, fun w1 h1 => ⟨trivial, fun w2 h2 => ⟨trivial, fun w3 h3 => ?_⟩⟩⟩
    obtain rfl := Option.some.inj h1
    obtain rfl := Option.some.inj h2
    obtain rfl := Option.some.inj h3
    refine ⟨hstill rfl rfl rfl, fun w4 h4 => ⟨trivial, fun w5 h5 => ⟨trivial, fun w6 h6 => ?_⟩⟩⟩
    obtain rfl := Option.some.inj h4
    obtain rfl := Option.some.inj h5
    obtain rfl := Option.some.inj h6
    exact ⟨⟨rfl, hstill rfl rfl rfl⟩, fun _ _ => trivial⟩
  exact ⟨hok, reads_see_snapshot false oneKey 0 rangeBelow hok⟩

/-- Another transaction commits between the first read and a range over the same key. -/
def rangeAfterCommit : List (Event ℕ) :=
  [.getSync none [1] false true, .commitOther [(0, [1], some 20)], .newIterator {}, .next 0]

/-- The range yields the later value where a point read still answers with the snapshot's. -/
theorem range_sees_later_commit : ¬ Runs.Along World.step SeesSnapshot (World.opened false oneKey 0) rangeAfterCommit
    ∧ ((Runs.exec World.step (World.opened false oneKey 0) (rangeAfterCommit.take 3)).bind fun w =>
      (w.perform (.next 0)).map Prod.snd)
      = some (.item (some ([1], some 20)))
    ∧ ((Runs.exec World.step (World.opened false oneKey 0) (rangeAfterCommit.take 3)).bind fun w =>
        (w.perform (.getSync none [1] false true)).map Prod.snd) = some (.value (some 10)) := by
  refine ⟨fun h => ?_, rfl, rfl⟩
  have hsees := (((h.2 _ rfl).2 _ rfl).1).agrees _ _ oneKey rfl rfl rfl
  obtain ⟨it, hit, hfetch⟩ := hsees
  obtain rfl := Answer.iterator.inj hit
  exact absurd (hfetch 1) (by decide)

end Reads
end RocksdbJs
