import RocksdbJs.Sanity.RangeBounds

/-! When `getKeysCount` is the number of items that `getRange` yields. The two encode their bounds
differently, and a count through a transaction's id is made in the transaction's own column family
where a range of the same handle does not look at the transaction at all. -/

namespace RocksdbJs
namespace Ranges
open Reads

variable {K W : Type}

/-- The bounds of a range as bytes. -/
def RangeOptions.native (enc : KeyEncoder K) (o : RangeOptions K) : DBIteratorOptions where
  startKey := o.startKey.map enc.encode
  endKey := o.endKey.map enc.encode
  exclusiveStart := o.exclusiveStart.getD false
  inclusiveEnd := o.inclusiveEnd.getD false
  values := false
  nonempty := fun h => absurd h (by decide)

/-- The keys of a table within a range. -/
def keysIn (enc : KeyEncoder K) (table : OrderedTable Slice Slice) (o : RangeOptions K) : List Slice :=
  (table.items (o.native enc).inRange).map Prod.fst

/-- The count is the number of items, or both calls refuse the bounds alike. -/
def CountsItems (store : Store K W) (keyBuffer : KeyBuffer) (committed : Database Slice)
    (ctx : GetContext Slice) (o : RangeOptions K) : Prop :=
  (∃ (it : DBIterator K W) (items : List (Item K W)), store.getRange keyBuffer committed ctx { toRangeOptions := o } =
    .ok it ∧ (∀ n, it.fetch n = items.take n)
      ∧ store.getKeysCount keyBuffer committed ctx o = .ok items.length)
    ∨ ∃ e, store.getRange keyBuffer committed ctx { toRangeOptions := o } = .error e ∧
      store.getKeysCount keyBuffer committed ctx o = .error e

/-- A count of the context covers as many keys as a range of it. -/
def SameExtent (enc : KeyEncoder K) (committed : Database Slice) (o : RangeOptions K) : GetContext Slice → Prop
  | .databaseWith _ none => False
  | .databaseWith column (some t) =>
    (keysIn enc (t.view committed none t.column) o).length = (keysIn enc (committed column) o).length
  | _ => True

/-- A transaction that is named by its id is there and was begun on the handle's own column family, and
its writes bring as many keys into the range as they take out of it. -/
def Balanced (enc : KeyEncoder K) (committed : Database Slice) (o : RangeOptions K) : GetContext Slice → Prop
  | .databaseWith _ none => False
  | .databaseWith column (some t) => t.column = column ∧
    (committed column).added (t.writes column) (o.native enc).inRange = (committed column).removed (t.writes column)
    (o.native enc).inRange
  | _ => True

/-- A transaction that is named by its id was begun on the handle's own column family. -/
def OneColumn : GetContext Slice → Prop
  | .databaseWith column (some t) => t.column = column
  | _ => True

/-- The bounds are the very same key, or they fit in the key buffer together. -/
def FitTogether (enc : KeyEncoder K) (o : RangeOptions K) : Prop :=
  ∀ s e, o.startKey = some s → o.endKey = some e → enc.strictEq e s = true ∨
    (enc.encode s).length + (enc.encode e).length ≤ keyBufferSize

/-- Each bound can be encoded alone. -/
def EachWritable (enc : KeyEncoder K) (o : RangeOptions K) : Prop :=
  (∀ s, o.startKey = some s → enc.Writable s) ∧ ∀ e, o.endKey = some e → enc.Writable e

namespace KeyEncoder

variable {enc : KeyEncoder K} {k : K}

theorem encodeOption_of_writable (h : enc.Writable k) (buf : KeyBuffer) :
    ∃ buf', enc.encodeOption buf (some k) = .ok (buf', some (enc.encode k)) := by
  obtain ⟨buf', hw, hat, -⟩ := writeKey_of_fits (o := 0) (by rw [Nat.zero_add]; exact h.2) buf
  rw [Nat.zero_add] at hw
  refine ⟨buf', ?_⟩
  rw [encodeOption, encodeKey, hw]
  have hpos : (enc.encode k).length ≠ 0 := by
    have := h.1
    omega
  simp only [if_neg hpos, hat.readAt]

theorem encodeOption_refused (h : ¬ enc.Writable k) (buf : KeyBuffer) :
    enc.encodeOption buf (some k) = .error (enc.refusal k) := by
  rw [encodeOption, encodeKey]
  rcases writeKey_refused h (Nat.zero_le _) buf with ⟨hr, buf', hw⟩ | ⟨hr, hw⟩
  · rw [hw, hr]
    rfl
  · rw [hw, hr]

theorem encodeOption_of_fits {bound : Option K} (h : ∀ k, bound = some k → enc.Writable k) (buf : KeyBuffer) :
    ∃ buf', enc.encodeOption buf bound = .ok (buf', bound.map enc.encode) := by
  cases bound with
  | none => exact ⟨buf, rfl⟩
  | some k => exact encodeOption_of_writable (h k rfl) buf

/-- The second bound is refused as it would be alone. -/
theorem writeBounds_end_refused {start : Option K} (hstart : ∀ k, start = some k → enc.Writable k)
    (h : ¬ enc.Writable k) (buf : KeyBuffer) :
    enc.writeBounds buf start (some k) = .error (enc.refusal k) := by
  obtain ⟨buf', hw, -⟩ := writeStart_of_fits hstart buf
  have hsame : ¬ start.any (enc.strictEq k) = true := by
    intro hany
    obtain ⟨s, hs, heq⟩ := (Option.any_eq_true _ _).mp hany
    obtain rfl := enc.strictEq_sound k s heq
    exact h (hstart k hs)
  have hspan : enc.span start ≤ keyBufferSize := by
    cases start with
    | none => exact Nat.zero_le _
    | some s => exact (hstart s rfl).2
  rw [writeBounds, hw]
  dsimp only
  rw [if_neg hsame]
  rcases writeKey_refused h hspan buf' with ⟨hr, buf'', hw'⟩ | ⟨hr, hw'⟩
  · rw [hw', hr]
    exact if_pos rfl
  · rw [hw', hr]

end KeyEncoder

/-- What lies in a range is said by its bounds and the two flags. -/
theorem inRange_congr {a b : DBIteratorOptions} (hs : a.startKey = b.startKey) (he : a.endKey = b.endKey)
    (hx : a.exclusiveStart = b.exclusiveStart) (hi : a.inclusiveEnd = b.inclusiveEnd) : a.inRange = b.inRange := by
  funext k
  rw [DBIteratorOptions.inRange, DBIteratorOptions.inRange, DBIteratorOptions.inBounds, DBIteratorOptions.inBounds,
    DBIteratorOptions.upperBound, DBIteratorOptions.upperBound, DBIteratorOptions.excludes,
    DBIteratorOptions.excludes, hs, he, hx, hi]

theorem length_rangeItems (table : OrderedTable Slice Slice) (o : DBIteratorOptions) :
    (rangeItems table o).length = (table.items o.inRange).length := by
  rw [rangeItems, List.length_map]
  split_ifs
  · exact List.length_reverse
  · rfl

/-- Bounds fit for a range when each is fit for a count and there is room for both. -/
theorem boundsFit_iff {enc : KeyEncoder K} {o : RangeOptions K} :
    enc.BoundsFit o.startKey o.endKey ↔ EachWritable enc o ∧ FitTogether enc o := by
  constructor
  · intro h
    refine ⟨⟨h.first, fun e he => ?_⟩, fun s e hs he => ?_⟩
    · rcases h.second e he with hany | ⟨hpos, hfit⟩
      · obtain ⟨s, hs, heq⟩ := (Option.any_eq_true _ _).mp hany
        obtain rfl := enc.strictEq_sound e s heq
        exact h.first e hs
      · exact ⟨hpos, by omega⟩
    · rcases h.second e he with hany | ⟨-, hfit⟩
      · rw [hs] at hany
        exact Or.inl hany
      · rw [hs] at hfit
        exact Or.inr hfit
  · rintro ⟨⟨hstart, hend⟩, htogether⟩
    refine ⟨hstart, fun e he => ?_⟩
    obtain ⟨hpos, hle⟩ := hend e he
    cases hs : o.startKey with
    | none =>
      refine Or.inr ⟨hpos, ?_⟩
      rw [KeyEncoder.span, Option.elim_none, Nat.zero_add]
      exact hle
    | some s => exact (htogether s e hs he).imp id fun hfit => ⟨hpos, hfit⟩

section
variable {store : Store K W} {o : RangeOptions K} (keyBuffer : KeyBuffer) (committed : Database Slice)
    (ctx : GetContext Slice)

/-- A range that is opened yields as many items as there are keys in it. -/
theorem getRange_length (h : store.encoder.BoundsFit o.startKey o.endKey) :
    ∃ (it : DBIterator K W) (items : List (Item K W)), store.getRange keyBuffer committed ctx
      { toRangeOptions := o } = .ok it
      ∧ (∀ n, it.fetch n = items.take n) ∧ items.length = (keysIn store.encoder (seen committed ctx) o).length := by
  obtain ⟨it, native, hget, hnative, -, hfetch⟩ :=
    getRange_of_fits store keyBuffer committed ctx (o := { toRangeOptions := o }) h
  have hin : native.inRange = (o.native store.encoder).inRange :=
    inRange_congr hnative.start hnative.last hnative.exclusiveStart hnative.inclusiveEnd
  refine ⟨it, _, hget, hfetch, ?_⟩
  rw [List.length_map, keysIn, List.length_map, ← hin, ← length_rangeItems]
  rfl

/-- The count of bounds that are each encoded. -/
theorem getKeysCount_of_writable (h : EachWritable store.encoder o) :
    store.getKeysCount keyBuffer committed ctx o = bindingGetCount committed (o.native store.encoder) ctx := by
  obtain ⟨buf, hs⟩ := KeyEncoder.encodeOption_of_fits h.1 keyBuffer
  obtain ⟨buf', he⟩ := KeyEncoder.encodeOption_of_fits h.2 buf
  rw [Store.getKeysCount, Store.getCount, hs]
  dsimp only
  rw [he]
  rfl

end

theorem bindingGetCount_eq (enc : KeyEncoder K) (committed : Database Slice) (o : RangeOptions K)
    (ctx : GetContext Slice) :
    bindingGetCount committed (o.native enc) ctx = match ctx with
      | .database column => .ok (keysIn enc (committed column) o).length
      | .databaseWith _ none => .error .transactionNotFound
      | .databaseWith _ (some t) => .ok (keysIn enc (t.view committed none t.column) o).length
      | .transaction t => .ok (keysIn enc (t.view committed none t.column) o).length := by
  have hcount : ∀ table, (rangeItems table (o.native enc)).length = (keysIn enc table o).length := fun table => by
    rw [length_rangeItems, keysIn, List.length_map]
  match ctx with
  | .database column => exact congrArg Except.ok ((count_seek rfl (committed column)).trans (hcount _))
  | .databaseWith _ none => rfl
  | .databaseWith _ (some t) => exact congrArg Except.ok ((TransactionHandle.getCount_eq rfl).trans (hcount _))
  | .transaction t => exact congrArg Except.ok ((TransactionHandle.getCount_eq rfl).trans (hcount _))

theorem getRange_refused {store : Store K W} {keyBuffer : KeyBuffer} {committed : Database Slice}
    {ctx : GetContext Slice} {o : IteratorOptions K} {e : RangeError}
    (h : store.encoder.writeBounds keyBuffer (o.startUnencoded store.encoder) (o.endUnencoded store.encoder) =
      .error e) :
    store.getRange keyBuffer committed ctx o = .error e := by
  rw [Store.getRange, h]

/-- Bounds that are refused one by one are refused alike. -/
theorem refused_alike {store : Store K W} {o : RangeOptions K} (h : ¬ EachWritable store.encoder o)
    (keyBuffer : KeyBuffer) (committed : Database Slice) (ctx : GetContext Slice) :
    ∃ e, store.getRange keyBuffer committed ctx { toRangeOptions := o } = .error e ∧
      store.getKeysCount keyBuffer committed ctx o = .error e := by
  by_cases hstart : ∀ s, o.startKey = some s → store.encoder.Writable s
  · have hend : ∃ e, o.endKey = some e ∧ ¬ store.encoder.Writable e := by
      by_contra hn
      push Not at hn
      exact h ⟨hstart, hn⟩
    obtain ⟨e, he, hw⟩ := hend
    refine ⟨store.encoder.refusal e, ?_, ?_⟩
    · have hbounds := KeyEncoder.writeBounds_end_refused hstart hw keyBuffer
      rw [← he] at hbounds
      exact getRange_refused hbounds
    · obtain ⟨buf, hs⟩ := KeyEncoder.encodeOption_of_fits hstart keyBuffer
      rw [Store.getKeysCount, Store.getCount, hs]
      dsimp only
      rw [he, KeyEncoder.encodeOption_refused hw]
  · push Not at hstart
    obtain ⟨s, hs, hw⟩ := hstart
    refine ⟨store.encoder.refusal s, ?_, ?_⟩
    · have hbounds := KeyEncoder.writeBounds_start_refused hw keyBuffer o.endKey
      rw [← hs] at hbounds
      exact getRange_refused hbounds
    · rw [Store.getKeysCount, Store.getCount, hs, KeyEncoder.encodeOption_refused hw]

theorem KeyEncoder.writeKey_error {enc : KeyEncoder K} {k : K} {buf : KeyBuffer} {n : ℕ} {e : RangeError}
    (h : enc.writeKey k buf n = .error e) :
    e = .outOfRange := by
  unfold KeyEncoder.writeKey at h
  split_ifs at h
  exact (Except.error.inj h).symm

/-- `getRange` never misses a transaction. -/
theorem getRange_error {store : Store K W} {keyBuffer : KeyBuffer} {committed : Database Slice}
    {ctx : GetContext Slice} {o : RangeOptions K} (heach : EachWritable store.encoder o) {e : RangeError}
    (h : store.getRange keyBuffer committed ctx { toRangeOptions := o } = .error e) :
    e ≠ .transactionNotFound := by
  rintro rfl
  obtain ⟨buf, hstart, -⟩ := KeyEncoder.writeStart_of_fits heach.1 keyBuffer
  have hbounds : store.encoder.writeBounds keyBuffer o.startKey o.endKey = .error .transactionNotFound := by
    unfold Store.getRange at h
    split at h
    · rename_i hb
      rw [Except.error.inj h] at hb
      exact hb
    · cases h
  unfold KeyEncoder.writeBounds at hbounds
  rw [hstart] at hbounds
  dsimp only at hbounds
  split at hbounds
  · cases hbounds
  · split_ifs at hbounds
    split at hbounds
    · rename_i hw
      rw [Except.error.inj hbounds] at hw
      cases KeyEncoder.writeKey_error hw
    · split_ifs at hbounds
      cases hbounds

/-- Bounds that a count takes leave room for both in the key buffer, and the two calls cover as many keys. -/
theorem countsItems_iff_extent (store : Store K W) (keyBuffer : KeyBuffer) (committed : Database Slice)
    (ctx : GetContext Slice) (o : RangeOptions K) :
    CountsItems store keyBuffer committed ctx o ↔
      (EachWritable store.encoder o → FitTogether store.encoder o ∧ SameExtent store.encoder committed o ctx) := by
  by_cases heach : EachWritable store.encoder o
  · have hcount := (getKeysCount_of_writable keyBuffer committed ctx heach).trans
      (bindingGetCount_eq store.encoder committed o ctx)
    by_cases htogether : FitTogether store.encoder o
    · obtain ⟨it, items, hget, hfetch, hlen⟩ :=
        getRange_length keyBuffer committed ctx (boundsFit_iff.mpr ⟨heach, htogether⟩)
      have hcounts : CountsItems store keyBuffer committed ctx o ↔ store.getKeysCount keyBuffer committed ctx o =
          .ok items.length := by
        constructor
        · rintro (⟨it', items', hget', hfetch', hc⟩ | ⟨e, hget', -⟩)
          · obtain rfl := Except.ok.inj (hget.symm.trans hget')
            rwa [eq_of_take_eq fun n => (hfetch n).symm.trans (hfetch' n)]
          · cases hget.symm.trans hget'
        · exact fun hc => Or.inl ⟨it, items, hget, hfetch, hc⟩
      rw [hcounts, hcount, hlen]
      match ctx with
      | .database column => exact iff_of_true rfl fun _ => ⟨htogether, trivial⟩
      | .databaseWith column none => exact iff_of_false (by simp) fun h => (h heach).2
      | .databaseWith column (some t) =>
        constructor
        · exact fun h _ => ⟨htogether, Except.ok.inj h⟩
        · exact fun h => congrArg Except.ok (h heach).2
      | .transaction t => exact iff_of_true rfl fun _ => ⟨htogether, trivial⟩
    · refine iff_of_false ?_ fun h => htogether (h heach).1
      rintro (⟨it, items, hget, -, -⟩ | ⟨e, hget, hc⟩)
      · exact htogether (boundsFit_iff.mp (fits_of_getRange hget)).2
      · -- a count that got past its bounds fails on the transaction only
        have hmissing : e = .transactionNotFound := by
          have herr := hcount.symm.trans hc
          match ctx with
          | .database _ => cases herr
          | .databaseWith _ none => exact (Except.error.inj herr).symm
          | .databaseWith _ (some _) => cases herr
          | .transaction _ => cases herr
        exact getRange_error heach hget hmissing
  · exact iff_of_true (Or.inr (refused_alike heach keyBuffer committed ctx)) fun h => absurd h heach

/-- A transaction of the handle's own column family sees as many keys in the range as are committed when
its writes are balanced. -/
theorem sameExtent_iff_balanced {enc : KeyEncoder K} {committed : Database Slice} {o : RangeOptions K}
    {ctx : GetContext Slice} (h : OneColumn ctx) :
    SameExtent enc committed o ctx ↔ Balanced enc committed o ctx := by
  match ctx with
  | .database _ => exact Iff.rfl
  | .databaseWith _ none => exact Iff.rfl
  | .transaction _ => exact Iff.rfl
  | .databaseWith column (some t) =>
    obtain rfl : t.column = column := h
    have hlength := OrderedTable.length_items_overlay (committed t.column) (t.writes t.column) (o.native enc).inRange
    rw [SameExtent, Balanced, keysIn, keysIn, List.length_map, List.length_map]
    change (((committed t.column).overlay (t.writes t.column)).items _).length = _ ↔ _
    constructor
    · exact fun hsame => ⟨rfl, by omega⟩
    · rintro ⟨-, hbalanced⟩
      omega

/-- The count is the number of items when bounds that a count takes leave room for both in the key buffer, and a
transaction that is named by its id is of the handle's column family and balanced. For a context of
one column family it is so in no other case. -/
theorem counts_items (store : Store K W) (keyBuffer : KeyBuffer) (committed : Database Slice)
    (ctx : GetContext Slice) (o : RangeOptions K) :
    ((EachWritable store.encoder o → FitTogether store.encoder o ∧ Balanced store.encoder committed o ctx) →
        CountsItems store keyBuffer committed ctx o) ∧
      (OneColumn ctx → CountsItems store keyBuffer committed ctx o →
        EachWritable store.encoder o → FitTogether store.encoder o ∧ Balanced store.encoder committed o ctx) := by
  have hextent := countsItems_iff_extent store keyBuffer committed ctx o
  refine ⟨fun h => hextent.mpr fun heach => ?_, fun hone hcounts heach => ?_⟩
  · obtain ⟨htogether, hbalanced⟩ := h heach
    have hone : OneColumn ctx := by
      match ctx with
      | .database _ => trivial
      | .databaseWith _ none => trivial
      | .databaseWith _ (some _) => exact hbalanced.1
      | .transaction _ => trivial
    exact ⟨htogether, (sameExtent_iff_balanced hone).mpr hbalanced⟩
  · exact (hextent.mp hcounts heach).imp_right (sameExtent_iff_balanced hone).mp

/-- A transaction of the handle's column family with no write in the range counts what the range yields. -/
theorem balanced_of_unwritten {enc : KeyEncoder K} {committed : Database Slice} {o : RangeOptions K}
    {column : ℕ} {t : Reads.TransactionHandle Slice} (hcolumn : t.column = column)
    (h : (t.writes column).items (o.native enc).inRange = []) :
    Balanced enc committed o (.databaseWith column (some t)) := by
  obtain ⟨hadded, hremoved⟩ := OrderedTable.added_eq_zero (committed column) h
  exact ⟨hcolumn, hadded.trans hremoved.symm⟩

/-- A transaction on column family 0 that has put the key `[2]`. -/
def putTwo : Reads.TransactionHandle Slice where
  column := 0
  writes := Function.update (fun _ => OrderedTable.empty) 0 (OrderedTable.empty.write [2] (some (some [7])))

/-- Nothing is committed. The handle of column family 1 counts the transaction's key in column
family 0, and its range with the same options yields nothing. -/
theorem count_misses_column :
    ¬ CountsItems (⟨KeyEncoder.binary, none⟩ : Store Slice ℕ) blankBuffer (fun _ => OrderedTable.empty)
    (.databaseWith 1 (some putTwo)) {}
      ∧ Store.getKeysCount (⟨KeyEncoder.binary, none⟩ : Store Slice ℕ) blankBuffer (fun _ => OrderedTable.empty)
      (.databaseWith 1 (some putTwo)) {} = .ok 1
      ∧ (Store.getRange (⟨KeyEncoder.binary, none⟩ : Store Slice ℕ) blankBuffer (fun _ => OrderedTable.empty)
        (.databaseWith 1 (some putTwo)) {}).map
          (DBIterator.fetch 1) = .ok [] := by
  refine ⟨?_, rfl, rfl⟩
  rintro (⟨it, items, hget, hfetch, hcount⟩ | ⟨e, hget, -⟩)
  · have hnone : it.fetch 1 = [] := by
      obtain rfl := Except.ok.inj hget
      rfl
    have hone : items.length = 1 := (Except.ok.inj hcount).symm
    have htake : items.take 1 = [] := (hfetch 1).symm.trans hnone
    rw [List.take_of_length_le (by omega)] at htake
    rw [htake] at hone
    cases hone
  · cases hget

end Ranges
end RocksdbJs
