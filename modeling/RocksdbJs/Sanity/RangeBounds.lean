import RocksdbJs.Proofs.SnapshotReads
import RocksdbJs.Spec.StoreRanges

/-! The bounds of a range in the shared key buffer: which are taken, that the native side finds them where they were
written, and the error of one that is refused. Behind them, what the iterator of `dbi-iterator.ts` yields. -/

namespace RocksdbJs
namespace Ranges
open Reads

variable {K W : Type}

/-- Column families whose keys were all written with the encoding. -/
structure KeyedDatabase (enc : KeyEncoder K) where
  columns : Database Slice
  written : ∀ column j v, (columns column).value j = some v → ∃ k, enc.encode k = j

/-- The key buffer before anything is written to it. -/
def blankBuffer : KeyBuffer := ⟨List.replicate keyBufferSize 0, List.length_replicate⟩

namespace KeyEncoder

variable {enc : KeyEncoder K} {start last : Option K} {k : K} {o : ℕ}

/-- The bytes of a bound, or none. -/
def span (enc : KeyEncoder K) (k : Option K) : ℕ := k.elim 0 fun k => (enc.encode k).length

/-- The key has bytes, and they fit in the key buffer. -/
def Writable (enc : KeyEncoder K) (k : K) : Prop := 0 < (enc.encode k).length ∧ (enc.encode k).length ≤ keyBufferSize

/-- Both bounds have bytes and fit in the key buffer, back to back unless they are the very same key. -/
structure BoundsFit (enc : KeyEncoder K) (start last : Option K) : Prop where
  first : ∀ k, start = some k → enc.Writable k
  second : ∀ k, last = some k → start.any (enc.strictEq k) = true ∨
    (0 < (enc.encode k).length ∧ enc.span start + (enc.encode k).length ≤ keyBufferSize)

theorem writeKey_of_fits (h : o + (enc.encode k).length ≤ keyBufferSize) (buf : KeyBuffer) :
    ∃ buf', enc.writeKey k buf o = .ok (buf', o + (enc.encode k).length) ∧ ByteBlock.HasAt buf'.bytes o (enc.encode k)
      ∧ ∀ bs, bs.length ≤ o → ByteBlock.HasAt buf.bytes 0 bs → ByteBlock.HasAt buf'.bytes 0 bs := by
  have hle : o + (enc.encode k).length ≤ buf.bytes.length := by rwa [buf.length_eq]
  rw [writeKey, dif_pos h]
  refine ⟨_, rfl, ByteBlock.hasAt_writeAt hle, fun bs hbs hold => ?_⟩
  exact hold.writeAt hle (Or.inl (by omega))

theorem writeKey_of_not_fits (h : ¬ o + (enc.encode k).length ≤ keyBufferSize) (buf : KeyBuffer) :
    enc.writeKey k buf o = .error .outOfRange := dif_neg h

theorem writeStart_of_writable (h : enc.Writable k) (buf : KeyBuffer) :
    ∃ buf', enc.writeStart buf (some k) = .ok (buf', (enc.encode k).length) ∧
      ByteBlock.HasAt buf'.bytes 0 (enc.encode k) := by
  obtain ⟨buf', hw, hat, -⟩ := writeKey_of_fits (o := 0) (by rw [Nat.zero_add]; exact h.2) buf
  rw [Nat.zero_add] at hw
  refine ⟨buf', ?_, hat⟩
  rw [writeStart, hw]
  exact if_neg (by have := h.1; omega)

/-- The error of a key that is refused. -/
def refusal (enc : KeyEncoder K) (k : K) : RangeError :=
  if (enc.encode k).length ≤ keyBufferSize then .zeroLengthKey else .outOfRange

/-- A key that is refused either has no bytes, and is found to end where it starts, or does not fit. -/
theorem writeKey_refused (h : ¬ enc.Writable k) (ho : o ≤ keyBufferSize) (buf : KeyBuffer) :
    (enc.refusal k = .zeroLengthKey ∧ ∃ buf', enc.writeKey k buf o = .ok (buf', o))
      ∨ (enc.refusal k = .outOfRange ∧ enc.writeKey k buf o = .error .outOfRange) := by
  by_cases hle : (enc.encode k).length ≤ keyBufferSize
  · have hnil : (enc.encode k).length = 0 := by
      by_contra hne
      exact h ⟨by omega, hle⟩
    obtain ⟨buf', hw, -⟩ := @writeKey_of_fits _ enc k o (by omega) buf
    rw [hnil, Nat.add_zero] at hw
    exact Or.inl ⟨if_pos hle, buf', hw⟩
  · exact Or.inr ⟨if_neg hle, writeKey_of_not_fits (by omega) buf⟩

theorem writeStart_refused (h : ¬ enc.Writable k) (buf : KeyBuffer) :
    enc.writeStart buf (some k) = .error (enc.refusal k) := by
  rw [writeStart]
  rcases writeKey_refused h (Nat.zero_le _) buf with ⟨hr, buf', hw⟩ | ⟨hr, hw⟩
  · rw [hw, hr]
    rfl
  · rw [hw, hr]

/-- The start is written, or there is none. -/
theorem writeStart_of_fits (h : ∀ k, start = some k → enc.Writable k) (buf : KeyBuffer) :
    ∃ buf', enc.writeStart buf start = .ok (buf', enc.span start) ∧ ∀ k, start = some k →
      ByteBlock.HasAt buf'.bytes 0 (enc.encode k) := by
  cases start with
  | none => exact ⟨buf, rfl, fun k hk => by cases hk⟩
  | some s =>
    obtain ⟨buf', hw, hat⟩ := writeStart_of_writable (h s rfl) buf
    refine ⟨buf', hw, fun k hk => ?_⟩
    obtain rfl := Option.some.inj hk
    exact hat

/-- The bounds as the native side takes them out of the key buffer. -/
def Taken (enc : KeyEncoder K) (b : BoundOffsets) (start last : Option K) : Prop :=
  ∀ reverse exclusiveStart inclusiveEnd values,
    (b.iteratorOptions reverse exclusiveStart inclusiveEnd values).startKey = start.map enc.encode
      ∧ (b.iteratorOptions reverse exclusiveStart inclusiveEnd values).endKey = last.map enc.encode

theorem taken_start {b : BoundOffsets} (hwrite : ∀ k, start = some k → enc.Writable k)
    (hend : b.startKeyEnd = enc.span start)
    (hat : ∀ k, start = some k → ByteBlock.HasAt b.keyBuffer.bytes 0 (enc.encode k)) :
    (if 0 < b.startKeyEnd then some (ByteBlock.readAt b.keyBuffer.bytes 0 b.startKeyEnd) else none) =
      start.map enc.encode := by
  rw [hend]
  cases start with
  | none => rfl
  | some s =>
    rw [if_pos (show 0 < enc.span (some s) from (hwrite s rfl).1)]
    exact congrArg some (hat s rfl).readAt

theorem taken_end {b : BoundOffsets} (hpos : 0 < (enc.encode k).length)
    (hend : b.endKeyEnd = b.endKeyStart + (enc.encode k).length)
    (hat : ByteBlock.HasAt b.keyBuffer.bytes b.endKeyStart (enc.encode k)) :
    (if b.endKeyStart < b.endKeyEnd then some (ByteBlock.readAt b.keyBuffer.bytes b.endKeyStart
      (b.endKeyEnd - b.endKeyStart)) else none)
      = some (enc.encode k) := by
  rw [if_pos (by omega), show b.endKeyEnd - b.endKeyStart = (enc.encode k).length by omega, hat.readAt]

theorem writeBounds_of_fits (h : enc.BoundsFit start last) (buf : KeyBuffer) :
    ∃ b, enc.writeBounds buf start last = .ok b ∧ enc.Taken b start last := by
  obtain ⟨buf', hw, hat⟩ := writeStart_of_fits h.first buf
  rw [writeBounds, hw]
  cases last with
  | none => exact ⟨_, rfl, fun _ _ _ _ => ⟨taken_start h.first rfl hat, rfl⟩⟩
  | some e =>
    by_cases hsame : start.any (enc.strictEq e) = true
    · -- the end is the start, whose bytes are used again
      obtain ⟨s, rfl, hs⟩ := (Option.any_eq_true _ _).mp hsame
      obtain rfl := enc.strictEq_sound e s hs
      refine ⟨⟨buf', enc.span (some e), 0, enc.span (some e)⟩, if_pos hsame,
        fun _ _ _ _ => ⟨taken_start h.first rfl hat, ?_⟩⟩
      exact taken_end (h.first e rfl).1 (Nat.zero_add _).symm (hat e rfl)
    · obtain ⟨hpos, hfit⟩ := (h.second e rfl).resolve_left hsame
      obtain ⟨buf'', hw', hat', hkeep⟩ := writeKey_of_fits hfit buf'
      refine ⟨⟨buf'', enc.span start, enc.span start, enc.span start + (enc.encode e).length⟩, ?_,
        fun _ _ _ _ => ⟨?_, ?_⟩⟩
      · dsimp only
        rw [if_neg hsame, hw']
        exact if_neg (by omega)
      · refine taken_start h.first rfl fun k hk => hkeep _ ?_ (hat k hk)
        rw [hk]
        exact le_rfl
      · exact taken_end hpos rfl hat'

theorem writeBounds_start_refused {s : K} (h : ¬ enc.Writable s) (buf : KeyBuffer) (last : Option K) :
    enc.writeBounds buf (some s) last = .error (enc.refusal s) := by
  rw [writeBounds, writeStart_refused h]

/-- Bounds that are taken fit. -/
theorem fits_of_writeBounds {buf : KeyBuffer} {b : BoundOffsets}
    (h : enc.writeBounds buf start last = .ok b) : enc.BoundsFit start last := by
  have hstart : ∀ k, start = some k → enc.Writable k := by
    rintro s rfl
    by_contra hs
    rw [writeBounds_start_refused hs] at h
    cases h
  refine ⟨hstart, ?_⟩
  rintro e rfl
  obtain ⟨buf', hw, -⟩ := writeStart_of_fits hstart buf
  simp only [writeBounds, hw] at h
  by_cases hsame : start.any (enc.strictEq e) = true
  · exact Or.inl hsame
  · rw [if_neg hsame] at h
    by_cases hfit : enc.span start + (enc.encode e).length ≤ keyBufferSize
    · obtain ⟨buf'', hw', -⟩ := writeKey_of_fits hfit buf'
      rw [hw'] at h
      dsimp only at h
      split_ifs at h with h0
      exact Or.inr ⟨by omega, hfit⟩
    · rw [writeKey_of_not_fits hfit] at h
      cases h

end KeyEncoder

/-- A handle that yields a list yields its first entry and then the rest. -/
theorem handle_yields_cases {h : DBIteratorHandle Slice} {l : List (Slice × Option Slice)}
    (hl : ∀ n, h.fetch n = l.take n) :
    (h.next.1 = none ∧ l = []) ∨ ∃ x rest, h.next.1 = some x ∧ l = x :: rest ∧ ∀ n, h.next.2.fetch n = rest.take n := by
  cases hn : h.next with
  | mk y h' =>
    cases y with
    | none =>
      have hone := hl 1
      simp only [DBIteratorHandle.fetch, hn] at hone
      exact Or.inl ⟨rfl, (List.take_eq_nil_iff.mp hone.symm).resolve_left Nat.one_ne_zero⟩
    | some x =>
      have hmore : ∀ n, x :: h'.fetch n = l.take (n + 1) := fun n => by
        rw [← hl (n + 1), DBIteratorHandle.fetch, hn]
      cases l with
      | nil => exact absurd (hmore 0) (by simp)
      | cons z rest =>
        refine Or.inr ⟨x, rest, rfl, ?_, fun n => ?_⟩
        · rw [(List.cons.inj (hmore 0)).1]
        · exact (List.cons.inj (hmore n)).2

/-- The first entries, as many as the limit allows. -/
def cut {α : Type} (limit : Option ℤ) (l : List α) : List α := limit.elim l fun n => l.take n.toNat

theorem cut_map {α β : Type} (limit : Option ℤ) (f : α → β) (l : List α) :
    cut limit (l.map f) = (cut limit l).map f := by
  cases limit with
  | none => rfl
  | some n => exact (List.map_take).symm

theorem mem_of_mem_cut {α : Type} {limit : Option ℤ} {l : List α} {x : α} (h : x ∈ cut limit l) : x ∈ l := by
  cases limit with
  | none => exact h
  | some n => exact List.mem_of_mem_take h

theorem cut_nil {α : Type} (limit : Option ℤ) : cut limit ([] : List α) = [] := by
  cases limit with
  | none => rfl
  | some n => exact List.take_nil

/-- What is left of the limit after `yielded` items. -/
def remaining (limit : Option ℤ) (yielded : ℕ) : Option ℤ := limit.map fun l => l - yielded

theorem cut_reached {α : Type} {limit : Option ℤ} {yielded : ℕ}
    (h : (limit.any fun l : ℤ => decide (l ≤ yielded)) = true) (l : List α) :
    cut (remaining limit yielded) l = [] := by
  cases limit with
  | none => cases h
  | some n =>
    have hle : n ≤ yielded := of_decide_eq_true h
    have hzero : (n - yielded : ℤ).toNat = 0 := Int.toNat_of_nonpos (by omega)
    show l.take (n - yielded : ℤ).toNat = []
    rw [hzero, List.take_zero]

theorem cut_cons {α : Type} {limit : Option ℤ} {yielded : ℕ}
    (h : ¬ (limit.any fun l : ℤ => decide (l ≤ yielded)) = true) (x : α) (l : List α) :
    cut (remaining limit yielded) (x :: l) = x :: cut (remaining limit (yielded + 1)) l := by
  cases limit with
  | none => rfl
  | some n =>
    have hlt : ¬ n ≤ yielded := fun hle => h (decide_eq_true hle)
    have hsucc : (n - yielded : ℤ).toNat = (n - (yielded + 1 : ℕ) : ℤ).toNat + 1 := by omega
    show (x :: l).take (n - yielded : ℤ).toNat = x :: l.take (n - (yielded + 1 : ℕ) : ℤ).toNat
    rw [hsucc, List.take_succ_cons]

namespace DBIterator

/-- The item of an entry, by the route its size takes. -/
def itemOf (store : Store K W) (native : NativeIterator) (e : Slice × Option Slice) : Item K W :=
  ⟨store.encoder.readKey e.1, e.2.map (if native.fitsInShared e.1 e.2 then store.decodeShared else store.decodeOwn)⟩

theorem next_of_item {it : DBIterator K W} {e : Slice × Option Slice}
    (hlimit : ¬ (it.limit.any fun l : ℤ => decide (l ≤ it.yielded)) = true)
    (h : it.iterator.handle.next.1 = some e) :
    it.next = (some (itemOf it.store it.iterator e),
      { it with iterator := { it.iterator with handle := it.iterator.handle.next.2 }, yielded := it.yielded + 1 }) := by
  obtain ⟨k, v⟩ := e
  have hn : it.iterator.handle.next = (some (k, v), it.iterator.handle.next.2) := Prod.ext h rfl
  rw [next, if_neg hlimit, NativeIterator.next, hn, itemOf]
  cases hfit : it.iterator.fitsInShared k v <;> simp only [hfit, Bool.false_eq_true, if_true, if_false]

theorem next_of_done {it : DBIterator K W} (h : it.iterator.handle.next.1 = none) : it.next.1 = none := by
  have hn : it.iterator.handle.next = (none, it.iterator.handle.next.2) := Prod.ext h rfl
  rw [next, NativeIterator.next, hn]
  split_ifs <;> rfl

/-- The iterator yields the items of what its handle yields, up to the limit. -/
theorem fetch_eq (n : ℕ) (it : DBIterator K W) {l : List (Slice × Option Slice)}
    (hl : ∀ n, it.iterator.handle.fetch n = l.take n) :
    it.fetch n = ((cut (remaining it.limit it.yielded) l).map (itemOf it.store it.iterator)).take n := by
  induction n generalizing it l with
  | zero => rw [fetch, List.take_zero]
  | succ n ih =>
    by_cases hlimit : (it.limit.any fun l : ℤ => decide (l ≤ it.yielded)) = true
    · rw [cut_reached hlimit, fetch, next, if_pos hlimit]
      rfl
    · rcases handle_yields_cases hl with ⟨hdone, rfl⟩ | ⟨x, rest, hitem, rfl, hrest⟩
      · have hstop := next_of_done hdone
        rw [cut_nil, fetch, show it.next = (none, it.next.2) from Prod.ext hstop rfl]
        rfl
      · rw [fetch, next_of_item hlimit hitem, cut_cons hlimit, List.map_cons, List.take_succ_cons]
        exact congrArg _ (ih _ hrest)

end DBIterator

/-- What a context's range is read from: the options' transaction is left aside. -/
def seen (committed : Database Slice) : GetContext Slice → OrderedTable Slice Slice
  | .database column => committed column
  | .databaseWith column _ => committed column
  | .transaction t => t.view committed none t.column

theorem fetch_newDatabaseIterator (table : OrderedTable Slice Slice) (o : DBIteratorOptions) (n : ℕ) :
    (newDatabaseIterator table o).fetch n = (rangeItems table o).take n := by
  rw [newDatabaseIterator, DBIteratorHandle.fetch_seek o (items_bounded _ o), rangeItems, items_inRange]
  rfl

theorem fetch_newNativeIterator (committed : Database Slice) (o : DBIteratorOptions) (ctx : GetContext Slice) (n : ℕ) :
    (newNativeIterator committed o ctx).fetch n = (rangeItems (seen committed ctx) o).take n := by
  match ctx with
  | .database column => exact fetch_newDatabaseIterator (committed column) o n
  | .databaseWith column _ => exact fetch_newDatabaseIterator (committed column) o n
  | .transaction t => exact TransactionHandle.fetch_newIterator n

/-- The native options that `getRange` resolves its own to. -/
structure Resolves (enc : KeyEncoder K) (o : IteratorOptions K) (native : DBIteratorOptions) : Prop where
  start : native.startKey = (o.startUnencoded enc).map enc.encode
  last : native.endKey = (o.endUnencoded enc).map enc.encode
  reverse : native.reverse = o.isReverse
  exclusiveStart : native.exclusiveStart = o.exclusiveStartFlag
  inclusiveEnd : native.inclusiveEnd = o.inclusiveEndFlag
  values : native.values = o.includeValues

theorem getRange_of_fits (store : Store K W) (keyBuffer : KeyBuffer) (committed : Database Slice)
    (ctx : GetContext Slice) {o : IteratorOptions K}
    (h : store.encoder.BoundsFit (o.startUnencoded store.encoder) (o.endUnencoded store.encoder)) :
    ∃ it native, store.getRange keyBuffer committed ctx o = .ok it ∧ Resolves store.encoder o native
      ∧ it.iterator.needsStableValueBuffer = (o.includeValues && !store.decoderCopies)
      ∧ ∀ n, it.fetch n = ((cut o.limit (rangeItems (seen committed ctx) native)).map
        (DBIterator.itemOf store it.iterator)).take n := by
  obtain ⟨b, hb, htaken⟩ := KeyEncoder.writeBounds_of_fits h keyBuffer
  rw [Store.getRange, hb]
  refine ⟨_, b.iteratorOptions o.isReverse o.exclusiveStartFlag o.inclusiveEndFlag o.includeValues, rfl,
    ⟨(htaken _ _ _ _).1, (htaken _ _ _ _).2, rfl, rfl, rfl, rfl⟩, rfl, fun n => ?_⟩
  rw [DBIterator.fetch_eq n _ (fun n => fetch_newNativeIterator committed _ ctx n)]
  have hfull : remaining o.limit 0 = o.limit := by
    rw [remaining]
    cases o.limit <;> simp
  simp only [hfull]

theorem fits_of_getRange {store : Store K W} {keyBuffer : KeyBuffer} {committed : Database Slice}
    {ctx : GetContext Slice} {o : IteratorOptions K} {it : DBIterator K W}
    (h : store.getRange keyBuffer committed ctx o = .ok it) :
    store.encoder.BoundsFit (o.startUnencoded store.encoder) (o.endUnencoded store.encoder) := by
  unfold Store.getRange at h
  split at h
  · cases h
  · rename_i hb
    exact KeyEncoder.fits_of_writeBounds hb

theorem eq_of_take_eq {α : Type} {l m : List α} (h : ∀ n, l.take n = m.take n) : l = m := by
  have hall := h (l.length + m.length)
  rwa [List.take_of_length_le (by omega), List.take_of_length_le (by omega)] at hall

end Ranges
end RocksdbJs
