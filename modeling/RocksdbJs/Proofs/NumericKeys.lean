import RocksdbJs.Sanity.RangeBounds

/-! Ranges over `'uint32'` keys. A key is written with its lowest byte first and compared bytewise, so keys come in the
order of their bytes reversed; that is the numeric order only where the two agree on what is stored. -/

namespace RocksdbJs
namespace Ranges
open Reads

variable {W : Type}

/-- The number with its four bytes the other way round. -/
def byteSwap (n : ℕ) : ℕ := n % 256 * 16777216 + n / 256 % 256 * 65536 + n / 65536 % 256 * 256 + n / 16777216 % 256

/-- The order of four digits, the first one counting most. -/
theorem digits_lt_iff {a b c d a' b' c' d' : ℕ} (hb : b < 256) (hc : c < 256) (hd : d < 256)
    (hb' : b' < 256) (hc' : c' < 256) (hd' : d' < 256) :
    (a < a' ∨ a = a' ∧ (b < b' ∨ b = b' ∧ (c < c' ∨ c = c' ∧ d < d'))) ↔
      a * 16777216 + b * 65536 + c * 256 + d < a' * 16777216 + b' * 65536 + c' * 256 + d' := by
  constructor
  · rintro (h | ⟨rfl, h | ⟨rfl, h | ⟨rfl, h⟩⟩⟩) <;> omega
  · intro h
    by_cases ha : a = a'
    · refine Or.inr ⟨ha, ?_⟩
      by_cases hbb : b = b'
      · refine Or.inr ⟨hbb, ?_⟩
        by_cases hcc : c = c'
        · exact Or.inr ⟨hcc, by omega⟩
        · exact Or.inl (by omega)
      · exact Or.inl (by omega)
    · exact Or.inl (by omega)

/-- Bytewise the reversed numbers are compared. -/
theorem le32_lt_iff (m n : ℕ) : LengthPrefixed.le32 m < LengthPrefixed.le32 n ↔ byteSwap m < byteSwap n := by
  have hlt : ∀ x : ℕ, x % 256 < 256 := fun x => Nat.mod_lt x (by decide)
  rw [byteSwap, byteSwap, ← digits_lt_iff (hlt _) (hlt _) (hlt _) (hlt _) (hlt _) (hlt _)]
  simp only [LengthPrefixed.le32, List.cons_lt_cons_iff, Fin.lt_def, Fin.ext_iff, Fin.val_ofNat, List.not_lt_nil,
    and_false, or_false]

theorem le32_le_iff (m n : ℕ) : LengthPrefixed.le32 m ≤ LengthPrefixed.le32 n ↔ byteSwap m ≤ byteSwap n := by
  rw [← not_lt, ← not_lt, le32_lt_iff]

/-- `readKey` inverts `writeKey`. -/
theorem uint32_readKey_encode (k : Fin (2 ^ 32)) : KeyEncoder.uint32.readKey (KeyEncoder.uint32.encode k) = k := by
  have hread : LengthPrefixed.readLE32 (LengthPrefixed.le32 k) 0 = some k.val :=
    LengthPrefixed.readLE32_of_le32 k.isLt (List.prefix_refl _)
  simp only [KeyEncoder.uint32, hread, Option.getD_some]
  exact Fin.ofNat_val_eq_self k

/-- The key is stored. -/
def Holds (db : KeyedDatabase KeyEncoder.uint32) (column : ℕ) (k : Fin (2 ^ 32)) : Prop :=
  ((db.columns column).value (KeyEncoder.uint32.encode k)).isSome

/-- `readKey` inverts `writeKey`, and a range from `start` to `last` yields the stored keys in
between in numeric order. -/
def NumericOrder (decoder : Option (Decoder W)) (keyBuffer : KeyBuffer)
    (db : KeyedDatabase KeyEncoder.uint32) (column : ℕ) (start last : Fin (2 ^ 32)) : Prop :=
  (∀ k, KeyEncoder.uint32.readKey (KeyEncoder.uint32.encode k) = k)
    ∧ ∃ (it : DBIterator (Fin (2 ^ 32)) W) (keys : List (Fin (2 ^ 32))),
      Store.getRange ⟨KeyEncoder.uint32, decoder⟩ keyBuffer db.columns (.database column)
        { startKey := some start, endKey := some last } = .ok it
        ∧ keys.Pairwise (· < ·) ∧ (∀ k, k ∈ keys ↔ Holds db column k ∧ start ≤ k ∧ k < last)
        ∧ ∀ n, (it.fetch n).map Item.key = keys.take n

/-- On the stored keys the reversed numbers have the order of the numbers: they are in the range alike, and those in it
ascend alike. -/
structure BytesAgree (db : KeyedDatabase KeyEncoder.uint32) (column : ℕ) (start last : Fin (2 ^ 32)) : Prop where
  bounds : ∀ k, Holds db column k → (byteSwap start ≤ byteSwap k ∧ byteSwap k < byteSwap last ↔ start ≤ k ∧ k < last)
  order : ∀ j k, Holds db column j → Holds db column k → start ≤ j → k < last → j < k → byteSwap j < byteSwap k

/-- The keys of a range as they come, by the reversed numbers. -/
theorem uint32_keys (decoder : Option (Decoder W)) (keyBuffer : KeyBuffer)
    (db : KeyedDatabase KeyEncoder.uint32) (column : ℕ) (start last : Fin (2 ^ 32)) :
    ∃ (it : DBIterator (Fin (2 ^ 32)) W) (keys : List (Fin (2 ^ 32))),
      Store.getRange ⟨KeyEncoder.uint32, decoder⟩ keyBuffer db.columns (.database column)
      { startKey := some start, endKey := some last } = .ok it
        ∧ keys.Pairwise (fun j k : Fin (2 ^ 32) => byteSwap j < byteSwap k)
        ∧ (∀ k, k ∈ keys ↔ Holds db column k ∧ byteSwap start ≤ byteSwap k ∧ byteSwap k < byteSwap last)
        ∧ ∀ n, (it.fetch n).map Item.key = keys.take n := by
  have hfits : KeyEncoder.uint32.BoundsFit (some start) (some last) := by
    have hfour : ∀ k, (KeyEncoder.uint32.encode k).length = 4 := fun _ => rfl
    refine ⟨fun k _ => ⟨?_, ?_⟩, fun k _ => Or.inr ⟨?_, ?_⟩⟩
    · rw [hfour]
      decide
    · rw [hfour]
      decide
    · rw [hfour]
      decide
    · rw [KeyEncoder.span, Option.elim_some, hfour, hfour]
      decide
  obtain ⟨it, native, hget, hnative, -, hfetch⟩ :=
    getRange_of_fits (⟨KeyEncoder.uint32, decoder⟩ : Store _ W) keyBuffer db.columns (.database column)
    (o := { startKey := some start, endKey := some last }) hfits
  have hin : ∀ k : Fin (2 ^ 32), native.inRange (KeyEncoder.uint32.encode k) = true ↔ byteSwap start ≤ byteSwap k ∧
      byteSwap k < byteSwap last := by
    intro k
    have hs : native.startKey = some (KeyEncoder.uint32.encode start) := hnative.start
    have he : native.endKey = some (KeyEncoder.uint32.encode last) := hnative.last
    have hx : native.exclusiveStart = false := hnative.exclusiveStart
    have hi : native.inclusiveEnd = false := hnative.inclusiveEnd
    rw [← le32_le_iff, ← le32_lt_iff, DBIteratorOptions.inRange, DBIteratorOptions.inBounds,
      DBIteratorOptions.upperBound, DBIteratorOptions.excludes,
      hs, he, hx, hi, Bool.false_and, Bool.not_false, Bool.and_true, Bool.and_eq_true]
    exact and_congr decide_eq_true_iff decide_eq_true_iff
  have hkey : ∀ e ∈ (db.columns column).items native.inRange,
      KeyEncoder.uint32.encode (KeyEncoder.uint32.readKey e.1) = e.1 := by
    intro e he
    obtain ⟨k, hk⟩ := db.written column e.1 e.2 (OrderedTable.mem_items.mp he).2
    rw [← hk, uint32_readKey_encode]
  refine ⟨it, ((db.columns column).items native.inRange).map fun e => KeyEncoder.uint32.readKey e.1, hget, ?_,
    fun k => ?_, fun n => ?_⟩
  · rw [List.pairwise_map]
    apply ((db.columns column).items_sorted native.inRange).imp_of_mem
    intro a b ha hb hlt
    rw [← hkey a ha, ← hkey b hb] at hlt
    exact (le32_lt_iff _ _).mp hlt
  · rw [List.mem_map, ← hin k]
    constructor
    · rintro ⟨e, he, rfl⟩
      obtain ⟨hr, hv⟩ := OrderedTable.mem_items.mp he
      rw [Holds, hkey e he]
      exact ⟨by rw [hv]; rfl, hr⟩
    · rintro ⟨hk, hr⟩
      obtain ⟨v, hv⟩ := Option.isSome_iff_exists.mp hk
      exact ⟨(KeyEncoder.uint32.encode k, v), OrderedTable.mem_items.mpr ⟨hr, hv⟩, uint32_readKey_encode k⟩
  · have hforward : native.reverse = false := hnative.reverse
    rw [hfetch, List.map_take, List.map_map, cut, rangeItems, hforward]
    simp only [Bool.false_eq_true, if_false, Option.elim_none, List.map_map]
    rfl

/-- `'uint32'` keys come in numeric order exactly when their reversed numbers agree with it on what is stored. -/
theorem numeric_order_iff (decoder : Option (Decoder W)) (keyBuffer : KeyBuffer)
    (db : KeyedDatabase KeyEncoder.uint32) (column : ℕ) (start last : Fin (2 ^ 32)) :
    NumericOrder decoder keyBuffer db column start last ↔ BytesAgree db column start last := by
  obtain ⟨it, keys, hget, hsorted, hmem, hfetch⟩ := uint32_keys decoder keyBuffer db column start last
  constructor
  · rintro ⟨-, it', keys', hget', hascending, hexact, hfetch'⟩
    obtain rfl := Except.ok.inj (hget.symm.trans hget')
    obtain rfl : keys = keys' := eq_of_take_eq fun n => (hfetch n).symm.trans (hfetch' n)
    refine ⟨fun k hk => ?_, fun j k hj hk hstart hlast hlt => ?_⟩
    · have hiff := (hmem k).symm.trans (hexact k)
      exact ⟨fun h => (hiff.mp ⟨hk, h⟩).2, fun h => (hiff.mpr ⟨hk, h⟩).2⟩
    · have hboth : keys.Pairwise fun j k : Fin (2 ^ 32) => (j < k → byteSwap j < byteSwap k) ∧
          (k < j → byteSwap k < byteSwap j) :=
        (hascending.and hsorted).imp fun h => ⟨fun _ => h.2, fun hgt => absurd hgt (lt_asymm h.1)⟩
      have hj' := (hexact j).mpr ⟨hj, hstart, hlt.trans hlast⟩
      have hk' := (hexact k).mpr ⟨hk, hstart.trans hlt.le, hlast⟩
      have hsymm : Std.Symm fun j k : Fin (2 ^ 32) => (j < k → byteSwap j < byteSwap k) ∧
          (k < j → byteSwap k < byteSwap j) := ⟨fun _ _ h => h.symm⟩
      exact (hboth.forall hj' hk' hlt.ne).1 hlt
  · intro h
    refine ⟨uint32_readKey_encode, it, keys, hget, ?_, fun k => ?_, hfetch⟩
    · apply hsorted.imp_of_mem
      intro j k hj hk hlt
      obtain ⟨hj, hjr⟩ := (hmem j).mp hj
      obtain ⟨hk, hkr⟩ := (hmem k).mp hk
      rcases lt_trichotomy j k with hjk | rfl | hkj
      · exact hjk
      · exact absurd hlt (lt_irrefl _)
      · exact absurd hlt (lt_asymm (h.order k j hk hj ((h.bounds k hk).mp hkr).1 ((h.bounds j hj).mp hjr).2 hkj))
    · rw [hmem]
      exact and_congr_right fun hk => h.bounds k hk

/-- Two keys written with their bytes. -/
def twoNumbers : KeyedDatabase KeyEncoder.uint32 where
  columns := fun _ => (OrderedTable.empty.write (KeyEncoder.uint32.encode 1) (some [7])).write
    (KeyEncoder.uint32.encode 256) (some [8])
  written := fun _ j v h => by
    rw [OrderedTable.value_write, OrderedTable.value_write] at h
    split_ifs at h with h1 h2
    · exact ⟨256, h1.symm⟩
    · exact ⟨1, h2.symm⟩
    · cases h

/-- Of the keys 1 and 256 a range from 0 to 300 yields the second first, and one from 0 to 512 leaves the first out. -/
theorem uint32_out_of_order :
    ¬ NumericOrder (W := ℕ) none blankBuffer twoNumbers 0 0 300
      ∧ (Store.getRange (⟨KeyEncoder.uint32, none⟩ : Store (Fin (2 ^ 32)) ℕ) blankBuffer
        twoNumbers.columns (.database 0)
          { startKey := some 0, endKey := some 300 }).map (fun it => (it.fetch 2).map Item.key) = .ok [256, 1]
      ∧ (Store.getRange (⟨KeyEncoder.uint32, none⟩ : Store (Fin (2 ^ 32)) ℕ) blankBuffer
        twoNumbers.columns (.database 0)
          { startKey := some 0, endKey := some 512 }).map (fun it => (it.fetch 2).map Item.key) = .ok [256] := by
  refine ⟨?_, rfl, rfl⟩
  rintro ⟨-, it, keys, hget, hascending, -, hfetch⟩
  have htwo : keys.take 2 = [256, 1] := by
    obtain rfl := Except.ok.inj hget
    exact (hfetch 2).symm
  have hsorted : ([256, 1] : List (Fin (2 ^ 32))).Pairwise (· < ·) :=
    htwo ▸ hascending.sublist (List.take_sublist 2 keys)
  exact absurd hsorted (by decide)

end Ranges
end RocksdbJs
