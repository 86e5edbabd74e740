import RocksdbJs.Sanity.RangeBounds

/-! The range law of `Store.getRange`: which keys come, in which order, how many, and with which values. The `key`
option is served as a range from the key to itself, and the two flags of a range apply to it as well. -/

namespace RocksdbJs
namespace Ranges
open Reads

variable {K W : Type}

/-- Nothing lies between a byte string and itself with a zero byte behind it. -/
theorem lt_append_zero_iff {k e : Slice} : k < e ++ [0] ↔ k ≤ e := by
  rw [← not_lt]
  induction e generalizing k with
  | nil =>
    cases k with
    | nil => simp
    | cons a k =>
      have hnot : ¬ a :: k < [] ++ [0] := by
        rw [List.nil_append, List.cons_lt_cons_iff]
        rintro (h | ⟨-, h⟩)
        · exact absurd h (Fin.not_lt_zero a)
        · exact absurd h (List.not_lt_nil k)
      exact iff_of_false hnot (fun h => h (List.nil_lt_cons a k))
  | cons b e ih =>
    cases k with
    | nil => simp
    | cons a k =>
      rw [List.cons_append, List.cons_lt_cons_iff, List.cons_lt_cons_iff, ih]
      constructor
      · rintro (hlt | ⟨rfl, hle⟩)
        · rintro (hgt | ⟨rfl, -⟩)
          · exact absurd hlt (lt_asymm hgt)
          · exact absurd hlt (lt_irrefl _)
        · rintro (hgt | ⟨-, hgt⟩)
          · exact absurd hgt (lt_irrefl _)
          · exact hle hgt
      · intro hn
        rcases lt_trichotomy a b with hlt | rfl | hgt
        · exact Or.inl hlt
        · exact Or.inr ⟨rfl, fun hgt => hn (Or.inr ⟨rfl, hgt⟩)⟩
        · exact absurd (Or.inl hgt) hn

/-- A key encoding that preserves the order of the keys. -/
structure OrderedKeyEncoder (K : Type) [LinearOrder K] extends KeyEncoder K where
  encode_lt : ∀ a b, encode a < encode b ↔ a < b
  readKey_encode : ∀ k, readKey (encode k) = k

theorem IteratorOptions.exclusiveStartFlag_eq (o : IteratorOptions K) :
    o.exclusiveStartFlag = o.exclusiveStart.getD o.isReverse := by
  rw [exclusiveStartFlag]
  cases o.isReverse <;> rfl

section
variable [LinearOrder K]

/-- One key comes before another in the direction of the range. -/
def Before (reverse : Bool) (a b : K) : Prop := if reverse then b < a else a < b

/-- The entries of a table whose keys are asked for, each once and in the direction of the range. -/
structure IsRange (enc : KeyEncoder K) (table : OrderedTable Slice Slice) (reverse : Bool) (asked : K → Prop)
    (entries : List (K × Slice)) : Prop where
  ordered : entries.Pairwise fun a b => Before reverse a.1 b.1
  exact : ∀ k v, (k, v) ∈ entries ↔ table.value (enc.encode k) = some v ∧ asked k

namespace IteratorOptions

variable (o : IteratorOptions K)

/-- The end of the range in reverse. -/
def lower : Option K := if o.isReverse then o.endKey else o.startKey

def upper : Option K := if o.isReverse then o.startKey else o.endKey

/-- The keys that the options ask for: the one of the `key` option, or those of the range. What is
left out at the lower bound and what is kept at the upper one is said by `exclusiveStart` and
`inclusiveEnd`, both on by default in reverse only. -/
def Selected (k : K) : Prop :=
  match o.key with
  | some q => k = q
  | none => (∀ l, o.lower = some l → l ≤ k ∧ (o.exclusiveStart.getD o.isReverse = true → k ≠ l))
      ∧ ∀ u, o.upper = some u → k ≤ u ∧ (o.inclusiveEnd.getD o.isReverse = false → k ≠ u)

/-- The keys between the bounds as `getRange` resolves them. -/
def Served (enc : KeyEncoder K) (k : K) : Prop :=
  (∀ l, o.startUnencoded enc = some l → l ≤ k ∧ (o.exclusiveStartFlag = true → k ≠ l))
    ∧ ∀ u, o.endUnencoded enc = some u → k ≤ u ∧ (o.inclusiveEndFlag = false → k ≠ u)

end IteratorOptions

theorem before_irrefl (reverse : Bool) (k : K) : ¬ Before reverse k k := by
  cases reverse <;> exact lt_irrefl k

theorem before_asymm {reverse : Bool} {a b : K} (h : Before reverse a b) : ¬ Before reverse b a := by
  cases reverse
  · exact lt_asymm h
  · exact lt_asymm h

/-- There is one such list. -/
theorem IsRange.unique {enc : KeyEncoder K} {table : OrderedTable Slice Slice} {reverse : Bool}
    {p q : K → Prop} {a b : List (K × Slice)} (ha : IsRange enc table reverse p a)
    (hb : IsRange enc table reverse q b) (h : ∀ k v, table.value (enc.encode k) = some v → (p k ↔ q k)) :
    a = b := by
  have hmem : ∀ e, e ∈ a ↔ e ∈ b := by
    rintro ⟨k, v⟩
    rw [ha.exact, hb.exact]
    exact and_congr_right fun hv => h k v hv
  have hne : ∀ {x y : K × Slice}, Before reverse x.1 y.1 → x ≠ y := fun hlt he => before_irrefl reverse _ (he ▸ hlt)
  have hperm : a.Perm b := (List.perm_ext_iff_of_nodup (ha.ordered.imp hne) (hb.ordered.imp hne)).mpr hmem
  exact hperm.eq_of_pairwise (fun x y _ _ hxy hyx => absurd hyx (before_asymm hxy)) ha.ordered hb.ordered

namespace OrderedKeyEncoder

variable (enc : OrderedKeyEncoder K)

theorem encode_inj {a b : K} : enc.encode a = enc.encode b ↔ a = b := by
  constructor
  · intro h
    rw [← enc.readKey_encode a, h, enc.readKey_encode]
  · rintro rfl
    rfl

theorem encode_le {a b : K} : enc.encode a ≤ enc.encode b ↔ a ≤ b := by
  rw [← not_lt, ← not_lt, enc.encode_lt]

/-- The native bounds hold the keys that the options resolve to. -/
theorem inRange_encode {o : IteratorOptions K} {native : DBIteratorOptions}
    (hstart : native.startKey = (o.startUnencoded enc.toKeyEncoder).map enc.encode)
    (hend : native.endKey = (o.endUnencoded enc.toKeyEncoder).map enc.encode)
    (hx : native.exclusiveStart = o.exclusiveStartFlag) (hi : native.inclusiveEnd = o.inclusiveEndFlag) (k : K) :
    native.inRange (enc.encode k) = true ↔ o.Served enc.toKeyEncoder k := by
  have hlow : ((native.startKey.all fun s => decide (s ≤ enc.encode k)) = true ∧
    native.excludes (enc.encode k) = false) ↔
      ∀ l, o.startUnencoded enc.toKeyEncoder = some l → l ≤ k ∧ (o.exclusiveStartFlag = true → k ≠ l) := by
    rw [DBIteratorOptions.excludes, hstart, hx]
    cases o.startUnencoded enc.toKeyEncoder with
    | none => simp
    | some l =>
      have hcomm : enc.encode l = enc.encode k ↔ k = l := enc.encode_inj.trans eq_comm
      simp [enc.encode_le, hcomm]
  have hup : (native.upperBound.all fun e => decide (enc.encode k < e)) = true ↔
      ∀ u, o.endUnencoded enc.toKeyEncoder = some u → k ≤ u ∧ (o.inclusiveEndFlag = false → k ≠ u) := by
    rw [DBIteratorOptions.upperBound, hend, hi]
    cases o.endUnencoded enc.toKeyEncoder with
    | none => simp
    | some u =>
      cases o.inclusiveEndFlag with
      | false => simp [lt_iff_le_and_ne, enc.encode_le, enc.encode_inj]
      | true => simp [lt_append_zero_iff, enc.encode_le]
  rw [IteratorOptions.Served, ← hlow, ← hup, DBIteratorOptions.inRange, DBIteratorOptions.inBounds]
  simp only [Bool.and_eq_true, Bool.not_eq_true']
  tauto

end OrderedKeyEncoder

/-- The entries whose keys satisfy `p` in the direction of the range, with the keys read back. -/
def decodedEntries (enc : KeyEncoder K) (table : OrderedTable Slice Slice) (reverse : Bool)
    (p : Slice → Bool) : List (K × Slice) :=
  (if reverse then (table.items p).reverse else table.items p).map fun e => (enc.readKey e.1, e.2)

theorem isRange_decodedEntries (enc : OrderedKeyEncoder K) {table : OrderedTable Slice Slice}
    (hwritten : ∀ j v, table.value j = some v → ∃ k, enc.encode k = j) (reverse : Bool) {p : Slice → Bool}
    {asked : K → Prop} (hasked : ∀ k, p (enc.encode k) = true ↔ asked k) :
    IsRange enc.toKeyEncoder table reverse asked (decodedEntries enc.toKeyEncoder table reverse p) := by
  have hkey : ∀ e ∈ table.items p, enc.encode (enc.readKey e.1) = e.1 := by
    rintro ⟨j, v⟩ he
    obtain ⟨k, rfl⟩ := hwritten j v (OrderedTable.mem_items.mp he).2
    exact congrArg enc.encode (enc.readKey_encode k)
  have hsorted : (table.items p).Pairwise fun a b => enc.readKey a.1 < enc.readKey b.1 := by
    apply (table.items_sorted p).imp_of_mem
    intro a b ha hb hlt
    rwa [← enc.encode_lt, hkey a ha, hkey b hb]
  constructor
  · rw [decodedEntries, List.pairwise_map]
    cases reverse with
    | false => exact hsorted
    | true => exact List.pairwise_reverse.mpr hsorted
  · intro k v
    have hmem : (k, v) ∈ decodedEntries enc.toKeyEncoder table reverse p ↔
        ∃ e ∈ table.items p, (enc.readKey e.1, e.2) = (k, v) := by
      rw [decodedEntries, List.mem_map]
      split_ifs
      · simp only [List.mem_reverse]
      · rfl
    rw [hmem, ← hasked k]
    constructor
    · rintro ⟨e, he, hkv⟩
      obtain ⟨rfl, rfl⟩ := Prod.mk.inj hkv
      obtain ⟨hin, hv⟩ := OrderedTable.mem_items.mp he
      rw [hkey e he]
      exact ⟨hv, hin⟩
    · rintro ⟨hv, hin⟩
      exact ⟨(enc.encode k, v), OrderedTable.mem_items.mpr ⟨hin, hv⟩, by rw [enc.readKey_encode]⟩

section Single

variable {enc : KeyEncoder K} {table : OrderedTable Slice Slice} {reverse : Bool} {limit : Option ℤ}
    {p : K → Prop} {q : K}
  {a b : List (K × Slice)}

/-- The range of one key. -/
theorem IsRange.single (hb : IsRange enc table reverse (· = q) b) :
    b = ((table.value (enc.encode q)).map fun v => (q, v)).toList := by
  apply hb.unique _ (fun _ _ _ => Iff.rfl)
  cases hv : table.value (enc.encode q) with
  | none =>
    refine ⟨List.Pairwise.nil, fun k v => iff_of_false List.not_mem_nil ?_⟩
    rintro ⟨hk, rfl⟩
    exact absurd (hv.symm.trans hk) (by simp)
  | some w =>
    refine ⟨List.pairwise_singleton _ _, fun k v => ?_⟩
    rw [Option.map_some, Option.toList_some, List.mem_singleton, Prod.mk.injEq]
    constructor
    · rintro ⟨rfl, rfl⟩
      exact ⟨hv, rfl⟩
    · rintro ⟨hk, rfl⟩
      exact ⟨rfl, Option.some.inj (hk.symm.trans hv)⟩

/-- What a range has to be for a cut of it to be the one key, if it is stored, and nothing else. -/
def CutToKey (enc : KeyEncoder K) (table : OrderedTable Slice Slice) (reverse : Bool) (limit : Option ℤ)
    (p : K → Prop) (q : K) : Prop :=
  (∀ k, (table.value (enc.encode k)).isSome → p k → k = q ∨
    (limit = some 1 ∧ (table.value (enc.encode q)).isSome ∧ Before reverse q k))
    ∧ ((table.value (enc.encode q)).isSome → p q)

theorem cut_singleton {α : Type} {limit : Option ℤ} (h : ¬ (limit.any fun l : ℤ => decide (l ≤ 0)) = true)
    (x : α) : cut limit [x] = [x] := by
  cases limit with
  | none => rfl
  | some n =>
    have hpos : ¬ n ≤ 0 := fun hle => h (decide_eq_true hle)
    exact List.take_of_length_le (by rw [List.length_singleton]; omega)

theorem cut_eq_nil {α : Type} {limit : Option ℤ} (h : ¬ (limit.any fun l : ℤ => decide (l ≤ 0)) = true)
    {l : List α} (hl : cut limit l = []) :
    l = [] := by
  cases limit with
  | none => exact hl
  | some n =>
    have hpos : ¬ n ≤ 0 := fun hle => h (decide_eq_true hle)
    exact (List.take_eq_nil_iff.mp hl).resolve_left (by omega)

/-- A cut to one entry: it is the first, and there is no other or the limit is one. -/
theorem cut_eq_singleton {α : Type} {limit : Option ℤ} {l : List α} {x : α} (hl : cut limit l = [x]) :
    ∃ rest, l = x :: rest ∧ (rest = [] ∨ limit = some 1) := by
  cases limit with
  | none => exact ⟨[], hl, Or.inl rfl⟩
  | some n =>
    have htake : l.take n.toNat = [x] := hl
    cases l with
    | nil => rw [List.take_nil] at htake; cases htake
    | cons y rest =>
      cases hn : n.toNat with
      | zero => rw [hn] at htake; cases htake
      | succ m =>
        rw [hn, List.take_succ_cons] at htake
        obtain ⟨rfl, hrest⟩ := List.cons.inj htake
        refine ⟨rest, rfl, ?_⟩
        rcases List.take_eq_nil_iff.mp hrest with rfl | hnil
        · exact Or.inr (congrArg some (by omega))
        · exact Or.inl hnil

theorem cutToKey_of_cut (ha : IsRange enc table reverse p a)
    (hlimit : ¬ (limit.any fun l : ℤ => decide (l ≤ 0)) = true)
    (h : cut limit a = ((table.value (enc.encode q)).map fun v => (q, v)).toList) :
    CutToKey enc table reverse limit p q := by
  cases hv : table.value (enc.encode q) with
  | none =>
    rw [hv] at h
    obtain rfl := cut_eq_nil hlimit h
    refine ⟨fun k hk hp => ?_, fun hq => absurd hq (by simp [hv])⟩
    obtain ⟨w, hw⟩ := Option.isSome_iff_exists.mp hk
    exact absurd ((ha.exact k w).mpr ⟨hw, hp⟩) List.not_mem_nil
  | some v =>
    rw [hv] at h
    obtain ⟨rest, rfl, hrest⟩ := cut_eq_singleton h
    refine ⟨fun k hk hp => ?_, fun _ => ((ha.exact q v).mp List.mem_cons_self).2⟩
    obtain ⟨w, hw⟩ := Option.isSome_iff_exists.mp hk
    rcases List.mem_cons.mp ((ha.exact k w).mpr ⟨hw, hp⟩) with he | hmem
    · exact Or.inl (Prod.mk.inj he).1
    · refine Or.inr ⟨hrest.resolve_left fun h0 => ?_, by rw [hv]; rfl, (List.pairwise_cons.mp ha.ordered).1 _ hmem⟩
      rw [h0] at hmem
      exact absurd hmem List.not_mem_nil

theorem cut_of_cutToKey (ha : IsRange enc table reverse p a)
    (hlimit : ¬ (limit.any fun l : ℤ => decide (l ≤ 0)) = true) (h : CutToKey enc table reverse limit p q) :
    cut limit a = ((table.value (enc.encode q)).map fun v => (q, v)).toList := by
  have hstored : ∀ e ∈ a, (table.value (enc.encode e.1)).isSome ∧ p e.1 := fun e he => by
    obtain ⟨hw, hp⟩ := (ha.exact e.1 e.2).mp he
    exact ⟨by rw [hw]; rfl, hp⟩
  cases hv : table.value (enc.encode q) with
  | none =>
    -- an entry would have to be the key itself, which is not stored
    have hnil : a = [] := by
      apply List.eq_nil_iff_forall_not_mem.mpr
      intro e he
      obtain ⟨hk, hp⟩ := hstored e he
      rcases h.1 e.1 hk hp with heq | ⟨-, hq, -⟩
      · rw [heq, hv] at hk
        cases hk
      · rw [hv] at hq
        cases hq
    rw [hnil]
    exact cut_nil limit
  | some v =>
    have hq : (q, v) ∈ a := (ha.exact q v).mpr ⟨hv, h.2 (by rw [hv]; rfl)⟩
    cases a with
    | nil => cases hq
    | cons e rest =>
      have hfirst : e = (q, v) := by
        rcases List.mem_cons.mp hq with heq | hmem
        · exact heq.symm
        · have hbefore := (List.pairwise_cons.mp ha.ordered).1 _ hmem
          obtain ⟨hk, hp⟩ := hstored e List.mem_cons_self
          rcases h.1 e.1 hk hp with heq | ⟨-, -, hafter⟩
          · exact absurd (heq ▸ hbefore) (before_irrefl reverse _)
          · exact absurd hafter (before_asymm hbefore)
      subst hfirst
      by_cases hone : limit = some 1
      · subst hone
        rfl
      · have hrest : rest = [] := by
          apply List.eq_nil_iff_forall_not_mem.mpr
          intro e he
          obtain ⟨hk, hp⟩ := hstored e (List.mem_cons_of_mem _ he)
          rcases h.1 e.1 hk hp with heq | ⟨hl, -, -⟩
          · exact absurd (heq ▸ (List.pairwise_cons.mp ha.ordered).1 e he) (before_irrefl reverse _)
          · exact hone hl
        rw [hrest]
        exact cut_singleton hlimit _

end Single

namespace IteratorOptions

variable {o : IteratorOptions K} {enc : KeyEncoder K} {q : K}

/-- Without a `key` option the bounds are resolved to what is asked for. -/
theorem served_iff_selected (hkey : o.key = none) (k : K) : o.Served enc k ↔ o.Selected k := by
  have hincl : o.inclusiveEndFlag = o.inclusiveEnd.getD o.isReverse := by
    rw [inclusiveEndFlag, hkey]
    cases o.isReverse <;> rfl
  rw [Served, Selected, startUnencoded, endUnencoded, keyOr, keyOr, hkey, exclusiveStartFlag_eq, hincl]
  rfl

/-- With one the range goes from the key to itself, and the flags say whether it is kept. -/
theorem served_key_iff (hkey : o.key = some q) (hnull : enc.isNull q = false) (k : K) :
    o.Served enc k ↔ k = q ∧ o.exclusiveStartFlag = false ∧ o.inclusiveEndFlag = true := by
  have hor : ∀ other, o.keyOr enc other = some q := fun other => by
    rw [keyOr, hkey]; exact if_neg (by rw [hnull]; exact Bool.false_ne_true)
  rw [Served, startUnencoded, endUnencoded, hor, hor]
  constructor
  · rintro ⟨hlow, hup⟩
    obtain ⟨hle, hx⟩ := hlow q rfl
    obtain ⟨hge, hi⟩ := hup q rfl
    have heq : k = q := le_antisymm hge hle
    exact ⟨heq, by simpa using fun h => hx h heq, by simpa using fun h => hi h heq⟩
  · rintro ⟨rfl, hx, hi⟩
    refine ⟨fun l hl => ?_, fun u hu => ?_⟩
    · obtain rfl := Option.some.inj hl
      exact ⟨le_rfl, fun h => absurd (hx.symm.trans h) Bool.false_ne_true⟩
    · obtain rfl := Option.some.inj hu
      exact ⟨le_rfl, fun h => absurd (h.symm.trans hi) Bool.false_ne_true⟩

end IteratorOptions

/-- The `key` option yields its key: the limit allows nothing, or the flags keep the key if it is
stored. A `null` is not taken as a key, and the range of the other options is served instead. -/
def KeyServed (enc : KeyEncoder K) (table : OrderedTable Slice Slice) (o : IteratorOptions K) : Prop :=
  ∀ q, o.key = some q → (o.limit.any fun l : ℤ => decide (l ≤ 0)) = true ∨
    if enc.isNull q then CutToKey enc table o.isReverse o.limit (o.Served enc) q
    else (table.value (enc.encode q)).isSome → o.exclusiveStartFlag = false ∧ o.inclusiveEndFlag = true

theorem cut_nonpositive {α : Type} {limit : Option ℤ} (h : (limit.any fun l : ℤ => decide (l ≤ 0)) = true)
    (l : List α) : cut limit l = [] := by
  cases limit with
  | none => cases h
  | some n =>
    have hle : n ≤ 0 := of_decide_eq_true h
    show l.take n.toNat = []
    rw [Int.toNat_of_nonpos hle, List.take_zero]

theorem cutToKey_of_kept {enc : KeyEncoder K} {table : OrderedTable Slice Slice} {o : IteratorOptions K}
    {q : K} (hkey : o.key = some q) (hnull : enc.isNull q = false) :
    CutToKey enc table o.isReverse o.limit (o.Served enc) q ↔
      ((table.value (enc.encode q)).isSome → o.exclusiveStartFlag = false ∧ o.inclusiveEndFlag = true) := by
  have hserved := fun k => IteratorOptions.served_key_iff hkey hnull k
  constructor
  · exact fun h hq => ((hserved q).mp (h.2 hq)).2
  · exact fun h => ⟨fun k _ hp => Or.inl ((hserved k).mp hp).1, fun hq => (hserved q).mpr ⟨rfl, h hq⟩⟩

/-- The keys served and the keys asked for are the same up to the limit. -/
theorem cut_eq_iff_keyServed {enc : KeyEncoder K} {table : OrderedTable Slice Slice}
    {o : IteratorOptions K} {a b : List (K × Slice)} (ha : IsRange enc table o.isReverse (o.Served enc) a)
    (hb : IsRange enc table o.isReverse o.Selected b) :
    cut o.limit a = cut o.limit b ↔ KeyServed enc table o := by
  cases hkey : o.key with
  | none =>
    have heq : a = b := ha.unique hb fun k _ _ => IteratorOptions.served_iff_selected hkey k
    exact iff_of_true (congrArg _ heq) fun q hq => absurd (hkey.symm.trans hq) (by simp)
  | some q =>
    have hkeyed : KeyServed enc table o ↔ ((o.limit.any fun l : ℤ => decide (l ≤ 0)) = true ∨
        CutToKey enc table o.isReverse o.limit (o.Served enc) q) := by
      rw [KeyServed, hkey]
      simp only [Option.some.injEq, forall_eq']
      cases hnull : enc.isNull q with
      | true => simp only [if_true]
      | false =>
        rw [cutToKey_of_kept hkey hnull]
        simp only [Bool.false_eq_true, if_false]
    rw [hkeyed]
    by_cases hlimit : (o.limit.any fun l : ℤ => decide (l ≤ 0)) = true
    · exact iff_of_true ((cut_nonpositive hlimit a).trans (cut_nonpositive hlimit b).symm) (Or.inl hlimit)
    · have hselected : IsRange enc table o.isReverse (· = q) b := by
        have hsel : o.Selected = (· = q) := by
          funext k
          rw [IteratorOptions.Selected, hkey]
        rwa [hsel] at hb
      have hone : cut o.limit b = ((table.value (enc.encode q)).map fun v => (q, v)).toList := by
        rw [hselected.single]
        cases table.value (enc.encode q) with
        | none => exact cut_nil _
        | some v => exact cut_singleton hlimit _
      rw [hone]
      constructor
      · exact fun h => Or.inr (cutToKey_of_cut ha hlimit h)
      · exact fun h => cut_of_cutToKey ha hlimit (h.resolve_left hlimit)

end

/-- The item's value goes through the shared buffers. -/
def goesShared (store : Store K W) (e : K × Slice) : Bool :=
  store.decoderCopies && decide ((store.encoder.encode e.1).length ≤ keyBufferSize) &&
    decide (e.2.length ≤ valueBufferSize)

/-- The item of an entry as it is served, by its route. -/
def servedItem (store : Store K W) (o : IteratorOptions K) (e : K × Slice) : Item K W :=
  ⟨e.1, if o.includeValues then some (if goesShared store e then store.decodeShared e.2 else store.decodeOwn e.2)
    else none⟩

/-- The item of an entry whatever its route: its value is decoded from its own bytes. -/
def wantedItem (store : Store K W) (o : IteratorOptions K) (e : K × Slice) : Item K W :=
  ⟨e.1, if o.includeValues then some (store.decodeOwn e.2) else none⟩

/-- A decoder is called, and it leaves an empty value as it is. -/
def Undisturbed (store : Store K W) (value : Slice) : Prop :=
  ∃ f, store.decode = some f ∧ (value = [] → f [] = .buffer [])

theorem decodeShared_eq_iff (store : Store K W) (value : Slice) :
    store.decodeShared value = store.decodeOwn value ↔ Undisturbed store value := by
  rw [Store.decodeShared, Store.decodeOwn, Undisturbed]
  cases store.decode with
  | none => simp
  | some f =>
    cases value with
    | nil => simp
    | cons b bs => simp

theorem servedItem_eq_iff {store : Store K W} {o : IteratorOptions K} {e : K × Slice} :
    servedItem store o e = wantedItem store o e ↔
      (o.includeValues = true → goesShared store e = true → Undisturbed store e.2) := by
  rw [servedItem, wantedItem, ← decodeShared_eq_iff]
  cases o.includeValues with
  | false => simp
  | true => cases goesShared store e <;> simp

/-- The item of a stored entry is the one of its key. -/
theorem itemOf_eq {store : Store K W} {o : IteratorOptions K} {native : NativeIterator}
    (hstable : native.needsStableValueBuffer = (o.includeValues && !store.decoderCopies)) {e : Slice × Slice}
    (hkey : store.encoder.encode (store.encoder.readKey e.1) = e.1) :
    DBIterator.itemOf store native (e.1, if o.includeValues then some e.2 else none) = servedItem store o
      (store.encoder.readKey e.1, e.2) := by
  rw [DBIterator.itemOf, servedItem, NativeIterator.fitsInShared, hstable, goesShared, hkey]
  cases o.includeValues with
  | false => rfl
  | true =>
    have hroute : (decide (e.1.length ≤ keyBufferSize) &&
      (!(true && !store.decoderCopies) && decide (e.2.length ≤ valueBufferSize)))
        = (store.decoderCopies && decide (e.1.length ≤ keyBufferSize) && decide (e.2.length ≤ valueBufferSize)) := by
      cases store.decoderCopies <;> simp
    simp only [if_true, Option.all_some, hroute, Option.map_some]
    split_ifs <;> rfl

/-- Entries of one table are told by their keys. -/
theorem eq_of_keys_eq {enc : KeyEncoder K} {table : OrderedTable Slice Slice} {a b : List (K × Slice)}
    (ha : ∀ e ∈ a, table.value (enc.encode e.1) = some e.2) (hb : ∀ e ∈ b, table.value (enc.encode e.1) = some e.2)
    (h : a.map Prod.fst = b.map Prod.fst) : a = b := by
  have hback : ∀ {l : List (K × Slice)}, (∀ e ∈ l, table.value (enc.encode e.1) = some e.2) →
      (l.map Prod.fst).map (fun k => (k, (table.value (enc.encode k)).getD [])) = l := by
    intro l hl
    rw [List.map_map]
    nth_rewrite 2 [← List.map_id l]
    apply List.map_congr_left
    intro e he
    rw [Function.comp_apply, hl e he]
    rfl
  rw [← hback ha, h, hback hb]

section
variable [LinearOrder K]

/-- What the iterator yields, by the entries with their keys read back. -/
theorem served_items (enc : OrderedKeyEncoder K) {decoder : Option (Decoder W)}
    {table : OrderedTable Slice Slice} {o : IteratorOptions K}
    (hwritten : ∀ j v, table.value j = some v → ∃ k, enc.encode k = j) {native : DBIteratorOptions}
    (hnative : Resolves enc.toKeyEncoder o native) {it : NativeIterator}
    (hstable : it.needsStableValueBuffer = (o.includeValues &&
      !(⟨enc.toKeyEncoder, decoder⟩ : Store K W).decoderCopies)) :
    (cut o.limit (rangeItems table native)).map (DBIterator.itemOf ⟨enc.toKeyEncoder, decoder⟩ it)
      = (cut o.limit (decodedEntries enc.toKeyEncoder table o.isReverse native.inRange)).map
        (servedItem ⟨enc.toKeyEncoder, decoder⟩ o) := by
  rw [rangeItems, hnative.reverse, decodedEntries, cut_map, cut_map, List.map_map, List.map_map]
  apply List.map_congr_left
  intro e he
  have hitem : e ∈ table.items native.inRange := by
    have hmem := mem_of_mem_cut he
    split_ifs at hmem
    · exact List.mem_reverse.mp hmem
    · exact hmem
  obtain ⟨k, hk⟩ := hwritten e.1 e.2 (OrderedTable.mem_items.mp hitem).2
  have hkey : enc.encode (enc.readKey e.1) = e.1 := by rw [← hk, enc.readKey_encode]
  rw [Function.comp_apply, Function.comp_apply, hnative.values]
  exact itemOf_eq hstable hkey

/-- `getRange` of a database yields the entries that the options ask for, in order and up to the
limit, each with its key and the value of its own bytes. -/
def RangeLaw (store : Store K W) (keyBuffer : KeyBuffer) (committed : Database Slice) (column : ℕ)
    (o : IteratorOptions K) : Prop :=
  ∃ it entries, store.getRange keyBuffer committed (.database column) o = .ok it
    ∧ IsRange store.encoder (committed column) o.isReverse o.Selected entries
    ∧ ∀ n, it.fetch n = ((cut o.limit entries).map (wantedItem store o)).take n

/-- The bounds fit, a `key` option is kept by the flags, and no value is changed on its way through
the shared buffers. -/
structure LawKept (store : Store K W) (committed : Database Slice) (column : ℕ) (o : IteratorOptions K) : Prop where
  bounds : store.encoder.BoundsFit (o.startUnencoded store.encoder) (o.endUnencoded store.encoder)
  key : KeyServed store.encoder (committed column) o
  routes : ∀ entries, IsRange store.encoder (committed column) o.isReverse o.Selected entries → o.includeValues = true →
    ∀ e ∈ cut o.limit entries, goesShared store e = true → Undisturbed store e.2

theorem exists_selected (enc : OrderedKeyEncoder K) (db : KeyedDatabase enc.toKeyEncoder) (column : ℕ)
    (o : IteratorOptions K) :
    ∃ entries, IsRange enc.toKeyEncoder (db.columns column) o.isReverse o.Selected entries := by
  classical
  refine ⟨_, isRange_decodedEntries enc (db.written column) o.isReverse (p := fun j =>
    decide (o.Selected (enc.readKey j))) fun k => ?_⟩
  rw [decide_eq_true_iff, enc.readKey_encode]

/-- The law by the entries served and those asked for. -/
theorem rangeLaw_iff_of_served {enc : OrderedKeyEncoder K} {decoder : Option (Decoder W)}
    {keyBuffer : KeyBuffer} {db : KeyedDatabase enc.toKeyEncoder} {column : ℕ} {o : IteratorOptions K}
    {it : DBIterator K W} {served wanted : List (K × Slice)}
    (hget : Store.getRange ⟨enc.toKeyEncoder, decoder⟩ keyBuffer db.columns (.database column) o = .ok it)
    (hfetch : ∀ n, it.fetch n = ((cut o.limit served).map (servedItem ⟨enc.toKeyEncoder, decoder⟩ o)).take n)
    (hserved : IsRange enc.toKeyEncoder (db.columns column) o.isReverse (o.Served enc.toKeyEncoder) served)
    (hwanted : IsRange enc.toKeyEncoder (db.columns column) o.isReverse o.Selected wanted) :
    RangeLaw ⟨enc.toKeyEncoder, decoder⟩ keyBuffer db.columns column o ↔ cut o.limit served = cut o.limit wanted
      ∧ ∀ e ∈ cut o.limit wanted, servedItem (W := W) ⟨enc.toKeyEncoder, decoder⟩ o e =
        wantedItem ⟨enc.toKeyEncoder, decoder⟩ o e := by
  constructor
  · rintro ⟨it', entries, hget', hentries, hfetch'⟩
    obtain rfl : it = it' := Except.ok.inj (hget.symm.trans hget')
    obtain rfl : entries = wanted := hentries.unique hwanted fun _ _ _ => Iff.rfl
    have hitems := eq_of_take_eq fun n => (hfetch n).symm.trans (hfetch' n)
    have hcut : cut o.limit served = cut o.limit entries := by
      apply @eq_of_keys_eq _ enc.toKeyEncoder (db.columns column)
      · exact fun e he => ((hserved.exact e.1 e.2).mp (mem_of_mem_cut he)).1
      · exact fun e he => ((hentries.exact e.1 e.2).mp (mem_of_mem_cut he)).1
      · simpa only [List.map_map, Function.comp_def, servedItem, wantedItem] using congrArg (List.map Item.key) hitems
    rw [hcut] at hitems
    exact ⟨hcut, List.map_inj_left.mp hitems⟩
  · rintro ⟨hcut, hall⟩
    refine ⟨it, wanted, hget, hwanted, fun n => ?_⟩
    rw [hfetch, hcut, List.map_inj_left.mpr hall]

/-- Where the bounds fit, the law is about the `key` option and the routes. -/
theorem rangeLaw_iff_of_fits {enc : OrderedKeyEncoder K} {decoder : Option (Decoder W)}
    {o : IteratorOptions K}
    (hfits : enc.BoundsFit (o.startUnencoded enc.toKeyEncoder) (o.endUnencoded enc.toKeyEncoder))
    (keyBuffer : KeyBuffer) (db : KeyedDatabase enc.toKeyEncoder) (column : ℕ) {wanted : List (K × Slice)}
    (hwanted : IsRange enc.toKeyEncoder (db.columns column) o.isReverse o.Selected wanted) :
    RangeLaw ⟨enc.toKeyEncoder, decoder⟩ keyBuffer db.columns column o ↔
      KeyServed enc.toKeyEncoder (db.columns column) o
      ∧ ∀ e ∈ cut o.limit wanted, servedItem (W := W) ⟨enc.toKeyEncoder, decoder⟩ o e =
        wantedItem ⟨enc.toKeyEncoder, decoder⟩ o e := by
  obtain ⟨it, native, hget, hnative, hstable, hfetch⟩ :=
    getRange_of_fits (⟨enc.toKeyEncoder, decoder⟩ : Store K W) keyBuffer db.columns (.database column) hfits
  have hserved := isRange_decodedEntries enc (db.written column) o.isReverse
    (enc.inRange_encode hnative.start hnative.last hnative.exclusiveStart hnative.inclusiveEnd)
  have hyields := fun n => (hfetch n).trans (congrArg (List.take n)
    (served_items enc (db.written column) hnative hstable))
  rw [rangeLaw_iff_of_served hget hyields hserved hwanted, cut_eq_iff_keyServed hserved hwanted]

/-- `getRange` keeps the range law exactly when its bounds fit, a `key` option is kept by the flags,
and no value is changed on its way through the shared buffers. -/
theorem range_law_iff_kept (enc : OrderedKeyEncoder K) (decoder : Option (Decoder W))
    (keyBuffer : KeyBuffer) (db : KeyedDatabase enc.toKeyEncoder) (column : ℕ) (o : IteratorOptions K) :
    RangeLaw ⟨enc.toKeyEncoder, decoder⟩ keyBuffer db.columns column o ↔
      LawKept ⟨enc.toKeyEncoder, decoder⟩ db.columns column o := by
  by_cases hfits : enc.BoundsFit (o.startUnencoded enc.toKeyEncoder) (o.endUnencoded enc.toKeyEncoder)
  · obtain ⟨wanted, hwanted⟩ := exists_selected enc db column o
    rw [rangeLaw_iff_of_fits hfits keyBuffer db column hwanted]
    constructor
    · rintro ⟨hkey, hitems⟩
      refine ⟨hfits, hkey, fun entries hentries hvalues e he => ?_⟩
      obtain rfl : entries = wanted := hentries.unique hwanted fun _ _ _ => Iff.rfl
      exact servedItem_eq_iff.mp (hitems e he) hvalues
    · intro h
      exact ⟨h.key, fun e he => servedItem_eq_iff.mpr fun hvalues => h.routes wanted hwanted hvalues e he⟩
  · refine iff_of_false ?_ fun h => hfits h.bounds
    rintro ⟨it, entries, hget, -, -⟩
    exact hfits (fits_of_getRange hget)

end

/-- Buffers are ordered as their bytes are. -/
def binaryEncoder : OrderedKeyEncoder Slice where
  toKeyEncoder := KeyEncoder.binary
  encode_lt := fun _ _ => Iff.rfl
  readKey_encode := fun _ => rfl

/-- Every column family holds the key `[1]` with the value `[7]`. -/
def oneEntry : KeyedDatabase binaryEncoder.toKeyEncoder where
  columns := fun _ => OrderedTable.empty.write [1] (some [7])
  written := fun _ j _ _ => ⟨j, rfl⟩

/-- The stored key asked for in reverse: nothing is yielded, since in reverse the start of a range
is left out by default and the key is its own start. -/
theorem reverse_key_yields_nothing :
    ¬ RangeLaw (⟨binaryEncoder.toKeyEncoder, none⟩ : Store Slice ℕ) blankBuffer oneEntry.columns 0
      { key := some [1], reverse := some true }
      ∧ (Store.getRange (⟨binaryEncoder.toKeyEncoder, none⟩ : Store Slice ℕ) blankBuffer oneEntry.columns (.database 0)
          { key := some [1], reverse := some true }).map (DBIterator.fetch 1) = .ok []
      ∧ (oneEntry.columns 0).value [1] = some [7] := by
  refine ⟨?_, rfl, rfl⟩
  rintro ⟨it, entries, hget, hentries, hfetch⟩
  have hnone : it.fetch 1 = [] := by
    obtain rfl := Except.ok.inj hget
    rfl
  have hmem : (([1], [7]) : Slice × Slice) ∈ entries := (hentries.exact _ _).mpr ⟨rfl, rfl⟩
  have htake := (hfetch 1).symm.trans hnone
  cases entries with
  | nil => cases hmem
  | cons e rest => cases htake

end Ranges
end RocksdbJs
