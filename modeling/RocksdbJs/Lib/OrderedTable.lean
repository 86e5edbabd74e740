import Mathlib.Data.List.Lex
import RocksdbJs.Lib.SortedVec

/-! A table over ordered keys as a log-structured store keeps it: an index of the
keys it may hold, and the value of each. A deleted key may stay in the index.
Writes not yet applied are a table of their own, laid over the first. -/

structure OrderedTable (K V : Type*) [LinearOrder K] where
  keys : SortedVec K
  value : K → Option V
  covered : ∀ k v, value k = some v → k ∈ keys

namespace OrderedTable

variable {K V : Type*} [LinearOrder K]

def empty : OrderedTable K V := ⟨SortedVec.empty, fun _ => none, fun _ _ h => by cases h⟩

/-- Write `v` under `k`, or delete `k`. -/
def write (t : OrderedTable K V) (k : K) (v : Option V) : OrderedTable K V where
  keys := t.keys.insert k
  value j := if j = k then v else t.value j
  covered j w h := by
    rw [SortedVec.mem_insert]
    split_ifs at h with he
    · exact Or.inl he
    · exact Or.inr (t.covered j w h)

@[simp] theorem value_write (t : OrderedTable K V) (k j : K) (v : Option V) :
    (t.write k v).value j = if j = k then v else t.value j := rfl

/-- The two indexes together. -/
def mergeKeys (base : SortedVec K) (ks : List K) : SortedVec K := ks.foldl (fun s k => s.insert k) base

theorem mem_mergeKeys {k : K} (base : SortedVec K) (ks : List K) : k ∈ mergeKeys base ks ↔ k ∈ base ∨ k ∈ ks := by
  induction ks generalizing base with
  | nil => simp [mergeKeys]
  | cons j ks ih =>
    have hcons : mergeKeys base (j :: ks) = mergeKeys (base.insert j) ks := rfl
    rw [hcons, ih, SortedVec.mem_insert, List.mem_cons]
    tauto

/-- `base` under the writes `delta`, where a written `none` is a deletion. -/
def overlay (base : OrderedTable K V) (delta : OrderedTable K (Option V)) : OrderedTable K V where
  keys := mergeKeys base.keys delta.keys.elems
  value k := (delta.value k).getD (base.value k)
  covered k v h := by
    rw [mem_mergeKeys]
    cases hd : delta.value k with
    | some w => exact Or.inr (delta.covered k w hd)
    | none =>
      rw [hd, Option.getD_none] at h
      exact Or.inl (base.covered k v h)

@[simp] theorem value_overlay (base : OrderedTable K V) (delta : OrderedTable K (Option V)) (k : K) :
    (base.overlay delta).value k = (delta.value k).getD (base.value k) := rfl

/-- The entries whose keys satisfy `p`, in key order. -/
def items (t : OrderedTable K V) (p : K → Bool) : List (K × V) :=
  t.keys.elems.filterMap fun k => if p k then (t.value k).map fun v => (k, v) else none

theorem mem_items {t : OrderedTable K V} {p : K → Bool} {k : K} {v : V} :
    (k, v) ∈ t.items p ↔ p k = true ∧ t.value k = some v := by
  simp only [items, List.mem_filterMap]
  constructor
  · rintro ⟨j, -, hj⟩
    split_ifs at hj with hp
    obtain ⟨w, hw, he⟩ := Option.map_eq_some_iff.mp hj
    obtain ⟨rfl, rfl⟩ := Prod.mk.inj he
    exact ⟨hp, hw⟩
  · rintro ⟨hp, hv⟩
    exact ⟨k, t.covered k v hv, by rw [if_pos hp, hv]; rfl⟩

theorem items_sorted (t : OrderedTable K V) (p : K → Bool) : (t.items p).Pairwise (·.1 < ·.1) := by
  rw [items, List.pairwise_filterMap]
  apply t.keys.sorted.imp
  intro j k hjk a ha b hb
  split_ifs at ha hb
  obtain ⟨-, -, rfl⟩ := Option.map_eq_some_iff.mp ha
  obtain ⟨-, -, rfl⟩ := Option.map_eq_some_iff.mp hb
  exact hjk

/-- Two lists of entries that ascend strictly and hold the same entries are one. -/
theorem eq_of_ascending {l m : List (K × V)} (hl : l.Pairwise (·.1 < ·.1)) (hm : m.Pairwise (·.1 < ·.1))
    (h : ∀ e, e ∈ l ↔ e ∈ m) : l = m := by
  have hne : ∀ {x y : K × V}, x.1 < y.1 → x ≠ y := fun hlt he => absurd (he ▸ hlt) (lt_irrefl _)
  have hperm : l.Perm m := (List.perm_ext_iff_of_nodup (hl.imp hne) (hm.imp hne)).mpr h
  exact hperm.eq_of_pairwise (fun x y _ _ hxy hyx => absurd (hxy.trans hyx) (lt_irrefl _)) hl hm

theorem items_congr {t u : OrderedTable K V} {p : K → Bool} (h : ∀ k, p k = true → t.value k = u.value k) :
    t.items p = u.items p := by
  apply eq_of_ascending (t.items_sorted p) (u.items_sorted p)
  rintro ⟨k, v⟩
  rw [mem_items, mem_items]
  constructor
  · exact fun hk => ⟨hk.1, (h k hk.1).symm.trans hk.2⟩
  · exact fun hk => ⟨hk.1, (h k hk.1).trans hk.2⟩

/-- A count of the entries over any index that covers them. -/
theorem countP_items (t : OrderedTable K V) (p : K → Bool) (q : K × V → Bool) {ks : SortedVec K}
    (h : ∀ k v, t.value k = some v → k ∈ ks) :
    (t.items p).countP q = ks.elems.countP fun k => p k && (t.value k).any fun v => q (k, v) := by
  have hitems : t.items p = OrderedTable.items ⟨ks, t.value, h⟩ p := items_congr fun _ _ => rfl
  rw [hitems, items, List.countP_filterMap]
  congr 1
  funext k
  cases p k
  · rfl
  · cases t.value k
    all_goals rfl

theorem length_items (t : OrderedTable K V) (p : K → Bool) {ks : SortedVec K} (h : ∀ k v, t.value k = some v → k ∈ ks) :
    (t.items p).length = ks.elems.countP fun k => p k && (t.value k).isSome := by
  rw [← List.countP_true, countP_items t p _ h]
  rfl

/-- The keys that writes bring in, and those that they take out. -/
def added (base : OrderedTable K V) (delta : OrderedTable K (Option V)) (p : K → Bool) : ℕ :=
  (delta.items p).countP fun e => e.2.isSome && (base.value e.1).isNone

def removed (base : OrderedTable K V) (delta : OrderedTable K (Option V)) (p : K → Bool) : ℕ :=
  (delta.items p).countP fun e => e.2.isNone && (base.value e.1).isSome

theorem length_items_overlay (base : OrderedTable K V) (delta : OrderedTable K (Option V)) (p : K → Bool) :
    ((base.overlay delta).items p).length + base.removed delta p = (base.items p).length + base.added delta p := by
  have hbase : ∀ k v, base.value k = some v → k ∈ mergeKeys base.keys delta.keys.elems :=
    fun k v hv => (mem_mergeKeys _ _).mpr (Or.inl (base.covered k v hv))
  have hdelta : ∀ k v, delta.value k = some v → k ∈ mergeKeys base.keys delta.keys.elems :=
    fun k v hv => (mem_mergeKeys _ _).mpr (Or.inr (delta.covered k v hv))
  rw [length_items _ p (base.overlay delta).covered, length_items base p hbase, removed, added,
    countP_items delta p _ hdelta,
    countP_items delta p _ hdelta]
  change (mergeKeys base.keys delta.keys.elems).elems.countP _ + _ = _
  -- key by key: a write brings the key in, takes it out, or leaves it there or away
  induction (mergeKeys base.keys delta.keys.elems).elems with
  | nil => rfl
  | cons k ks ih =>
    simp only [List.countP_cons, value_overlay] at ih ⊢
    cases p k
    · simpa using ih
    · cases hd : delta.value k with
      | none =>
        cases hb : base.value k
        all_goals simp
        all_goals omega
      | some w =>
        cases w
        all_goals cases hb : base.value k
        all_goals simp
        all_goals omega

/-- Writes that are all outside leave the entries as they are. -/
theorem added_eq_zero (base : OrderedTable K V) {delta : OrderedTable K (Option V)} {p : K → Bool}
    (h : delta.items p = []) :
    base.added delta p = 0 ∧ base.removed delta p = 0 := by
  rw [added, removed, h]
  exact ⟨rfl, rfl⟩

end OrderedTable
