import Mathlib.Data.List.Basic
import Mathlib.Tactic

/-! A finite map from natural keys, kept as an association list in ascending key
order, so that walking it visits the keys as an ordered map does. -/

@[ext] structure SeqMap (α : Type*) where
  entries : List (ℕ × α)
  sorted : (entries.map Prod.fst).Pairwise (· < ·)

namespace SeqMap

variable {α β : Type*}

def empty : SeqMap α := ⟨[], List.Pairwise.nil⟩

def keys (m : SeqMap α) : List ℕ := m.entries.map Prod.fst

/-- The value stored under `k`. -/
def get? (m : SeqMap α) (k : ℕ) : Option α := m.entries.lookup k

def setList (k : ℕ) (v : α) : List (ℕ × α) → List (ℕ × α)
  | [] => [(k, v)]
  | (j, w) :: m => if j < k then (j, w) :: setList k v m else if k < j then (k, v) :: (j, w) :: m else (k, v) :: m

theorem mem_keys_setList {k j : ℕ} {v : α} :
    ∀ {m : List (ℕ × α)}, j ∈ (setList k v m).map Prod.fst ↔ j = k ∨ j ∈ m.map Prod.fst
  | [] => by simp [setList]
  | (i, w) :: m => by
    have ih := mem_keys_setList (k := k) (j := j) (v := v) (m := m)
    unfold setList
    split_ifs with h1 h2
    · simp only [List.map_cons, List.mem_cons, ih]; tauto
    · simp only [List.map_cons, List.mem_cons]
    · obtain rfl : i = k := by omega
      simp only [List.map_cons, List.mem_cons]; tauto

theorem setList_sorted (k : ℕ) (v : α) : ∀ {m : List (ℕ × α)},
    (m.map Prod.fst).Pairwise (· < ·) → ((setList k v m).map Prod.fst).Pairwise (· < ·)
  | [], _ => by simp [setList]
  | (i, w) :: m, h => by
    rw [List.map_cons, List.pairwise_cons] at h
    unfold setList
    split_ifs with h1 h2
    · refine List.pairwise_cons.mpr ⟨fun z hz => ?_, setList_sorted k v h.2⟩
      rcases mem_keys_setList.mp hz with rfl | hz
      · exact h1
      · exact h.1 z hz
    · refine List.pairwise_cons.mpr ⟨fun z hz => ?_, List.pairwise_cons.mpr h⟩
      rcases List.mem_cons.mp hz with rfl | hz
      · exact h2
      · exact lt_trans h2 (h.1 z hz)
    · obtain rfl : i = k := by omega
      exact List.pairwise_cons.mpr h

/-- Insert or replace. -/
def set (m : SeqMap α) (k : ℕ) (v : α) : SeqMap α := ⟨setList k v m.entries, setList_sorted k v m.sorted⟩

def erase (m : SeqMap α) (k : ℕ) : SeqMap α :=
  ⟨m.entries.filter (fun e => e.1 != k), m.sorted.sublist (List.filter_sublist.map _)⟩

theorem lookup_cons_eq (i j : ℕ) (w : α) (m : List (ℕ × α)) :
    ((i, w) :: m).lookup j = if j = i then some w else m.lookup j := by
  by_cases h : j = i
  · simp [h]
  · have hb : (j == i) = false := by simpa using h
    rw [List.lookup_cons, hb, if_neg h]

theorem lookup_setList (k j : ℕ) (v : α) : ∀ m : List (ℕ × α),
    (setList k v m).lookup j = if j = k then some v else m.lookup j
  | [] => by simp only [setList, lookup_cons_eq]
  | (i, w) :: m => by
    have ih := lookup_setList k j v m
    unfold setList
    split_ifs with h1 h2 h3
    all_goals simp only [lookup_cons_eq, ih]
    all_goals grind

theorem get?_set (m : SeqMap α) (k j : ℕ) (v : α) :
    (m.set k v).get? j = if j = k then some v else m.get? j := lookup_setList k j v m.entries

@[simp] theorem get?_set_self (m : SeqMap α) (k : ℕ) (v : α) : (m.set k v).get? k = some v := by
  rw [get?_set, if_pos rfl]

theorem get?_set_ne (m : SeqMap α) {k j : ℕ} (h : j ≠ k) (v : α) : (m.set k v).get? j = m.get? j := by
  rw [get?_set, if_neg h]

theorem lookup_filter_ne (k j : ℕ) : ∀ m : List (ℕ × α),
    (m.filter (fun e => e.1 != k)).lookup j = if j = k then none else m.lookup j
  | [] => by simp
  | (i, w) :: m => by
    have ih := lookup_filter_ne k j m
    by_cases hik : i = k
    · subst hik
      simp only [List.filter_cons, bne_self_eq_false, Bool.false_eq_true, if_false, ih, lookup_cons_eq]
      grind
    · simp only [List.filter_cons, bne_iff_ne, ne_eq, hik, not_false_eq_true, if_true, lookup_cons_eq, ih]
      grind

theorem get?_erase (m : SeqMap α) (k j : ℕ) :
    (m.erase k).get? j = if j = k then none else m.get? j := lookup_filter_ne k j m.entries

theorem lookup_of_mem {k : ℕ} {v : α} : ∀ {m : List (ℕ × α)},
    (m.map Prod.fst).Pairwise (· < ·) → (k, v) ∈ m → m.lookup k = some v
  | (i, w) :: m, hs, hm => by
    rw [List.map_cons, List.pairwise_cons] at hs
    rcases List.mem_cons.mp hm with he | hm
    · cases he; rw [lookup_cons_eq, if_pos rfl]
    · have hlt : i < k := hs.1 k (List.mem_map.mpr ⟨(k, v), hm, rfl⟩)
      rw [lookup_cons_eq, if_neg (by omega)]
      exact lookup_of_mem hs.2 hm

theorem mem_of_lookup {k : ℕ} {v : α} : ∀ {m : List (ℕ × α)}, m.lookup k = some v → (k, v) ∈ m
  | (i, w) :: m, h => by
    rw [lookup_cons_eq] at h
    split_ifs at h with he
    · cases h; rw [he]; exact List.mem_cons_self
    · exact List.mem_cons_of_mem _ (mem_of_lookup h)

theorem get?_eq_some_iff {m : SeqMap α} {k : ℕ} {v : α} : m.get? k = some v ↔ (k, v) ∈ m.entries :=
  ⟨mem_of_lookup, lookup_of_mem m.sorted⟩

theorem mem_keys_iff {m : SeqMap α} {k : ℕ} : k ∈ m.keys ↔ ∃ v, m.get? k = some v := by
  constructor
  · intro h
    obtain ⟨⟨j, v⟩, hm, rfl⟩ := List.mem_map.mp h
    exact ⟨v, get?_eq_some_iff.mpr hm⟩
  · rintro ⟨v, hv⟩
    exact List.mem_map.mpr ⟨(k, v), get?_eq_some_iff.mp hv, rfl⟩

theorem setList_of_lt {k : ℕ} {v : α} : ∀ {m : List (ℕ × α)}, (∀ e ∈ m, e.1 < k) → setList k v m = m ++ [(k, v)]
  | [], _ => rfl
  | (i, w) :: m, h => by
    rw [setList, if_pos (h (i, w) List.mem_cons_self), setList_of_lt fun e he => h e (List.mem_cons_of_mem _ he)]
    rfl

/-- The greatest key stands last: what is stored under it is what a walk ends with. -/
theorem entries_of_max {m : SeqMap α} {k : ℕ} {v : α} (hmax : ∀ j, (m.get? j).isSome → j ≤ k) (h : m.get? k = some v) :
    ∃ front, m.entries = front ++ [(k, v)] ∧ ∀ w, (m.set k w).entries = front ++ [(k, w)] := by
  obtain ⟨front, back, hsplit⟩ := List.append_of_mem (get?_eq_some_iff.mp h)
  have hsorted := m.sorted
  rw [hsplit, List.map_append, List.map_cons, List.pairwise_append, List.pairwise_cons] at hsorted
  obtain ⟨-, ⟨hback, -⟩, hfront⟩ := hsorted
  have hnil : back = [] := by
    cases back with
    | nil => rfl
    | cons e back =>
      have hlt : k < e.1 := hback e.1 (by simp)
      have hle : e.1 ≤ k := by
        refine hmax e.1 ?_
        rw [show m.get? e.1 = some e.2 from get?_eq_some_iff.mpr (by rw [hsplit]; simp)]
        rfl
      omega
  subst hnil
  refine ⟨front, hsplit, fun w => ?_⟩
  have hlt : ∀ e ∈ front, e.1 < k := fun e he => hfront e.1 (List.mem_map_of_mem he) k (by simp)
  change setList k w m.entries = _
  rw [hsplit]
  clear hsplit hfront hback hmax h
  induction front with
  | nil => simp [setList]
  | cons e front ih =>
    rw [List.cons_append, setList, if_pos (hlt e List.mem_cons_self),
      ih fun e' he' => hlt e' (List.mem_cons_of_mem _ he')]
    rfl

/-- A key above all others is added at the end. -/
theorem entries_set_of_lt {m : SeqMap α} {k : ℕ} (hmax : ∀ j, (m.get? j).isSome → j < k) (v : α) :
    (m.set k v).entries = m.entries ++ [(k, v)] := by
  refine setList_of_lt fun e he => hmax e.1 ?_
  rw [show m.get? e.1 = some e.2 from get?_eq_some_iff.mpr he]
  rfl

/-- There are as many entries as numbers in a row. -/
theorem length_ge {m : SeqMap α} {a n : ℕ} (h : ∀ k, a ≤ k → k < a + n → (m.get? k).isSome) : n ≤ m.entries.length := by
  have hsub : List.range' a n ⊆ m.keys := by
    intro k hk
    obtain ⟨hge, hlt⟩ := List.mem_range'_1.mp hk
    exact mem_keys_iff.mpr (Option.isSome_iff_exists.mp (h k hge hlt))
  have hnodup : (List.range' a n).Nodup := List.nodup_range'
  have hlen := (hnodup.subperm hsub).length_le
  rwa [List.length_range', keys, List.length_map] at hlen

theorem lookup_map (g : α → β) (k : ℕ) (l : List (ℕ × α)) :
    (l.map fun e => (e.1, g e.2)).lookup k = (l.lookup k).map g := by
  induction l with
  | nil => rfl
  | cons e l ih =>
    obtain ⟨i, v⟩ := e
    rw [List.map_cons, lookup_cons_eq, lookup_cons_eq, ih]
    split_ifs
    · rfl
    · rfl

/-- The entries from the key `first` on. -/
def fromKey (m : SeqMap α) (first : ℕ) : SeqMap α :=
  ⟨m.entries.filter (fun e => first ≤ e.1), m.sorted.sublist (List.filter_sublist.map _)⟩

theorem get?_fromKey (m : SeqMap α) (first k : ℕ) :
    (m.fromKey first).get? k = if first ≤ k then m.get? k else none := by
  have hmem : ∀ v, (m.fromKey first).get? k = some v ↔ first ≤ k ∧ m.get? k = some v := fun v => by
    rw [get?_eq_some_iff, get?_eq_some_iff, fromKey, List.mem_filter, decide_eq_true_iff, and_comm]
  ext v
  rw [hmem]
  split_ifs with h
  · exact and_iff_right h
  · exact iff_of_false (fun hv => h hv.1) (by rintro ⟨⟩)

theorem fromKey_set (m : SeqMap α) {first k : ℕ} (h : first ≤ k) (v : α) :
    (m.set k v).fromKey first = (m.fromKey first).set k v := by
  apply SeqMap.ext
  change (setList k v m.entries).filter _ = setList k v (m.entries.filter _)
  generalize m.entries = l
  induction l with
  | nil => simp [setList, h]
  | cons e l ih =>
    obtain ⟨i, w⟩ := e
    rw [setList]
    split_ifs with hlt hgt
    · by_cases hi : first ≤ i
      · rw [List.filter_cons_of_pos (by simpa using hi), List.filter_cons_of_pos (by simpa using hi),
          setList, if_pos hlt, ih]
      · rw [List.filter_cons_of_neg (by simpa using hi), List.filter_cons_of_neg (by simpa using hi), ih]
    · have hi : first ≤ i := by omega
      rw [List.filter_cons_of_pos (by simpa using h), List.filter_cons_of_pos (by simpa using hi), setList,
        if_neg hlt, if_pos hgt]
    · have hi : first ≤ i := by omega
      rw [List.filter_cons_of_pos (by simpa using h), List.filter_cons_of_pos (by simpa using hi), setList,
        if_neg hlt, if_neg hgt]

end SeqMap
