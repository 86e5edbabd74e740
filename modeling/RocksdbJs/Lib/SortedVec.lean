import Mathlib.Order.Defs.LinearOrder
import Mathlib.Data.List.Basic
import Mathlib.Tactic

/-! A strictly ascending vector used as a set, with the insert and erase that
look an element up by its lower bound. -/

/-- The elements ascend strictly, so the first one is the least. -/
@[ext] structure SortedVec (α : Type*) [LinearOrder α] where
  elems : List α
  sorted : elems.Pairwise (· < ·)

namespace SortedVec

variable {α : Type*} [LinearOrder α]

instance : Membership α (SortedVec α) := ⟨fun s x => x ∈ s.elems⟩

instance (x : α) (s : SortedVec α) : Decidable (x ∈ s) := inferInstanceAs (Decidable (x ∈ s.elems))

theorem mem_def {x : α} {s : SortedVec α} : x ∈ s ↔ x ∈ s.elems := Iff.rfl

def empty : SortedVec α := ⟨[], List.Pairwise.nil⟩

/-- Insertion at the lower bound; an element already there is not repeated. -/
def insertList (x : α) : List α → List α
  | [] => [x]
  | y :: ys => if y < x then y :: insertList x ys else if x < y then x :: y :: ys else y :: ys

theorem mem_insertList {x z : α} : ∀ {l : List α}, z ∈ insertList x l ↔ z = x ∨ z ∈ l
  | [] => by simp [insertList]
  | y :: ys => by
    have ih := mem_insertList (x := x) (z := z) (l := ys)
    unfold insertList
    split_ifs with h1 h2
    · simp only [List.mem_cons, ih]; tauto
    · simp only [List.mem_cons]
    · obtain rfl : y = x := le_antisymm (not_lt.mp h2) (not_lt.mp h1)
      simp only [List.mem_cons]; tauto

theorem insertList_sorted (x : α) : ∀ {l : List α}, l.Pairwise (· < ·) → (insertList x l).Pairwise (· < ·)
  | [], _ => List.pairwise_singleton _ _
  | y :: ys, h => by
    rw [List.pairwise_cons] at h
    unfold insertList
    split_ifs with h1 h2
    · refine List.pairwise_cons.mpr ⟨fun z hz => ?_, insertList_sorted x h.2⟩
      rcases mem_insertList.mp hz with rfl | hz
      · exact h1
      · exact h.1 z hz
    · refine List.pairwise_cons.mpr ⟨fun z hz => ?_, List.pairwise_cons.mpr h⟩
      rcases List.mem_cons.mp hz with rfl | hz
      · exact h2
      · exact h2.trans (h.1 z hz)
    · exact List.pairwise_cons.mpr h

def insert (x : α) (s : SortedVec α) : SortedVec α := ⟨insertList x s.elems, insertList_sorted x s.sorted⟩

/-- Erasure of the element found at the lower bound. -/
def eraseList (x : α) : List α → List α
  | [] => []
  | y :: ys => if y < x then y :: eraseList x ys else if x < y then y :: ys else ys

theorem mem_eraseList {x z : α} : ∀ {l : List α}, l.Pairwise (· < ·) → (z ∈ eraseList x l ↔ z ≠ x ∧ z ∈ l)
  | [], _ => by simp [eraseList]
  | y :: ys, h => by
    rw [List.pairwise_cons] at h
    have ih := mem_eraseList (x := x) (z := z) h.2
    unfold eraseList
    split_ifs with h1 h2
    · simp only [List.mem_cons, ih]
      constructor
      · rintro (rfl | ⟨hne, hz⟩)
        · exact ⟨h1.ne, Or.inl rfl⟩
        · exact ⟨hne, Or.inr hz⟩
      · rintro ⟨hne, rfl | hz⟩
        · exact Or.inl rfl
        · exact Or.inr ⟨hne, hz⟩
    · -- everything from `y` on lies above `x`
      simp only [List.mem_cons]
      constructor
      · rintro (rfl | hz)
        · exact ⟨h2.ne', Or.inl rfl⟩
        · exact ⟨(h2.trans (h.1 z hz)).ne', Or.inr hz⟩
      · exact fun hz => hz.2
    · obtain rfl : y = x := le_antisymm (not_lt.mp h2) (not_lt.mp h1)
      simp only [List.mem_cons]
      constructor
      · exact fun hz => ⟨(h.1 z hz).ne', Or.inr hz⟩
      · rintro ⟨hne, rfl | hz⟩
        · exact absurd rfl hne
        · exact hz

theorem eraseList_sublist (x : α) : ∀ l : List α, (eraseList x l).Sublist l
  | [] => List.Sublist.refl _
  | y :: ys => by
    unfold eraseList
    split_ifs
    · exact (eraseList_sublist x ys).cons_cons y
    · exact List.Sublist.refl _
    · exact List.sublist_cons_self y ys

def erase (x : α) (s : SortedVec α) : SortedVec α :=
  ⟨eraseList x s.elems, s.sorted.sublist (eraseList_sublist x s.elems)⟩

/-- The least element. -/
def front? (s : SortedVec α) : Option α := s.elems.head?

@[simp] theorem not_mem_empty (x : α) : x ∉ (empty : SortedVec α) := by simp [mem_def, empty]

@[simp] theorem mem_insert {x z : α} {s : SortedVec α} : z ∈ s.insert x ↔ z = x ∨ z ∈ s := mem_insertList

@[simp] theorem mem_erase {x z : α} {s : SortedVec α} : z ∈ s.erase x ↔ z ≠ x ∧ z ∈ s := mem_eraseList s.sorted

theorem front?_mem {s : SortedVec α} {m : α} (h : s.front? = some m) : m ∈ s :=
  List.mem_of_mem_head? h

theorem front?_le {s : SortedVec α} {m x : α} (h : s.front? = some m) (hx : x ∈ s) : m ≤ x := by
  obtain ⟨elems, sorted⟩ := s
  cases elems with
  | nil => simp [front?] at h
  | cons y ys =>
    obtain rfl : y = m := by simpa [front?] using h
    rcases List.mem_cons.mp hx with rfl | hx
    · exact le_rfl
    · exact ((List.pairwise_cons.mp sorted).1 x hx).le

theorem front?_eq_none {s : SortedVec α} : s.front? = none ↔ ∀ x, x ∉ s := by
  rw [front?, List.head?_eq_none_iff, List.eq_nil_iff_forall_not_mem]
  rfl

end SortedVec
