import Mathlib.Data.List.Basic
import Mathlib.Tactic

/-! Lists of byte strings in one buffer, each behind its length in four bytes, the lowest first: reading with
the bounds checked, and which lists stand at a place of a buffer. -/

namespace LengthPrefixed

abbrev Octets := List (Fin 256)

instance neZeroByte : NeZero 256 := ⟨by decide⟩

def le32 (n : ℕ) : Octets :=
  [Fin.ofNat 256 n, Fin.ofNat 256 (n / 256), Fin.ofNat 256 (n / 65536), Fin.ofNat 256 (n / 16777216)]

/-- `none` where a byte is read that the buffer does not have. -/
def readLE32 (b : Octets) (o : ℕ) : Option ℕ :=
  match b[o]?, b[o + 1]?, b[o + 2]?, b[o + 3]? with
  | some b0, some b1, some b2, some b3 => some (b0 + b1 * 256 + b2 * 65536 + b3 * 16777216)
  | _, _, _, _ => none

def bytesAt (b : Octets) (o n : ℕ) : Option Octets := if o + n ≤ b.length then some ((b.drop o).take n) else none

def encode (xs : List Octets) : Octets := xs.flatMap fun x => le32 x.length ++ x

/-- The lists stand one after another at offset `o`. -/
def StandAt (b : Octets) (o : ℕ) (xs : List Octets) : Prop := (∀ x ∈ xs, x.length < 2 ^ 32) ∧ encode xs <+: b.drop o

variable {b x y : Octets} {o n : ℕ} {xs ys : List Octets}

theorem encode_cons (x : Octets) (xs : List Octets) : encode (x :: xs) = (le32 x.length ++ x) ++ encode xs := rfl

theorem length_frame (x : Octets) : (le32 x.length ++ x).length = 4 + x.length := by
  rw [List.length_append]
  rfl

theorem readLE32_isSome (h : o + 4 ≤ b.length) : (readLE32 b o).isSome := by
  unfold readLE32
  rw [List.getElem?_eq_getElem (by omega), List.getElem?_eq_getElem (by omega), List.getElem?_eq_getElem (by omega),
    List.getElem?_eq_getElem (by omega)]
  rfl

theorem readLE32_lt {v : ℕ} (h : readLE32 b o = some v) : v < 2 ^ 32 := by
  unfold readLE32 at h
  split at h
  · rename_i b0 b1 b2 b3 _ _ _ _
    have h0 := b0.isLt
    have h1 := b1.isLt
    have h2 := b2.isLt
    have h3 := b3.isLt
    have hv := Option.some.inj h
    omega
  · cases h

/-- What is read where a number was written. -/
theorem readLE32_of_le32 (hn : n < 2 ^ 32) (h : le32 n <+: b.drop o) : readLE32 b o = some n := by
  obtain ⟨rest, hrest⟩ := h
  have hget : ∀ i, b[o + i]? = (le32 n ++ rest)[i]? := fun i => by rw [hrest, List.getElem?_drop]
  unfold readLE32
  rw [show b[o]? = _ from hget 0, hget 1, hget 2, hget 3]
  simp only [le32, List.cons_append, List.getElem?_cons_zero, List.getElem?_cons_succ, Fin.ofNat, Option.some.injEq]
  omega

/-- The bytes that a number is read from are those it is written as. -/
theorem le32_of_readLE32 (h : readLE32 b o = some n) : le32 n <+: b.drop o := by
  unfold readLE32 at h
  split at h
  · rename_i b0 b1 b2 b3 h0 h1 h2 h3
    obtain ⟨l3, h3⟩ := List.getElem?_eq_some_iff.mp h3
    obtain ⟨l2, h2⟩ := List.getElem?_eq_some_iff.mp h2
    obtain ⟨l1, h1⟩ := List.getElem?_eq_some_iff.mp h1
    obtain ⟨l0, h0⟩ := List.getElem?_eq_some_iff.mp h0
    have hn := Option.some.inj h
    have hbytes : le32 n = [b0, b1, b2, b3] := by
      simp only [le32, List.cons.injEq, Fin.ext_iff, Fin.ofNat, and_true]
      omega
    refine ⟨b.drop (o + 4), ?_⟩
    rw [hbytes, List.drop_eq_getElem_cons l0, List.drop_eq_getElem_cons l1, List.drop_eq_getElem_cons l2,
      List.drop_eq_getElem_cons l3,
      h0, h1, h2, h3]
    rfl
  · cases h

theorem bytesAt_eq_some : bytesAt b o n = some x ↔ x.length = n ∧ o + n ≤ b.length ∧ x <+: b.drop o := by
  unfold bytesAt
  split_ifs with h
  · rw [Option.some.injEq]
    constructor
    · rintro rfl
      refine ⟨?_, h, List.take_prefix _ _⟩
      rw [List.length_take, List.length_drop]
      omega
    · rintro ⟨rfl, -, hx⟩
      exact (List.prefix_iff_eq_take.mp hx).symm
  · simp [h]

theorem append_front {z : Octets} : x ++ y <+: z ↔ x <+: z ∧ y <+: z.drop x.length := by
  constructor
  · rintro ⟨rest, rfl⟩
    refine ⟨⟨y ++ rest, by rw [List.append_assoc]⟩, ⟨rest, ?_⟩⟩
    rw [List.append_assoc, List.drop_left]
  · rintro ⟨⟨r, rfl⟩, s, hs⟩
    rw [List.drop_left] at hs
    exact ⟨s, by rw [← hs, List.append_assoc]⟩

theorem standAt_nil (b : Octets) (o : ℕ) : StandAt b o [] := ⟨by simp, List.nil_prefix⟩

theorem standAt_cons : StandAt b o (x :: xs) ↔
    x.length < 2 ^ 32 ∧ readLE32 b o = some x.length ∧ bytesAt b (o + 4) x.length = some x ∧
      StandAt b (o + 4 + x.length) xs := by
  have hlen : (le32 x.length).length = 4 := rfl
  rw [StandAt, StandAt, encode_cons, append_front, append_front, hlen, length_frame, List.drop_drop, List.drop_drop,
    bytesAt_eq_some, List.forall_mem_cons, ← Nat.add_assoc]
  constructor
  · rintro ⟨⟨hx, hxs⟩, ⟨hl, hb⟩, hrest⟩
    refine ⟨hx, readLE32_of_le32 hx hl, ⟨rfl, ?_, hb⟩, hxs, hrest⟩
    have h1 := hl.length_le
    have h2 := hb.length_le
    rw [List.length_drop, hlen] at h1
    rw [List.length_drop] at h2
    omega
  · rintro ⟨hx, hl, ⟨-, -, hb⟩, hxs, hrest⟩
    exact ⟨⟨hx, hxs⟩, ⟨le32_of_readLE32 hl, hb⟩, hrest⟩

/-- One entry more stands before a list where one can be read. -/
theorem exists_standAt_succ (hx : x.length < 2 ^ 32) (hl : readLE32 b o = some x.length)
    (hb : bytesAt b (o + 4) x.length = some x) :
    (∃ xs : List Octets, xs.length = n ∧ StandAt b (o + 4 + x.length) xs) ↔
      ∃ xs : List Octets, xs.length = n + 1 ∧ StandAt b o xs := by
  constructor
  · rintro ⟨xs, hlen, h⟩
    exact ⟨x :: xs, by rw [List.length_cons, hlen], standAt_cons.mpr ⟨hx, hl, hb, h⟩⟩
  · rintro ⟨xs, hlen, h⟩
    cases xs with
    | nil => simp at hlen
    | cons y ys =>
      obtain ⟨-, hyl, hyb, hrest⟩ := standAt_cons.mp h
      rw [Option.some.inj (hyl.symm.trans hl)] at hrest
      exact ⟨ys, Nat.succ.inj hlen, hrest⟩

/-- Two lists of as many entries at one place are one. -/
theorem StandAt.unique (h : StandAt b o xs) (h' : StandAt b o ys) (hlen : xs.length = ys.length) : xs = ys := by
  induction xs generalizing o ys with
  | nil => exact (List.eq_nil_of_length_eq_zero hlen.symm).symm
  | cons x xs ih =>
    cases ys with
    | nil => simp at hlen
    | cons y ys =>
      obtain ⟨-, hl, hb, hrest⟩ := standAt_cons.mp h
      obtain ⟨-, hl', hb', hrest'⟩ := standAt_cons.mp h'
      have hxy : x.length = y.length := Option.some.inj (hl.symm.trans hl')
      rw [hxy] at hb hrest
      obtain rfl := Option.some.inj (hb.symm.trans hb')
      rw [ih hrest hrest' (Nat.succ.inj hlen)]

theorem length_le_encode (h : x ∈ xs) : x.length ≤ (encode xs).length := by
  induction xs with
  | nil => cases h
  | cons z xs ih =>
    rw [encode_cons, List.length_append, length_frame]
    rcases List.mem_cons.mp h with rfl | h
    · omega
    · have := ih h
      omega

/-- A buffer holds what it is made of, and no shorter part of it does. -/
theorem standAt_encode (h : ∀ x ∈ xs, x.length < 2 ^ 32) : StandAt (encode xs) 0 xs := ⟨h, List.prefix_refl _⟩

theorem not_standAt_take (h : ∀ x ∈ xs, x.length < 2 ^ 32) (hn : n < (encode xs).length)
    (hlen : ys.length = xs.length) :
    ¬ StandAt ((encode xs).take n) 0 ys := by
  rintro ⟨hys, hfront⟩
  rw [List.drop_zero] at hfront
  have hstand : StandAt (encode xs) 0 ys := ⟨hys, hfront.trans (List.take_prefix n _)⟩
  obtain rfl := hstand.unique (standAt_encode h) hlen
  have hle := hfront.length_le
  rw [List.length_take] at hle
  omega

end LengthPrefixed
