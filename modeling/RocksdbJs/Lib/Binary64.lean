import Mathlib.Order.Defs.LinearOrder
import Mathlib.Tactic

/-! IEEE 754 binary64 values as bit patterns, with the comparisons a program
makes on them. Only the order is needed, so no arithmetic is defined. -/

/-- The bit pattern of a double. -/
@[ext] structure Binary64 where
  bits : UInt64
deriving DecidableEq, Repr

namespace Binary64

/-- The pattern without its sign bit. -/
def magnitude (x : Binary64) : ℕ := x.bits.toNat % 2 ^ 63

def isNeg (x : Binary64) : Bool := 2 ^ 63 ≤ x.bits.toNat

/-- The magnitudes above infinity's are the NaNs. -/
def isNaN (x : Binary64) : Bool := 0x7FF0000000000000 < x.magnitude

/-- Doubles that are not NaN are ordered by this integer; the two zeros share it. -/
def key (x : Binary64) : ℤ := if x.isNeg then -(x.magnitude : ℤ) else x.magnitude

/-- `x < y` as the machine compares. -/
def lt (x y : Binary64) : Bool := !x.isNaN && !y.isNaN && decide (x.key < y.key)

/-- `x == y` as the machine compares. -/
def eq (x y : Binary64) : Bool := !x.isNaN && !y.isNaN && decide (x.key = y.key)

/-- `x >= y` as the machine compares. -/
def ge (x y : Binary64) : Bool := !x.isNaN && !y.isNaN && decide (y.key ≤ x.key)

def zero : Binary64 := ⟨0⟩

/-- The largest finite double. -/
def maxValue : Binary64 := ⟨0x7FEFFFFFFFFFFFFF⟩

/-- `x == 0` as the machine compares. -/
def isZero (x : Binary64) : Bool := x.magnitude = 0

/-- Greater than zero, infinity included; no NaN is positive. -/
def IsPos (x : Binary64) : Prop := lt zero x = true

instance (x : Binary64) : Decidable x.IsPos := inferInstanceAs (Decidable (lt zero x = true))

theorem key_zero : zero.key = 0 := rfl

theorem lt_iff {x y : Binary64} (hx : x.isNaN = false) (hy : y.isNaN = false) :
    lt x y = true ↔ x.key < y.key := by simp [lt, hx, hy]

theorem isPos_iff {x : Binary64} : x.IsPos ↔ x.isNaN = false ∧ 0 < x.key := by
  have h0 : zero.isNaN = false := by decide
  unfold IsPos lt
  rw [h0, key_zero]
  simp

theorem IsPos.not_nan {x : Binary64} (h : x.IsPos) : x.isNaN = false := (isPos_iff.mp h).1

theorem IsPos.key_pos {x : Binary64} (h : x.IsPos) : 0 < x.key := (isPos_iff.mp h).2

theorem lt_ge {x y : Binary64} (h : lt x y = true) : ge y x = true := by
  unfold lt at h
  unfold ge
  simp only [Bool.and_eq_true, decide_eq_true_iff] at h ⊢
  exact ⟨⟨h.1.2, h.1.1⟩, h.2.le⟩

theorem IsPos.not_zero {x : Binary64} (h : x.IsPos) : x.isZero = false := by
  have hk := h.key_pos
  unfold key at hk
  unfold isZero
  split at hk <;> simp <;> omega

end Binary64
