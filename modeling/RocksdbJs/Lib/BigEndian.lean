import Mathlib.Data.List.Basic
import Mathlib.Tactic

/-! Unsigned integers as big-endian byte strings: a fixed-width writer, a reader
of a byte window, and their round trip at any offset of a longer string. -/

namespace BigEndian

/-- The low `8 * k` bits of `n`, most significant byte first. -/
def write : ℕ → ℕ → List UInt8
  | 0, _ => []
  | k + 1, n => UInt8.ofNat (n / 256 ^ k) :: write k n

/-- The value of a byte string. -/
def value : List UInt8 → ℕ
  | [] => 0
  | b :: bs => b.toNat * 256 ^ bs.length + value bs

/-- The value of the `k` bytes at `pos`. -/
def read (k : ℕ) (bytes : List UInt8) (pos : ℕ) : ℕ := value ((bytes.drop pos).take k)

@[simp] theorem length_write (k n : ℕ) : (write k n).length = k := by
  induction k with
  | zero => rfl
  | succ k ih => simp [write, ih]

theorem value_lt (bs : List UInt8) : value bs < 256 ^ bs.length := by
  induction bs with
  | nil => simp [value]
  | cons b bs ih =>
    have hb : b.toNat ≤ 255 := Nat.le_of_lt_succ b.toNat_lt
    have hmul : b.toNat * 256 ^ bs.length ≤ 255 * 256 ^ bs.length := Nat.mul_le_mul_right _ hb
    simp only [value, List.length_cons, pow_succ]
    omega

theorem value_write (k n : ℕ) : value (write k n) = n % 256 ^ k := by
  induction k with
  | zero => simp [write, value, Nat.mod_one]
  | succ k ih =>
    have hdigit : (UInt8.ofNat (n / 256 ^ k)).toNat = n / 256 ^ k % 256 := by
      simp [UInt8.toNat_ofNat']
    simp only [write, value, length_write, ih, hdigit]
    rw [Nat.mod_pow_succ, Nat.mul_comm, Nat.add_comm]

theorem value_write_of_lt {k n : ℕ} (h : n < 256 ^ k) : value (write k n) = n := by
  rw [value_write, Nat.mod_eq_of_lt h]

/-- Only the low bytes are written. -/
theorem write_congr {k m n : ℕ} (h : m % 256 ^ k = n % 256 ^ k) : write k m = write k n := by
  induction k with
  | zero => rfl
  | succ k ih =>
    have hlow : m % 256 ^ k = n % 256 ^ k := by
      have := congrArg (· % 256 ^ k) h
      simpa only [pow_succ, Nat.mod_mul_right_mod] using this
    have hdigit : m / 256 ^ k % 256 = n / 256 ^ k % 256 := by
      have := congrArg (· / 256 ^ k) h
      simpa only [pow_succ, Nat.mod_mul_right_div_self] using this
    have hhead : UInt8.ofNat (m / 256 ^ k) = UInt8.ofNat (n / 256 ^ k) := by
      apply UInt8.toNat_inj.mp
      rw [UInt8.toNat_ofNat', UInt8.toNat_ofNat']
      exact hdigit
    rw [write, write, hhead, ih hlow]

/-- The bytes of a value are the bytes it was read from. -/
theorem write_value (bs : List UInt8) : write bs.length (value bs) = bs := by
  induction bs with
  | nil => rfl
  | cons b bs ih =>
    have hlt := value_lt bs
    have hpos : 0 < 256 ^ bs.length := Nat.pow_pos (by decide)
    have hhead : (b.toNat * 256 ^ bs.length + value bs) / 256 ^ bs.length = b.toNat := by
      rw [Nat.add_comm, Nat.add_mul_div_right _ _ hpos, Nat.div_eq_of_lt hlt, Nat.zero_add]
    have htail : write bs.length (b.toNat * 256 ^ bs.length + value bs) = write bs.length (value bs) := by
      apply write_congr
      rw [Nat.add_comm, Nat.add_mul_mod_self_right]
    rw [List.length_cons, write, value, hhead, htail, ih, UInt8.ofNat_toNat]

/-- A window that lies whole in the first part does not see the second. -/
theorem read_append_left {k pos : ℕ} {as : List UInt8} (h : pos + k ≤ as.length) (bs : List UInt8) :
    read k (as ++ bs) pos = read k as pos := by
  unfold read
  rw [List.drop_append_of_le_length (by omega), List.take_append_of_le_length (by rw [List.length_drop]; omega)]

theorem read_append_right (k pos : ℕ) (as bs : List UInt8) :
    read k (as ++ bs) (as.length + pos) = read k bs pos := by
  unfold read
  rw [List.drop_length_add_append]

theorem read_write_append {k n : ℕ} (h : n < 256 ^ k) (bs : List UInt8) : read k (write k n ++ bs) 0 = n := by
  rw [read_append_left (by simp), read, List.drop_zero, List.take_of_length_le (by simp), value_write_of_lt h]

end BigEndian
