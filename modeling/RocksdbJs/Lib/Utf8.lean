import Mathlib.Data.List.Basic
import Mathlib.Tactic

/-! UTF-8 as a list of bytes: the encoding of characters, the decoder that puts U+FFFD where the bytes are no
encoding, and the round trip. A byte below 0x80 in an encoding is a character of its own, so an
encoding may be cut at one. -/

namespace Utf8

def encode (cs : List Char) : List UInt8 := cs.flatMap String.utf8EncodeChar

/-- Within a character: the bits so far, the bytes that are still to come, and the range of the next. -/
structure Pending where
  codePoint : ℕ
  bytesNeeded : ℕ
  lowerBoundary : ℕ
  upperBoundary : ℕ

/-- What the first byte of a character says. -/
inductive Lead
  | ascii
  | more (p : Pending)
  | error

def lead (b : ℕ) : Lead :=
  if b ≤ 0x7f then .ascii
  else if 0xc2 ≤ b ∧ b ≤ 0xdf then .more ⟨b % 0x20, 1, 0x80, 0xbf⟩
  else if 0xe0 ≤ b ∧ b ≤ 0xef then .more ⟨b % 0x10, 2, if b = 0xe0 then 0xa0 else 0x80, if b = 0xed then 0x9f else 0xbf⟩
  else if 0xf0 ≤ b ∧ b ≤ 0xf4 then .more ⟨b % 0x08, 3, if b = 0xf0 then 0x90 else 0x80, if b = 0xf4 then 0x8f else 0xbf⟩
  else .error

def REPLACEMENT : Char := Char.ofNat 0xfffd

/-- A byte that a character cannot go on with is the first of the next one. -/
def decodeFrom : Option Pending → List UInt8 → List Char
  | none, [] => []
  | some _, [] => [REPLACEMENT]
  | none, b :: bs =>
    match lead b.toNat with
    | .ascii => Char.ofNat b.toNat :: decodeFrom none bs
    | .more p => decodeFrom (some p) bs
    | .error => REPLACEMENT :: decodeFrom none bs
  | some p, b :: bs =>
    if p.lowerBoundary ≤ b.toNat ∧ b.toNat ≤ p.upperBoundary then
      let codePoint := p.codePoint * 0x40 + b.toNat % 0x40
      if p.bytesNeeded = 1 then Char.ofNat codePoint :: decodeFrom none bs
      else decodeFrom (some ⟨codePoint, p.bytesNeeded - 1, 0x80, 0xbf⟩) bs
    else
      REPLACEMENT :: match lead b.toNat with
        | .ascii => Char.ofNat b.toNat :: decodeFrom none bs
        | .more p => decodeFrom (some p) bs
        | .error => REPLACEMENT :: decodeFrom none bs

def decode (bytes : List UInt8) : List Char := decodeFrom none bytes

section RoundTrip
variable {c : Char} {bs : List UInt8}

theorem encode_cons (c : Char) (cs : List Char) : encode (c :: cs) = String.utf8EncodeChar c ++ encode cs :=
  List.flatMap_cons

theorem encode_append (as cs : List Char) : encode (as ++ cs) = encode as ++ encode cs := List.flatMap_append

theorem toNat_bound (c : Char) : c.toNat < 0xd800 ∨ (0xdfff < c.toNat ∧ c.toNat < 0x110000) := c.valid

theorem toNat_ofNat {n : ℕ} (h : n < 256) : (UInt8.ofNat n).toNat = n := by
  rw [UInt8.toNat_ofNat', Nat.mod_eq_of_lt h]

/-- A byte that a character goes on with. -/
theorem decodeFrom_more {p : Pending} {b : ℕ} (hb : b < 256) (hlower : p.lowerBoundary ≤ b)
    (hupper : b ≤ p.upperBoundary) (hmore : p.bytesNeeded ≠ 1) :
    decodeFrom (some p) (UInt8.ofNat b :: bs) = decodeFrom
      (some ⟨p.codePoint * 0x40 + b % 0x40, p.bytesNeeded - 1, 0x80, 0xbf⟩) bs := by
  rw [decodeFrom, toNat_ofNat hb, if_pos ⟨hlower, hupper⟩]
  exact if_neg hmore

theorem decodeFrom_last {p : Pending} {b : ℕ} (hb : b < 256) (hlower : p.lowerBoundary ≤ b)
    (hupper : b ≤ p.upperBoundary) (hlast : p.bytesNeeded = 1)
    (hc : p.codePoint * 0x40 + b % 0x40 = c.toNat) :
    decodeFrom (some p) (UInt8.ofNat b :: bs) = c :: decodeFrom none bs := by
  rw [decodeFrom, toNat_ofNat hb, if_pos ⟨hlower, hupper⟩]
  dsimp only
  rw [if_pos hlast, hc, Char.ofNat_toNat]

theorem decodeFrom_lead {p : Pending} {b : ℕ} (hb : b < 256) (hlead : lead b = .more p) :
    decodeFrom none (UInt8.ofNat b :: bs) = decodeFrom (some p) bs := by
  rw [decodeFrom, toNat_ofNat hb, hlead]

theorem decodeFrom_char (c : Char) (bs : List UInt8) :
    decodeFrom none (String.utf8EncodeChar c ++ bs) = c :: decodeFrom none bs := by
  have hbound := toNat_bound c
  set v := c.toNat with hv
  have hval : c.val.toNat = v := rfl
  unfold String.utf8EncodeChar
  rw [hval]
  dsimp only
  split_ifs with h1 h2 h3
  · have hlead : lead v = .ascii := if_pos h1
    rw [List.singleton_append, decodeFrom, toNat_ofNat (by omega), hlead]
    simp only [hv, Char.ofNat_toNat]
  · have hlead : lead (v / 64 % 32 + 0xc0) = .more ⟨(v / 64 % 32 + 0xc0) % 0x20, 1, 0x80, 0xbf⟩ := by
      rw [lead, if_neg (by omega), if_pos (by omega)]
    simp only [List.cons_append, List.nil_append]
    rw [decodeFrom_lead (by omega) hlead, decodeFrom_last (by omega) (by dsimp only; omega) (by dsimp only; omega) rfl]
    dsimp only
    omega
  · have hlead : lead (v / 4096 % 16 + 0xe0) = .more ⟨(v / 4096 % 16 + 0xe0) % 0x10, 2,
        if v / 4096 % 16 + 0xe0 = 0xe0 then 0xa0 else 0x80,
        if v / 4096 % 16 + 0xe0 = 0xed then 0x9f else 0xbf⟩ := by
      rw [lead, if_neg (by omega), if_neg (by omega), if_pos (by omega)]
    simp only [List.cons_append, List.nil_append]
    rw [decodeFrom_lead (by omega) hlead, decodeFrom_more (by omega) (by dsimp only; split_ifs <;> omega)
      (by dsimp only; split_ifs <;> omega) (by dsimp only; omega),
      decodeFrom_last (by omega) (by dsimp only; omega) (by dsimp only; omega) rfl]
    dsimp only
    omega
  · have hlead : lead (v / 262144 % 8 + 0xf0) = .more ⟨(v / 262144 % 8 + 0xf0) % 0x08, 3,
        if v / 262144 % 8 + 0xf0 = 0xf0 then 0x90 else 0x80,
        if v / 262144 % 8 + 0xf0 = 0xf4 then 0x8f else 0xbf⟩ := by
      rw [lead, if_neg (by omega), if_neg (by omega), if_neg (by omega), if_pos (by omega)]
    simp only [List.cons_append, List.nil_append]
    rw [decodeFrom_lead (by omega) hlead, decodeFrom_more (by omega) (by dsimp only; split_ifs <;> omega)
      (by dsimp only; split_ifs <;> omega) (by dsimp only; omega),
      decodeFrom_more (by omega) (by dsimp only; omega) (by dsimp only; omega) (by dsimp only; omega),
      decodeFrom_last (by omega) (by dsimp only; omega) (by dsimp only; omega) rfl]
    dsimp only
    omega

theorem decode_encode (cs : List Char) : decode (encode cs) = cs := by
  rw [decode]
  induction cs with
  | nil => rfl
  | cons c cs ih => rw [encode_cons, decodeFrom_char, ih]

/-- A byte below 0x80 in the encoding of a character is the character. -/
theorem mem_utf8EncodeChar {b : UInt8} (h : b ∈ String.utf8EncodeChar c) (hb : b.toNat < 0x80) :
    c = Char.ofNat b.toNat := by
  have hbound := toNat_bound c
  set v := c.toNat with hv
  have hval : c.val.toNat = v := rfl
  unfold String.utf8EncodeChar at h
  rw [hval] at h
  dsimp only at h
  split_ifs at h with h1 h2 h3
  · rw [List.mem_singleton] at h
    rw [h, toNat_ofNat (by omega), hv, Char.ofNat_toNat]
  all_goals
    simp only [List.mem_cons, List.not_mem_nil, or_false] at h
    rcases h with rfl | h
    · rw [toNat_ofNat (by omega)] at hb
      omega
  · subst h
    rw [toNat_ofNat (by omega)] at hb
    omega
  · rcases h with rfl | rfl
    all_goals
      rw [toNat_ofNat (by omega)] at hb
      omega
  · rcases h with rfl | rfl | rfl
    all_goals
      rw [toNat_ofNat (by omega)] at hb
      omega

theorem utf8EncodeChar_ascii {b : UInt8} (hb : b.toNat < 0x80) : String.utf8EncodeChar (Char.ofNat b.toNat) = [b] := by
  have hval : (Char.ofNat b.toNat).val.toNat = b.toNat := by
    have hvalid : b.toNat.isValidChar := Or.inl (by omega)
    rw [Char.ofNat, dif_pos hvalid]
    rfl
  unfold String.utf8EncodeChar
  rw [hval]
  dsimp only
  rw [if_pos (by omega), UInt8.ofNat_toNat]

/-- An encoding is cut at an ASCII byte where a character is. -/
theorem encode_split {b : UInt8} (hb : b.toNat < 0x80) {cs : List Char} {as : List UInt8}
    (h : encode cs = as ++ b :: bs) :
    ∃ cas cbs, cs = cas ++ Char.ofNat b.toNat :: cbs ∧ encode cas = as ∧ encode cbs = bs := by
  induction cs generalizing as with
  | nil =>
    have hlength := congrArg List.length h
    simp [encode] at hlength
  | cons c cs ih =>
    rw [encode_cons] at h
    -- the byte is in the first character, which it then is, or after it
    rcases List.append_eq_append_iff.mp h with ⟨as', rfl, hrest⟩ | ⟨bs', hchar, hrest⟩
    · obtain ⟨cas, cbs, rfl, hcas, hcbs⟩ := ih hrest
      exact ⟨c :: cas, cbs, rfl, by rw [encode_cons, hcas], hcbs⟩
    · cases bs' with
      | nil =>
        have hnext : encode cs = [] ++ b :: bs := by simpa using hrest.symm
        obtain ⟨cas, cbs, rfl, hcas, hcbs⟩ := ih hnext
        refine ⟨c :: cas, cbs, rfl, ?_, hcbs⟩
        rw [encode_cons, hcas, hchar, List.append_nil, List.append_nil]
      | cons b' bs' =>
        obtain ⟨rfl, rfl⟩ := List.cons.inj hrest
        obtain rfl := mem_utf8EncodeChar (by rw [hchar]; simp) hb
        rw [utf8EncodeChar_ascii hb] at hchar
        obtain ⟨rfl, hnil⟩ : as = [] ∧ bs' = [] := by
          have hlength := congrArg List.length hchar
          simp only [List.length_append, List.length_cons, List.length_nil] at hlength
          exact ⟨List.eq_nil_of_length_eq_zero (by omega), List.eq_nil_of_length_eq_zero (by omega)⟩
        subst hnil
        exact ⟨[], cs, rfl, rfl, rfl⟩

/-- An encoding has no ASCII byte whose character is not there. -/
theorem not_mem_encode {b : UInt8} (hb : b.toNat < 0x80) {cs : List Char} (h : Char.ofNat b.toNat ∉ cs) :
    b ∉ encode cs := by
  intro hmem
  obtain ⟨c, hc, hbc⟩ := List.mem_flatMap.mp hmem
  exact h (mem_utf8EncodeChar hbc hb ▸ hc)

end RoundTrip

end Utf8
