import RocksdbJs.Spec.Tar

/-! The headers of `tar.ts`, read back: the checksum, the path in its one or two fields, and the size in octal or
in base 256. -/

namespace RocksdbJs

open ByteBlock

section Numbers
variable {value digits : ℕ}

/-- An octal digit as a byte. -/
def IsOctal (b : UInt8) : Prop := 0x30 ≤ b ∧ b ≤ 0x37

theorem digitChar_octal {n : ℕ} (h : n < 8) : (Nat.digitChar n).toNat = 0x30 + n := by
  interval_cases n
  all_goals rfl

theorem mem_toDigits_octal {n : ℕ} : ∀ c ∈ Nat.toDigits 8 n, 0x30 ≤ c.toNat ∧ c.toNat ≤ 0x37 := by
  induction n using Nat.strong_induction_on with
  | _ n ih =>
    intro c hc
    by_cases hlt : n < 8
    · rw [Nat.toDigits_of_lt_base hlt, List.mem_singleton] at hc
      rw [hc, digitChar_octal hlt]
      omega
    · rw [Nat.toDigits_of_base_le (by norm_num) (by omega), List.mem_append, List.mem_singleton] at hc
      rcases hc with hc | rfl
      · exact ih (n / 8) (by omega) c hc
      · rw [digitChar_octal (by omega)]
        omega

theorem length_octalDigits (value digits : ℕ) : (octalDigits value digits).length = digits := by
  rw [octalDigits, List.length_map, List.length_take, List.length_leftpad]
  omega

theorem mem_octalDigits {b : UInt8} (h : b ∈ octalDigits value digits) : IsOctal b := by
  obtain ⟨c, hc, rfl⟩ := List.mem_map.mp h
  have hbound : 0x30 ≤ c.toNat ∧ c.toNat ≤ 0x37 := by
    rcases List.mem_append.mp (List.mem_of_mem_take hc) with hpad | hdigit
    · obtain ⟨-, rfl⟩ := List.mem_replicate.mp hpad
      decide
    · exact mem_toDigits_octal c hdigit
  have htoNat : (UInt8.ofNat c.toNat).toNat = c.toNat := Utf8.toNat_ofNat (by omega)
  rw [IsOctal, UInt8.le_iff_toNat_le, UInt8.le_iff_toNat_le, htoNat]
  exact hbound

/-- The digits are read back, up to a byte that is none. -/
theorem readOctal_octalDigits (hdigits : 0 < digits) (h : value < 8 ^ digits) {tail : Bytes}
    (htail : ∀ b ∈ tail.head?, ¬ IsOctal b) :
    readOctal (octalDigits value digits ++ tail) = value := by
  have hlength : (Nat.toDigits 8 value).length ≤ digits := (Nat.length_toDigits_le_iff (by norm_num) hdigits).mpr h
  have hwhile : (octalDigits value digits ++ tail).takeWhile (fun b => decide (0x30 ≤ b ∧ b ≤ 0x37)) =
      octalDigits value digits := by
    have hall : ∀ b ∈ octalDigits value digits, decide (0x30 ≤ b ∧ b ≤ 0x37) = true :=
      fun b hb => decide_eq_true (mem_octalDigits hb)
    rw [List.takeWhile_append_of_pos hall]
    cases tail with
    | nil => rw [List.takeWhile_nil, List.append_nil]
    | cons b tail => rw [List.takeWhile_cons_of_neg (by simpa [IsOctal] using htail b rfl), List.append_nil]
  have hback : (octalDigits value digits).map (fun b => Char.ofNat b.toNat) =
      (Nat.toDigits 8 value).leftpad digits '0' := by
    have hall : ∀ c ∈ (Nat.toDigits 8 value).leftpad digits '0', Char.ofNat (UInt8.ofNat c.toNat).toNat = c := by
      intro c hc
      have hbound : c.toNat < 256 := by
        rcases List.mem_append.mp hc with hpad | hdigit
        · obtain ⟨-, rfl⟩ := List.mem_replicate.mp hpad
          decide
        · have hdigit := mem_toDigits_octal c hdigit
          omega
      rw [Utf8.toNat_ofNat hbound, Char.ofNat_toNat]
    rw [octalDigits, List.take_of_length_le (by rw [List.length_leftpad]; omega), List.map_map]
    exact (List.map_congr_left hall).trans (List.map_id _)
  rw [readOctal, hwhile, hback, List.leftpad, Nat.ofDigitChars_append, Nat.ofDigitChars_replicate_zero, Nat.mul_zero,
    Nat.ofDigitChars_toDigits (by norm_num) (by norm_num)]

/-- The bytes that `writeOctal` stores. -/
def octalField (value length : ℕ) : Bytes :=
  if 8 ^ (length - 1) - 1 < value then 0x80 :: BigEndian.write (length - 1) value else octalDigits value (length - 1)

theorem writeOctal_eq (block : Bytes) (value offset length : ℕ) :
    writeOctal block value offset length = writeAt block (octalField value length) offset := by
  rw [writeOctal, octalField]
  split_ifs
  all_goals rfl

theorem length_octalField (value : ℕ) {length : ℕ} (h : 0 < length) :
    length - 1 ≤ (octalField value length).length ∧ (octalField value length).length ≤ length := by
  rw [octalField]
  split_ifs
  · rw [List.length_cons, BigEndian.length_write]
    omega
  · rw [length_octalDigits]
    omega

/-- A number is read back from its field, with what is left of it at zero. -/
theorem readNumber_octalField {length : ℕ} (hlength : 1 < length) (h : value < 256 ^ (length - 1)) :
    readNumber (octalField value length ++ List.replicate (length - (octalField value length).length) 0) = value := by
  rw [octalField]
  split_ifs with hbig
  · have hzero : length - (0x80 :: BigEndian.write (length - 1) value).length = 0 := by
      rw [List.length_cons, BigEndian.length_write]
      omega
    rw [hzero, List.replicate_zero, List.append_nil, readNumber, if_pos (by decide), BigEndian.value,
      BigEndian.value_write_of_lt h]
    simp
  · rw [length_octalDigits]
    obtain ⟨b, rest, hb⟩ := List.exists_cons_of_length_pos (l := octalDigits value (length - 1))
      (by rw [length_octalDigits]; omega)
    have hoctal : IsOctal b := mem_octalDigits (by rw [hb]; exact List.mem_cons_self)
    have hlow : ¬ 0x80 ≤ b := by
      have hle := hoctal.2
      rw [UInt8.le_iff_toNat_le] at hle ⊢
      exact fun hge => absurd (hge.trans hle) (by decide)
    have hsmall : value < 8 ^ (length - 1) := by
      have hpos : 0 < 8 ^ (length - 1) := by positivity
      omega
    rw [hb, List.cons_append, readNumber, if_neg hlow, ← List.cons_append, ← hb]
    refine readOctal_octalDigits (by omega) hsmall fun c hc => ?_
    rw [List.head?_replicate] at hc
    split_ifs at hc
    · cases hc
    · obtain rfl := Option.some.inj hc
      exact fun hoctal => absurd hoctal.1 (by decide)

end Numbers

section Names
variable {path : String} {split : TarName}

/-- A relative path without NUL and without a byte order mark. -/
structure ProperPath (path : String) : Prop where
  relative : path.toList.head? ≠ some '/'
  noNul : Char.ofNat 0 ∉ path.toList
  noMark : Char.ofNat 0xfeff ∉ path.toList

theorem textDecode_encode {cs : List Char} (h : Char.ofNat 0xfeff ∉ cs) :
    textDecode (Utf8.encode cs) = String.ofList cs := by
  rw [textDecode, Utf8.decode_encode]
  cases cs with
  | nil => rfl
  | cons c cs =>
    have hne : c ≠ Char.ofNat 0xfeff := fun heq => h (heq ▸ List.mem_cons_self)
    simp only [if_neg hne]

theorem textEncode_ofList (cs : List Char) :
    textEncode (String.ofList cs) = Utf8.encode cs := by rw [textEncode, String.toList_ofList]

theorem bestSplit_some {encoded : Bytes} {i : ℕ} (h : bestSplit encoded = some i) :
    encoded[i]? = some 0x2f ∧ encoded.length - i - 1 ≤ MAX_NAME_LENGTH ∧ i ≤ MAX_PREFIX_LENGTH := by
  rw [bestSplit] at h
  generalize List.range encoded.length = is at h
  have hloop : ∀ (is : List ℕ) (best : Option ℕ),
      (∀ j ∈ best, encoded[j]? = some 0x2f ∧ encoded.length - j - 1 ≤ MAX_NAME_LENGTH ∧ j ≤ MAX_PREFIX_LENGTH) →
      is.foldl (fun best i =>
        let nameLength := encoded.length - i - 1
        if encoded[i]? = some 0x2f ∧ 0 < nameLength ∧ nameLength ≤ MAX_NAME_LENGTH ∧ i ≤ MAX_PREFIX_LENGTH then some i
          else best) best = some i →
      encoded[i]? = some 0x2f ∧ encoded.length - i - 1 ≤ MAX_NAME_LENGTH ∧ i ≤ MAX_PREFIX_LENGTH := by
    intro is
    induction is with
    | nil => exact fun best hbest hi => hbest i hi
    | cons j is ih =>
      intro best hbest hi
      refine ih _ ?_ hi
      dsimp only
      split_ifs with hj
      · intro k hk
        obtain rfl := Option.some.inj hk
        exact ⟨hj.1, hj.2.2.1, hj.2.2.2⟩
      · exact hbest
  exact hloop is none (fun j hj => absurd hj (Option.not_mem_none j)) h

/-- The two fields of a path, by their bytes. -/
structure SplitOf (path : String) (split : TarName) : Prop where
  name : (textEncode split.name).length ≤ 100
  prefixPart : (textEncode split.prefixPart).length ≤ 155
  noNul : 0 ∉ textEncode split.name ∧ 0 ∉ textEncode split.prefixPart
  joined : (if textEncode split.prefixPart = [] then textEncode split.name
    else textEncode split.prefixPart ++ 0x2f :: textEncode split.name) = textEncode path

theorem splitTarName_ok (hpath : ProperPath path) (h : splitTarName path = .ok split) : SplitOf path split := by
  have hnul : (0 : UInt8) ∉ textEncode path := Utf8.not_mem_encode (by decide) hpath.noNul
  rw [splitTarName] at h
  split_ifs at h with hshort
  · obtain rfl := Except.ok.inj h
    exact ⟨hshort, Nat.zero_le _, ⟨hnul, List.not_mem_nil⟩, rfl⟩
  · split at h
    next => cases h
    next best hbest =>
      obtain rfl := Except.ok.inj h
      obtain ⟨hslash, hname, hdirs⟩ := bestSplit_some hbest
      obtain ⟨hlt, hget⟩ := List.getElem?_eq_some_iff.mp hslash
      have hcut : textEncode path = (textEncode path).take best ++ 0x2f :: (textEncode path).drop (best + 1) := by
        rw [← hget, List.cons_getElem_drop_succ, List.take_append_drop]
      obtain ⟨cas, cbs, hcs, hcas, hcbs⟩ := Utf8.encode_split (by decide) hcut
      have hmark : Char.ofNat 0xfeff ∉ cas ∧ Char.ofNat 0xfeff ∉ cbs := by
        have hnone := hpath.noMark
        rw [hcs, List.mem_append, List.mem_cons, not_or, not_or] at hnone
        exact ⟨hnone.1, hnone.2.2⟩
      have hleft : textEncode (textDecode ((textEncode path).take best)) = (textEncode path).take best := by
        rw [← hcas, textDecode_encode hmark.1, textEncode_ofList]
      have hright : textEncode (textDecode ((textEncode path).drop (best + 1))) =
          (textEncode path).drop (best + 1) := by
        rw [← hcbs, textDecode_encode hmark.2, textEncode_ofList]
      -- a cut at the start would be at the first character
      have hsome : (textEncode path).take best ≠ [] := by
        intro hnil
        have hempty : cas = [] := by
          rw [← Utf8.decode_encode cas, hcas, hnil]
          rfl
        refine hpath.relative ?_
        rw [hcs, hempty]
        rfl
      refine ⟨?_, ?_, ⟨?_, ?_⟩, ?_⟩
      · rw [hright, List.length_drop]
        exact (by omega : (textEncode path).length - (best + 1) = (textEncode path).length - best - 1).trans_le hname
      · rw [hleft, List.length_take]
        exact (min_le_left _ _).trans hdirs
      · rw [hright]
        exact fun hmem => hnul (List.mem_of_mem_drop hmem)
      · rw [hleft]
        exact fun hmem => hnul (List.mem_of_mem_take hmem)
      · rw [hleft, hright, if_neg hsome]
        exact hcut.symm

end Names

section Headers
variable {name : String} {size : ℕ} {mode : ℤ} {mtime : ℚ≥0} {header : Bytes} {split : TarName}

/-- What `buildHeader` stores before the checksum, in its order. -/
def headerWrites (split : TarName) (size : ℕ) (mode : ℤ) (mtime : ℚ≥0) : List (Bytes × ℕ) :=
  [(textEncode split.name, 0), (octalField (mode % 0o10000).toNat 8, 100), (octalField 0 8, 108),
    (octalField 0 8, 116), (octalField size 12, 124),
    (octalField (mtime.num / mtime.den) 12, 136), ([0x30], 156), (textEncode "ustar", 257),
    ([0x30], 263), ([0x30], 264),
    (textEncode split.prefixPart, 345)]

/-- The block before the checksum. -/
def unsummed (split : TarName) (size : ℕ) (mode : ℤ) (mtime : ℚ≥0) : Bytes :=
  writeAll (List.replicate 512 0) (headerWrites split size mode mtime)

theorem buildHeader_ok (h : buildHeader name size mode mtime = .ok header) :
    ∃ split, splitTarName name = .ok split ∧ header = writeChecksum (unsummed split size mode mtime) := by
  rw [buildHeader] at h
  rcases hsplit : splitTarName name with err | split
  · rw [hsplit] at h
    cases h
  · refine ⟨split, rfl, ?_⟩
    simp only [hsplit, bind, Except.bind, pure, Except.pure, writeField, writeOctal_eq, BLOCK_SIZE] at h
    split_ifs at h with hname hustar hdirs hlong
    · exact (Except.ok.inj h).symm
    · rw [← Except.ok.inj h, unsummed, headerWrites]
      have hempty : split.prefixPart = "" := by
        rw [← String.length_eq_zero_iff]
        omega
      have hnil : textEncode split.prefixPart = [] := by
        rw [hempty]
        rfl
      simp only [hnil, writeAll, List.foldl_cons, List.foldl_nil, writeAt_nil]

/-- The writes are in the block and apart from each other. -/
theorem headerWrites_apart (hname : (textEncode split.name).length ≤ 100)
    (hdirs : (textEncode split.prefixPart).length ≤ 155) :
    (∀ w ∈ headerWrites split size mode mtime, w.2 + w.1.length ≤ 512) ∧
      (headerWrites split size mode mtime).Pairwise Apart := by
  have hmode := (length_octalField (mode % 0o10000).toNat (by norm_num : 0 < 8)).2
  have hzero := (length_octalField 0 (by norm_num : 0 < 8)).2
  have hsize := (length_octalField size (by norm_num : 0 < 12)).2
  have hmtime := (length_octalField (mtime.num / mtime.den) (by norm_num : 0 < 12)).2
  have hustar : (textEncode "ustar").length = 5 := by decide
  constructor
  · simp only [headerWrites, List.forall_mem_cons, List.length_singleton, hustar]
    simp
    omega
  · simp only [headerWrites, Apart, List.pairwise_cons, List.forall_mem_cons, List.length_singleton, hustar]
    simp
    omega

/-- Nothing is written to the rest of a field. -/
theorem headerWrites_gap {o n : ℕ} (hdirs : (textEncode split.prefixPart).length ≤ 155)
    (hgap : ((textEncode split.name).length ≤ o ∧ o + n ≤ 100) ∨ (124 + (octalField size 12).length ≤ o ∧ o + n ≤ 136) ∨
      345 + (textEncode split.prefixPart).length ≤ o) (hname : (textEncode split.name).length ≤ 100) :
    ∀ w ∈ headerWrites split size mode mtime, Apart (List.replicate n (0 : UInt8), o) w := by
  have hmode := (length_octalField (mode % 0o10000).toNat (by norm_num : 0 < 8)).2
  have hzero := (length_octalField 0 (by norm_num : 0 < 8)).2
  have hsize := (length_octalField size (by norm_num : 0 < 12)).2
  have hmtime := (length_octalField (mtime.num / mtime.den) (by norm_num : 0 < 12)).2
  have hustar : (textEncode "ustar").length = 5 := by decide
  simp only [headerWrites, Apart, List.forall_mem_cons, List.length_singleton, List.length_replicate, hustar]
  simp
  omega

/-- The block before the checksum has what was written, and zeros where nothing was. -/
structure Laid (split : TarName) (size : ℕ) (mode : ℤ) (mtime : ℚ≥0) (block : Bytes) : Prop where
  length : block.length = 512
  written : ∀ w ∈ headerWrites split size mode mtime, HasAt block w.2 w.1
  zeros : ∀ o n, o + n ≤ 512 → (∀ w ∈ headerWrites split size mode mtime, Apart (List.replicate n (0 : UInt8), o) w) →
    HasAt block o (List.replicate n 0)

theorem unsummed_laid (hname : (textEncode split.name).length ≤ 100)
    (hdirs : (textEncode split.prefixPart).length ≤ 155) :
    Laid split size mode mtime (unsummed split size mode mtime) := by
  have hfit : ∀ w ∈ headerWrites split size mode mtime, w.2 + w.1.length ≤ (List.replicate 512 (0 : UInt8)).length := by
    intro w hw
    rw [List.length_replicate]
    exact (headerWrites_apart hname hdirs).1 w hw
  refine ⟨?_, ?_, fun o n hon hzeros => ?_⟩
  · rw [unsummed, length_writeAll hfit, List.length_replicate]
  · rw [unsummed]
    exact hasAt_writeAll hfit (headerWrites_apart hname hdirs).2
  · rw [unsummed]
    refine HasAt.writeAll (hasAt_replicate ?_ fun b hb => List.eq_of_mem_replicate hb) hfit hzeros
    rw [List.length_replicate]
    exact hon

/-- What `writeChecksum` stores, in its order. -/
def checksumWrites (sum : ℕ) : List (Bytes × ℕ) :=
  [(List.replicate 8 0x20, 148), (octalDigits sum 6, 148), ([0], 154), ([0x20], 155)]

/-- The sum that is stored. -/
def blockSum (block : Bytes) : ℕ := ((writeAt block (List.replicate 8 0x20) 148).map UInt8.toNat).sum

theorem writeChecksum_eq (block : Bytes) : writeChecksum block = writeAll block (checksumWrites (blockSum block)) := rfl

theorem checksumWrites_at (sum : ℕ) : ∀ w ∈ checksumWrites sum, 148 ≤ w.2 ∧ w.2 + w.1.length ≤ 156 := by
  simp only [checksumWrites, List.forall_mem_cons, List.length_replicate, length_octalDigits, List.length_singleton]
  simp

theorem length_writeChecksum {block : Bytes} (h : block.length = 512) : (writeChecksum block).length = 512 := by
  rw [writeChecksum_eq, length_writeAll fun w hw => ?_, h]
  have hw := (checksumWrites_at _ w hw).2
  omega

theorem writeChecksum_hasAt {block bs : Bytes} {o : ℕ} (h : block.length = 512) (hold : HasAt block o bs)
    (hapart : o + bs.length ≤ 148 ∨ 156 ≤ o) :
    HasAt (writeChecksum block) o bs := by
  rw [writeChecksum_eq]
  refine hold.writeAll (fun w hw => ?_) fun w hw => ?_
  · have hw := (checksumWrites_at _ w hw).2
    omega
  · have hw := checksumWrites_at _ w hw
    rw [Apart]
    dsimp only
    omega

theorem blockSum_lt {block : Bytes} (h : block.length = 512) : blockSum block < 8 ^ 6 := by
  have hbyte : ∀ n ∈ (writeAt block (List.replicate 8 0x20) 148).map UInt8.toNat, n ≤ 255 := by
    intro n hn
    obtain ⟨b, -, rfl⟩ := List.mem_map.mp hn
    exact Nat.le_of_lt_succ b.toNat_lt
  have hle := List.sum_le_card_nsmul _ 255 hbyte
  rw [List.length_map, length_writeAt (by rw [List.length_replicate]; omega), h] at hle
  exact hle.trans_lt (by norm_num)

/-- The checksum that is stored is the sum with spaces in its place. -/
theorem writeChecksum_sum {block : Bytes} (h : block.length = 512) :
    readOctal (readAt (writeChecksum block) 148 8) = headerSum (writeChecksum block) := by
  have hspaces : (List.replicate 8 (0x20 : UInt8)).length = 8 := rfl
  have hdigits := length_octalDigits (blockSum block) 6
  set block₁ := writeAt block (List.replicate 8 0x20) 148 with hblock₁
  set block₂ := writeAt block₁ (octalDigits (blockSum block) 6) 148 with hblock₂
  have hlength₁ : block₁.length = 512 := (length_writeAt (by omega)).trans h
  have hlength₂ : block₂.length = 512 := (length_writeAt (by omega)).trans hlength₁
  have hlength₃ : (writeAt block₂ [0] 154).length = 512 := (length_writeAt (by simp [hlength₂])).trans hlength₂
  have heq : writeChecksum block = writeAt (writeAt block₂ [0] 154) [0x20] 155 := rfl
  have hfield : HasAt (writeChecksum block) 148 (octalDigits (blockSum block) 6 ++ [0, 0x20]) := by
    have h1 : HasAt block₂ 148 (octalDigits (blockSum block) 6) := hasAt_writeAt (by omega)
    have h2 : HasAt (writeAt block₂ [0] 154) 154 [0] := hasAt_writeAt (by simp [hlength₂])
    have h3 : HasAt (writeChecksum block) 155 [0x20] := by
      rw [heq]
      exact hasAt_writeAt (by simp [hlength₃])
    have h1 : HasAt (writeChecksum block) 148 (octalDigits (blockSum block) 6) := by
      rw [heq]
      refine (h1.writeAt (by simp [hlength₂]) ?_).writeAt (by simp [hlength₃]) ?_
      all_goals
        rw [hdigits]
        omega
    have h2 : HasAt (writeChecksum block) 154 [0] := by
      rw [heq]
      exact h2.writeAt (by simp [hlength₃]) (by simp)
    exact h1.append (by rw [hdigits]; exact h2.append h3)
  have hcount : (octalDigits (blockSum block) 6 ++ [0, 0x20]).length = 8 := by
    rw [List.length_append, hdigits]
    rfl
  have hread := hfield.readAt
  rw [hcount] at hread
  rw [hread, readOctal_octalDigits (by norm_num) (blockSum_lt h) (by simp [IsOctal])]
  -- the spaces cover all that was stored since
  rw [headerSum, heq, writeAt_writeAt (by omega) (by simp [hlength₃]) (by simp),
    writeAt_writeAt (by omega) (by simp [hlength₂]) (by simp),
    writeAt_writeAt (by omega) (by omega) (by omega), writeAt_writeAt (by omega) (by omega) (by omega)]
  rfl

/-- A header of a file. -/
structure IsHeader (name : String) (size : ℕ) (header : Bytes) : Prop where
  length : header.length = 512
  checksum : readOctal (readAt header 148 8) = headerSum header
  nonzero : header.all (· = 0) = false
  path : readPath header = textEncode name
  size : readNumber (readAt header 124 12) = size

theorem readString_padded {bs : Bytes} (h : 0 ∉ bs) (n : ℕ) : readString (bs ++ List.replicate n 0) = bs := by
  rw [readString, List.takeWhile_append_of_pos]
  · cases n with
    | zero => simp
    | succ n => rw [List.replicate_succ, List.takeWhile_cons_of_neg (by simp), List.append_nil]
  · intro b hb
    have hne : b ≠ 0 := fun heq => h (heq ▸ hb)
    simpa using hne

theorem buildHeader_isHeader (hpath : ProperPath name) (hsize : size < 2 ^ 53)
    (h : buildHeader name size mode mtime = .ok header) :
    IsHeader name size header := by
  obtain ⟨split, hsplit, heq⟩ := buildHeader_ok h
  rw [heq]
  have hfields := splitTarName_ok hpath hsplit
  have hlaid : Laid split size mode mtime (unsummed split size mode mtime) :=
    unsummed_laid hfields.name hfields.prefixPart
  generalize unsummed split size mode mtime = block at hlaid
  have hlength := hlaid.length
  have hsizeField := (length_octalField size (by norm_num : 0 < 12)).2
  -- a field holds what was written to it, and zeros in its rest
  have hfield : ∀ (o n : ℕ) (bs : Bytes), (bs, o) ∈ headerWrites split size mode mtime → bs.length ≤ n → o + n ≤ 512 →
      (o + n ≤ 148 ∨ 156 ≤ o) → ((textEncode split.name).length ≤ o + bs.length ∧ o + n ≤ 100) ∨
        (124 + (octalField size 12).length ≤ o + bs.length ∧ o + n ≤ 136) ∨
          345 + (textEncode split.prefixPart).length ≤ o + bs.length →
      readAt (writeChecksum block) o n = bs ++ List.replicate (n - bs.length) 0 := by
    intro o n bs hmem hn hin hapart hgap
    have hcount : (bs ++ List.replicate (n - bs.length) (0 : UInt8)).length = n := by
      rw [List.length_append, List.length_replicate]
      omega
    have hrest : HasAt block (o + bs.length) (List.replicate (n - bs.length) 0) :=
      hlaid.zeros _ _ (by omega) (headerWrites_gap hfields.prefixPart (by omega) hfields.name)
    have hwhole := writeChecksum_hasAt hlength ((hlaid.written _ hmem).append hrest) (by rw [hcount]; exact hapart)
    have hread := hwhole.readAt
    rw [hcount] at hread
    exact hread
  refine ⟨length_writeChecksum hlength, writeChecksum_sum hlength, ?_, ?_, ?_⟩
  · have htype : HasAt (writeChecksum block) 156 [0x30] :=
      writeChecksum_hasAt hlength (hlaid.written ([0x30], 156) (by simp [headerWrites])) (by simp)
    have hmem : (0x30 : UInt8) ∈ writeChecksum block := List.mem_of_getElem? (htype 0 (by simp))
    rw [List.all_eq_false]
    exact ⟨0x30, hmem, by decide⟩
  · have hname := hfield 0 100 (textEncode split.name) (by simp [headerWrites]) hfields.name (by norm_num)
      (by norm_num) (by omega)
    have hdirs := hfield 345 155 (textEncode split.prefixPart) (by simp [headerWrites]) hfields.prefixPart
      (by norm_num) (by norm_num)
      (by omega)
    rw [readPath, hname, hdirs, readString_padded hfields.noNul.1, readString_padded hfields.noNul.2]
    exact hfields.joined
  · have hsizes := hfield 124 12 (octalField size 12) (by simp [headerWrites]) hsizeField (by norm_num)
      (by norm_num) (by omega)
    rw [hsizes]
    exact readNumber_octalField (by norm_num) (hsize.trans (by norm_num))

end Headers

end RocksdbJs
