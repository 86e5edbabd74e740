import RocksdbJs.Sanity.TarHeader

/-! `splitTarName` against the rule of a USTAR reader, which takes the name alone when the prefix field is empty and
joins the two with a slash otherwise. The split is at the last slash that leaves two parts of a fitting
length; it loses the path when the first part is empty, and when a part begins with a byte order
mark. -/

namespace RocksdbJs
namespace TarNames

section Scan
variable {encoded : Bytes} {i : ℕ}

/-- A slash that leaves two parts of a fitting length. -/
def Fits (encoded : Bytes) (i : ℕ) : Prop :=
  encoded[i]? = some 0x2f ∧ 0 < encoded.length - i - 1 ∧ encoded.length - i - 1 ≤ MAX_NAME_LENGTH ∧
    i ≤ MAX_PREFIX_LENGTH

/-- A scan that keeps the last place. -/
theorem foldl_last (P : ℕ → Prop) [DecidablePred P] (n : ℕ) :
    ((List.range n).foldl (fun best i => if P i then some i else best) none = none ∧ ∀ i < n, ¬ P i) ∨
      ∃ i < n, (List.range n).foldl (fun best i => if P i then some i else best) none = some i ∧ P i ∧
      ∀ j < n, P j → j ≤ i := by
  induction n with
  | zero => exact .inl ⟨rfl, fun i hi => absurd hi (Nat.not_lt_zero i)⟩
  | succ n ih =>
    rw [List.range_succ, List.foldl_append, List.foldl_cons, List.foldl_nil]
    by_cases hn : P n
    · rw [if_pos hn]
      exact .inr ⟨n, n.lt_succ_self, rfl, hn, fun j hj _ => Nat.le_of_lt_succ hj⟩
    · rw [if_neg hn]
      rcases ih with ⟨hnone, hall⟩ | ⟨i, hi, hsome, hpi, hlast⟩
      · refine .inl ⟨hnone, fun i hi hpi => ?_⟩
        rcases Nat.lt_succ_iff_lt_or_eq.mp hi with hlt | rfl
        · exact hall i hlt hpi
        · exact hn hpi
      · refine .inr ⟨i, hi.trans n.lt_succ_self, hsome, hpi, fun j hj hpj => ?_⟩
        rcases Nat.lt_succ_iff_lt_or_eq.mp hj with hlt | rfl
        · exact hlast j hlt hpj
        · exact absurd hpj hn

theorem Fits.lt (h : Fits encoded i) : i < encoded.length := (List.getElem?_eq_some_iff.mp h.1).1

instance (encoded : Bytes) (i : ℕ) : Decidable (Fits encoded i) := inferInstanceAs (Decidable (_ ∧ _ ∧ _ ∧ _))

theorem bestSplit_last (encoded : Bytes) :
    (bestSplit encoded = none ∧ ∀ i, ¬ Fits encoded i) ∨ ∃ i, bestSplit encoded = some i ∧ Fits encoded i ∧
      ∀ j, Fits encoded j → j ≤ i := by
  rcases foldl_last (Fits encoded) encoded.length with ⟨hnone, hall⟩ | ⟨i, -, hsome, hi, hlast⟩
  · exact .inl ⟨hnone, fun i hi => hall i hi.lt hi⟩
  · exact .inr ⟨i, hsome, hi, fun j hj => hlast j hj.lt hj⟩

end Scan

section Characters
variable {path : String} {as bs : List Char} {i : ℕ}

/-- The path cut at a slash that leaves two parts of a fitting length. -/
structure Cut (path : String) (as bs : List Char) : Prop where
  path : path.toList = as ++ Char.ofNat 0x2f :: bs
  name : 0 < (Utf8.encode bs).length ∧ (Utf8.encode bs).length ≤ MAX_NAME_LENGTH
  prefixPart : (Utf8.encode as).length ≤ MAX_PREFIX_LENGTH

theorem encode_cut (as bs : List Char) :
    Utf8.encode (as ++ Char.ofNat 0x2f :: bs) = Utf8.encode as ++ 0x2f :: Utf8.encode bs := by
  have hslash : String.utf8EncodeChar (Char.ofNat 0x2f) = [0x2f] := by decide
  rw [Utf8.encode_append, Utf8.encode_cons, hslash, List.singleton_append]

theorem Cut.fits (h : Cut path as bs) : Fits (textEncode path) (Utf8.encode as).length := by
  have hencoded : textEncode path = Utf8.encode as ++ 0x2f :: Utf8.encode bs := by rw [textEncode, h.path, encode_cut]
  have hlength : (textEncode path).length - (Utf8.encode as).length - 1 = (Utf8.encode bs).length := by
    rw [hencoded, List.length_append, List.length_cons]
    omega
  refine ⟨?_, ?_, ?_, h.prefixPart⟩
  · rw [hencoded, List.getElem?_append_right le_rfl, Nat.sub_self, List.getElem?_cons_zero]
  · rw [hlength]
    exact h.name.1
  · rw [hlength]
    exact h.name.2

theorem Fits.cut (h : Fits (textEncode path) i) :
    ∃ as bs, Cut path as bs ∧ Utf8.encode as = (textEncode path).take i ∧
      Utf8.encode bs = (textEncode path).drop (i + 1) := by
  obtain ⟨hlt, hget⟩ := List.getElem?_eq_some_iff.mp h.1
  have hcut : textEncode path = (textEncode path).take i ++ 0x2f :: (textEncode path).drop (i + 1) := by
    rw [← hget, List.cons_getElem_drop_succ, List.take_append_drop]
  obtain ⟨as, bs, hchars, has, hbs⟩ := Utf8.encode_split (by decide) hcut
  have hlength : (Utf8.encode bs).length = (textEncode path).length - i - 1 := by
    rw [hbs, List.length_drop]
    omega
  refine ⟨as, bs, ⟨hchars, ?_, ?_⟩, has, hbs⟩
  · rw [hlength]
    exact ⟨h.2.1, h.2.2.1⟩
  · rw [has, List.length_take]
    exact (min_le_left _ _).trans h.2.2.2

theorem encode_injective {as bs : List Char} (h : Utf8.encode as = Utf8.encode bs) : as = bs := by
  rw [← Utf8.decode_encode as, h, Utf8.decode_encode]

/-- What the decoder leaves of a string. -/
def dropMark : List Char → List Char
  | [] => []
  | c :: cs => if c = Char.ofNat 0xfeff then cs else c :: cs

theorem textDecode_dropMark (cs : List Char) : textDecode (Utf8.encode cs) = String.ofList (dropMark cs) := by
  rw [textDecode, Utf8.decode_encode]
  cases cs with
  | nil => rfl
  | cons c cs => rfl

theorem length_dropMark (cs : List Char) : (dropMark cs).length ≤ cs.length := by
  cases cs with
  | nil => exact le_rfl
  | cons c cs =>
    rw [dropMark]
    split_ifs
    · exact Nat.le_succ _
    · exact le_rfl

theorem dropMark_suffix (cs : List Char) : ∃ ds, cs = ds ++ dropMark cs := by
  cases cs with
  | nil => exact ⟨[], rfl⟩
  | cons c cs =>
    rw [dropMark]
    split_ifs
    · exact ⟨[c], rfl⟩
    · exact ⟨[], rfl⟩

/-- The decoder leaves the whole of it unless there is a mark. -/
theorem dropMark_length_iff (cs : List Char) :
    (dropMark cs).length = cs.length ↔ cs.head? ≠ some (Char.ofNat 0xfeff) := by
  cases cs with
  | nil => simp [dropMark]
  | cons c cs =>
    rw [dropMark]
    split_ifs with hmark
    · simp [hmark]
    · simp [hmark]

theorem dropMark_eq {cs : List Char} (h : cs.head? ≠ some (Char.ofNat 0xfeff)) : dropMark cs = cs := by
  obtain ⟨ds, hds⟩ := dropMark_suffix cs
  have hlength := (dropMark_length_iff cs).mpr h
  have hnil : ds = [] := by
    rw [← List.length_eq_zero_iff]
    have hsum := congrArg List.length hds
    rw [List.length_append] at hsum
    omega
  rw [hnil] at hds
  exact hds.symm

end Characters

section Joining
variable {path : String} {split : TarName} {as bs : List Char}

/-- The two parts joined again. -/
theorem joined_iff :
    (if dropMark as = [] then dropMark bs else dropMark as ++ Char.ofNat 0x2f :: dropMark bs) =
      as ++ Char.ofNat 0x2f :: bs ↔
    as ≠ [] ∧ as.head? ≠ some (Char.ofNat 0xfeff) ∧ bs.head? ≠ some (Char.ofNat 0xfeff) := by
  have has := length_dropMark as
  have hbs := length_dropMark bs
  constructor
  · intro h
    have hlength := congrArg List.length h
    rw [List.length_append, List.length_cons] at hlength
    split_ifs at hlength with hempty
    · omega
    · rw [List.length_append, List.length_cons] at hlength
      refine ⟨?_, (dropMark_length_iff as).mp (by omega), (dropMark_length_iff bs).mp (by omega)⟩
      rintro rfl
      exact hempty rfl
  · rintro ⟨hsome, ha, hb⟩
    rw [dropMark_eq ha, dropMark_eq hb, if_neg hsome]

theorem length_encode_dropMark (cs : List Char) : (Utf8.encode (dropMark cs)).length ≤ (Utf8.encode cs).length := by
  obtain ⟨ds, hds⟩ := dropMark_suffix cs
  have hlength := congrArg (fun cs => (Utf8.encode cs).length) hds
  rw [Utf8.encode_append, List.length_append] at hlength
  omega

theorem encode_eq_nil {cs : List Char} : Utf8.encode cs = [] ↔ cs = [] := by
  constructor
  · exact fun h => encode_injective h
  · rintro rfl
    rfl

/-- What a reader makes of the two fields, when it reads a field with `field`. -/
def Recovers (field : Bytes → Bytes) (split : TarName) (path : String) : Prop :=
  (if field (textEncode split.prefixPart) = [] then field (textEncode split.name)
    else field (textEncode split.prefixPart) ++ 0x2f :: field (textEncode split.name)) = textEncode path

/-- Two fields that fit and from which the path is recovered, or an error when the path is long and no slash will do. -/
def Exact (field : Bytes → Bytes) (path : String) : Prop :=
  match splitTarName path with
  | .ok split =>
    (textEncode split.name).length ≤ MAX_NAME_LENGTH ∧ (textEncode split.prefixPart).length ≤ MAX_PREFIX_LENGTH ∧
    Recovers field split path
  | .error _ => MAX_NAME_LENGTH < (textEncode path).length ∧ ∀ as bs, Cut path as bs → as = []

/-- The last cut that fits leaves a first part, and neither part begins with a byte order mark. -/
def SplitsWell (path : String) : Prop :=
  MAX_NAME_LENGTH < (textEncode path).length → ∀ as bs, Cut path as bs →
    (∀ as' bs', Cut path as' bs' → (Utf8.encode as').length ≤ (Utf8.encode as).length) →
    as ≠ [] ∧ as.head? ≠ some (Char.ofNat 0xfeff) ∧ bs.head? ≠ some (Char.ofNat 0xfeff)

/-- The parts of a path at a cut. -/
def splitAt (as bs : List Char) : TarName := ⟨String.ofList (dropMark bs), String.ofList (dropMark as)⟩

/-- A short path is a name, a long one is cut at the last slash that fits, and without one there is an error. -/
theorem splitTarName_cases (path : String) :
    ((textEncode path).length ≤ MAX_NAME_LENGTH ∧ splitTarName path = .ok ⟨path, ""⟩) ∨
      (MAX_NAME_LENGTH < (textEncode path).length ∧
        ((splitTarName path = .error (.nameDoesNotFit path) ∧ ∀ as bs, ¬ Cut path as bs) ∨
          ∃ as bs, splitTarName path = .ok (splitAt as bs) ∧ Cut path as bs ∧
            ∀ as' bs', Cut path as' bs' → (Utf8.encode as').length ≤ (Utf8.encode as).length)) := by
  rw [splitTarName]
  split_ifs with hshort
  · exact .inl ⟨hshort, rfl⟩
  · refine .inr ⟨not_le.mp hshort, ?_⟩
    rcases bestSplit_last (textEncode path) with ⟨hnone, hall⟩ | ⟨i, hsome, hi, hlast⟩
    · rw [hnone]
      exact .inl ⟨rfl, fun as bs hcut => hall _ hcut.fits⟩
    · obtain ⟨as, bs, hcut, has, hbs⟩ := hi.cut
      refine .inr ⟨as, bs, ?_, hcut, fun as' bs' hcut' => ?_⟩
      · rw [hsome, splitAt, ← textDecode_dropMark, ← textDecode_dropMark, has, hbs]
      · have hle : (Utf8.encode as').length ≤ i := hlast _ hcut'.fits
        rw [has, List.length_take, min_eq_left (Fits.lt hi).le]
        exact hle

theorem recovers_splitAt (hcut : Cut path as bs) :
    Recovers id (splitAt as bs) path ↔ as ≠ [] ∧ as.head? ≠ some (Char.ofNat 0xfeff) ∧
      bs.head? ≠ some (Char.ofNat 0xfeff) := by
  have hjoined : (if Utf8.encode (dropMark as) = [] then Utf8.encode (dropMark bs)
    else Utf8.encode (dropMark as) ++ 0x2f :: Utf8.encode (dropMark bs)) =
      Utf8.encode (if dropMark as = [] then dropMark bs else dropMark as ++ Char.ofNat 0x2f :: dropMark bs) := by
    by_cases hempty : dropMark as = []
    · rw [if_pos hempty, if_pos (encode_eq_nil.mpr hempty)]
    · rw [if_neg hempty, if_neg fun h => hempty (encode_eq_nil.mp h), encode_cut]
  rw [Recovers, splitAt, textEncode_ofList, textEncode_ofList, id_eq, id_eq, hjoined, textEncode, hcut.path,
    ← joined_iff]
  exact ⟨encode_injective, congrArg Utf8.encode⟩

theorem exact_iff (path : String) : Exact id path ↔ SplitsWell path := by
  rw [Exact, SplitsWell]
  rcases splitTarName_cases path with ⟨hshort, heq⟩ | ⟨hlong, ⟨heq, hnone⟩ | ⟨as, bs, heq, hcut, hlast⟩⟩
  · rw [heq]
    exact ⟨fun _ hlong => absurd hshort (not_le.mpr hlong), fun _ => ⟨hshort, Nat.zero_le _, rfl⟩⟩
  · rw [heq]
    exact ⟨fun _ _ as bs hcut => absurd hcut (hnone as bs),
      fun _ => ⟨hlong, fun as bs hcut => absurd hcut (hnone as bs)⟩⟩
  · rw [heq]
    have hfits : (textEncode (splitAt as bs).name).length ≤ MAX_NAME_LENGTH ∧
        (textEncode (splitAt as bs).prefixPart).length ≤ MAX_PREFIX_LENGTH := by
      rw [splitAt, textEncode_ofList, textEncode_ofList]
      exact ⟨(length_encode_dropMark bs).trans hcut.name.2, (length_encode_dropMark as).trans hcut.prefixPart⟩
    constructor
    · rintro ⟨-, -, hrecovers⟩ - as' bs' hcut' hlast'
      -- the last cut is one
      have hsame : as' = as ∧ bs' = bs := by
        have hle := hlast as' bs' hcut'
        have hge := hlast' as bs hcut
        have heq : Utf8.encode as ++ 0x2f :: Utf8.encode bs = Utf8.encode as' ++ 0x2f :: Utf8.encode bs' := by
          rw [← encode_cut, ← encode_cut, ← hcut.path, ← hcut'.path]
        obtain ⟨ha, hb⟩ := List.append_inj heq (le_antisymm hge hle)
        exact ⟨(encode_injective ha).symm, (encode_injective (List.cons.inj hb).2).symm⟩
      rw [hsame.1, hsame.2]
      exact (recovers_splitAt hcut).mp hrecovers
    · intro hwell
      exact ⟨hfits.1, hfits.2, (recovers_splitAt hcut).mpr (hwell hlong as bs hcut hlast)⟩

/-- The path is short, or has a slash that will do. -/
def Splits (path : String) : Prop := (textEncode path).length ≤ MAX_NAME_LENGTH ∨ ∃ as bs, Cut path as bs

theorem readString_of_noNul {field : Bytes} (h : 0 ∉ field) : readString field = field := by
  have hread := readString_padded h 0
  rwa [List.replicate_zero, List.append_nil] at hread

theorem readString_noNul (field : Bytes) : 0 ∉ readString field := by
  intro hmem
  have hall := List.all_eq_true.mp (List.all_takeWhile) 0 hmem
  simp at hall

/-- Read up to a NUL, the fields give the path if it has none. -/
theorem recovers_readString {split : TarName} (hname : 0 ∈ textEncode split.name → 0 ∈ textEncode path)
    (hprefixPart : 0 ∈ textEncode split.prefixPart → 0 ∈ textEncode path) :
    Recovers readString split path ↔ Recovers id split path ∧ 0 ∉ textEncode path := by
  have hwhole : 0 ∉ textEncode path → (Recovers readString split path ↔ Recovers id split path) := by
    intro hnone
    rw [Recovers, Recovers, readString_of_noNul fun h => hnone (hname h),
      readString_of_noNul fun h => hnone (hprefixPart h)]
    rfl
  constructor
  · intro hrecovers
    have hnone : 0 ∉ textEncode path := by
      rw [Recovers] at hrecovers
      rw [← hrecovers]
      split_ifs
      · exact readString_noNul _
      · rw [List.mem_append, List.mem_cons, not_or, not_or]
        exact ⟨readString_noNul _, by decide, readString_noNul _⟩
    exact ⟨(hwhole hnone).mp hrecovers, hnone⟩
  · exact fun h => (hwhole h.2).mpr h.1

theorem noNul_iff : 0 ∉ textEncode path ↔ Char.ofNat 0 ∉ path.toList := by
  constructor
  · intro hnone hmem
    obtain ⟨cs, ds, hsplit⟩ := List.append_of_mem hmem
    have hzero : String.utf8EncodeChar (Char.ofNat 0) = [0] := by decide
    rw [textEncode, hsplit, Utf8.encode_append, Utf8.encode_cons, hzero] at hnone
    exact hnone (by simp)
  · exact Utf8.not_mem_encode (by decide : (0 : UInt8).toNat < 0x80)

theorem exact_readString_iff (path : String) :
    Exact readString path ↔ SplitsWell path ∧ (Splits path → Char.ofNat 0 ∉ path.toList) := by
  rw [← exact_iff, ← noNul_iff, Exact, Exact]
  rcases splitTarName_cases path with ⟨hshort, heq⟩ | ⟨hlong, ⟨heq, hnone⟩ | ⟨as, bs, heq, hcut, hlast⟩⟩
  · have hsplits : Splits path := .inl hshort
    rw [heq]
    dsimp only
    rw [recovers_readString id fun h => absurd h List.not_mem_nil]
    exact ⟨fun h => ⟨⟨h.1, h.2.1, h.2.2.1⟩, fun _ => h.2.2.2⟩, fun h => ⟨h.1.1, h.1.2.1, h.1.2.2, h.2 hsplits⟩⟩
  · rw [heq]
    refine ⟨fun h => ⟨h, fun hsplits => ?_⟩, fun h => h.1⟩
    rcases hsplits with hshort | ⟨as, bs, hcut⟩
    · exact absurd hshort (not_le.mpr hlong)
    · exact absurd hcut (hnone as bs)
  · have hsplits : Splits path := .inr ⟨as, bs, hcut⟩
    have hpart : ∀ cs, (∀ c ∈ cs, c ∈ path.toList) → 0 ∈ textEncode (String.ofList (dropMark cs)) →
        0 ∈ textEncode path := by
      intro cs hcs hmem
      by_contra hnone
      rw [noNul_iff] at hnone
      obtain ⟨ds, hds⟩ := dropMark_suffix cs
      rw [textEncode_ofList] at hmem
      have hkept : Char.ofNat 0 ∉ dropMark cs := by
        intro hc
        refine hnone (hcs _ ?_)
        rw [hds]
        exact List.mem_append_right ds hc
      exact Utf8.not_mem_encode (by decide) hkept hmem
    have hname : 0 ∈ textEncode (splitAt as bs).name → 0 ∈ textEncode path :=
      hpart bs fun c hc => by rw [hcut.path]; exact List.mem_append_right as (List.mem_cons_of_mem _ hc)
    have hprefixPart : 0 ∈ textEncode (splitAt as bs).prefixPart → 0 ∈ textEncode path :=
      hpart as fun c hc => by rw [hcut.path]; exact List.mem_append_left _ hc
    rw [heq]
    dsimp only
    rw [recovers_readString hname hprefixPart]
    exact ⟨fun h => ⟨⟨h.1, h.2.1, h.2.2.1⟩, fun _ => h.2.2.2⟩, fun h => ⟨h.1.1, h.1.2.1, h.1.2.2, h.2 hsplits⟩⟩

/-- The split is exact for the paths whose last cut is a good one, and for a reader that stops at a
NUL when there is none. -/
theorem tar_name_exact (path : String) :
    (Exact id path ↔ SplitsWell path) ∧ (Exact readString path ↔ SplitsWell path ∧
      (Splits path → Char.ofNat 0 ∉ path.toList)) :=
  ⟨exact_iff path, exact_readString_iff path⟩

/-- A name of 100 bytes in the root directory. -/
def rootName : String := String.ofList ('/' :: List.replicate 100 'a')

theorem root_name_lost :
    splitTarName rootName = .ok ⟨String.ofList (List.replicate 100 'a'), ""⟩ ∧ ¬ Exact id rootName ∧
      ¬ Exact readString rootName := by
  have hlong : ¬ (textEncode rootName).length ≤ MAX_NAME_LENGTH := by decide +kernel
  have hbest : bestSplit (textEncode rootName) = some 0 := by decide +kernel
  have hname : textDecode ((textEncode rootName).drop (0 + 1)) = String.ofList (List.replicate 100 'a') := by
    decide +kernel
  have hempty : textDecode ((textEncode rootName).take 0) = "" := by decide +kernel
  have hsplit : splitTarName rootName = .ok ⟨String.ofList (List.replicate 100 'a'), ""⟩ := by
    rw [splitTarName, if_neg hlong, hbest]
    dsimp only
    rw [hname, hempty]
  have hlost : ¬ Exact id rootName := by
    rw [Exact, hsplit]
    rintro ⟨-, -, hrecovers⟩
    rw [Recovers] at hrecovers
    revert hrecovers
    decide +kernel
  refine ⟨hsplit, hlost, fun hexact => hlost ?_⟩
  rw [exact_iff]
  exact ((exact_readString_iff rootName).mp hexact).1

end Joining

end TarNames
end RocksdbJs
