import RocksdbJs.Lib.Runs
import RocksdbJs.Sanity.TarHeader

/-! The archives of `TarEncoder` are read back as they were written. A call that is rejected does nothing, what was
emitted is whole entries and the beginning of one more, and `finalize` goes through only between
entries. -/

namespace RocksdbJs

/-- The zeros after a payload. -/
def padding (size : ℕ) : ℕ := (512 - size % 512) % 512

theorem padded_length (size : ℕ) : (size + padding size) % 512 = 0 := by
  rw [padding]
  omega

/-- Bytes of whole entries, the last one first. -/
inductive Archive : List TarEntry → Bytes → Prop
  | nil : Archive [] []
  | snoc {entries : List TarEntry} {bytes header : Bytes} {entry : TarEntry} : Archive entries bytes →
      IsHeader entry.name entry.size header →
    entry.data.length = entry.size →
    Archive (entry :: entries) (bytes ++ header ++ entry.data ++ List.replicate (padding entry.size) 0)

section Reading
variable {entries : List TarEntry} {bytes tail : Bytes} {fuel : ℕ}

theorem Archive.length_mod (h : Archive entries bytes) : bytes.length % 512 = 0 := by
  induction h with
  | nil => rfl
  | snoc _ hheader hdata ih =>
    have hpadded := padded_length
    rw [List.length_append, List.length_append, List.length_append, hheader.length, hdata, List.length_replicate]
    grind

theorem Archive.length_le (h : Archive entries bytes) : entries.length ≤ bytes.length := by
  induction h with
  | nil => exact le_rfl
  | snoc _ hheader _ ih =>
    rw [List.length_append, List.length_append, List.length_append, hheader.length, List.length_cons]
    omega

theorem readTarHeader_isHeader {name : String} {size : ℕ} {header : Bytes} (h : IsHeader name size header) :
    readTarHeader header = some (name, size) := by
  rw [readTarHeader, if_pos h.checksum, h.path, h.size, textEncode, Utf8.decode_encode, String.ofList_toList]

/-- An entry at the head of an archive is read, and then the rest. -/
theorem untar_entry {entry : TarEntry} {header : Bytes} (hheader : IsHeader entry.name entry.size header)
    (hdata : entry.data.length = entry.size) :
    untar (fuel + 1) (header ++ (entry.data ++ (List.replicate (padding entry.size) 0 ++ tail))) =
      (untar fuel tail).map fun r => (entry :: r.1, r.2) := by
  rw [untar]
  have hblock : (header ++ (entry.data ++ (List.replicate (padding entry.size) 0 ++ tail))).take 512 = header := by
    rw [← hheader.length]
    exact List.take_left
  have hrest : (header ++ (entry.data ++ (List.replicate (padding entry.size) 0 ++ tail))).drop 512 =
      entry.data ++ (List.replicate (padding entry.size) 0 ++ tail) := by
    rw [← hheader.length]
    exact List.drop_left
  have hpayload : (entry.data ++ (List.replicate (padding entry.size) 0 ++ tail)).take entry.size = entry.data := by
    rw [← hdata]
    exact List.take_left
  have hpast : (entry.data ++ (List.replicate (padding entry.size) 0 ++ tail)).drop (entry.size +
      padding entry.size) = tail := by
    have hlength : (entry.data ++ List.replicate (padding entry.size) (0 : UInt8)).length =
        entry.size + padding entry.size := by
      rw [List.length_append, hdata, List.length_replicate]
    rw [← hlength, ← List.append_assoc]
    exact List.drop_left
  have henough : ¬ (entry.data ++ (List.replicate (padding entry.size) (0 : UInt8) ++ tail)).length < entry.size +
      padding entry.size := by
    rw [List.length_append, List.length_append, hdata, List.length_replicate]
    omega
  dsimp only
  rw [hblock, hrest, if_neg (by rw [hheader.length]; omega), if_neg (by rw [hheader.nonzero]; exact Bool.false_ne_true),
    readTarHeader_isHeader hheader, Option.bind_some]
  dsimp only
  change (if (entry.data ++ (List.replicate (padding entry.size) (0 : UInt8) ++ tail)).length < entry.size +
    padding entry.size then none
    else (untar fuel ((entry.data ++ (List.replicate (padding entry.size) 0 ++ tail)).drop (entry.size +
      padding entry.size))).map _) = _
  rw [if_neg henough, hpast, hpayload]

/-- Whole entries are read, and then what comes after them. -/
theorem Archive.untar (h : Archive entries bytes) {read : List TarEntry} {rest : Bytes}
    (htail : untar fuel tail = some (read, rest)) :
    untar (fuel + entries.length) (bytes ++ tail) = some (entries.reverse ++ read, rest) := by
  induction h generalizing fuel tail read with
  | nil => exact htail
  | @snoc entries bytes header entry _ hheader hdata ih =>
    have hhead : untar (fuel + 1) (header ++ (entry.data ++ (List.replicate (padding entry.size) 0 ++ tail))) =
        some (entry :: read, rest) := by
      rw [untar_entry hheader hdata, htail, Option.map_some]
    have hall := ih hhead
    have hfuel : fuel + (entry :: entries).length = fuel + 1 + entries.length := by
      rw [List.length_cons]
      omega
    have hbytes : bytes ++ header ++ entry.data ++ List.replicate (padding entry.size) 0 ++ tail =
        bytes ++ (header ++ (entry.data ++ (List.replicate (padding entry.size) 0 ++ tail))) := by
      simp only [List.append_assoc]
    rw [hfuel, hbytes, hall, List.reverse_cons, List.append_assoc, List.singleton_append]

/-- More fuel reads the same. -/
theorem untar_more {fuel' : ℕ} {archive : Bytes} {read : List TarEntry × Bytes}
    (h : untar fuel archive = some read) (hle : fuel ≤ fuel') :
    untar fuel' archive = some read := by
  induction fuel generalizing fuel' archive read with
  | zero => cases h
  | succ fuel ih =>
    obtain ⟨fuel', rfl⟩ := Nat.exists_eq_add_of_le' hle
    have hle : fuel ≤ fuel' + fuel := Nat.le_add_left _ _
    rw [← Nat.add_assoc]
    rw [untar] at h ⊢
    dsimp only at h ⊢
    split_ifs at h ⊢ with hshort hzero
    · exact h
    · obtain ⟨header, hheader, hrest⟩ := Option.bind_eq_some_iff.mp h
      rw [hheader, Option.bind_some]
      split_ifs at hrest ⊢ with hcut
      obtain ⟨later, hlater, hread⟩ := Option.map_eq_some_iff.mp hrest
      rw [ih hlater hle, Option.map_some, hread]

theorem untar_zeros : untar 1 (List.replicate 1024 0) = some ([], List.replicate 1024 0) := by
  rw [untar]
  dsimp only
  rw [List.take_replicate, if_neg (by rw [List.length_replicate]; decide), if_pos]
  rw [List.all_eq_true]
  intro b hb
  exact decide_eq_true (List.eq_of_mem_replicate hb)

/-- A finished archive is read back. -/
theorem Archive.untar_finished (h : Archive entries bytes) :
    RocksdbJs.untar (bytes ++ List.replicate 1024 0).length (bytes ++ List.replicate 1024 0) =
      some (entries.reverse, List.replicate 1024 0) := by
  have hread := h.untar untar_zeros
  rw [List.append_nil] at hread
  refine untar_more hread ?_
  rw [List.length_append, List.length_replicate]
  have hle := h.length_le
  omega

end Reading

section Calls

theorem encoder_addFile (e : TarEncoder) (name : String) (size : Option ℚ) (options : TarEntryOptions) :
    (∃ err, e.addFile name size options = (.error err, e)) ∨
      e.finalized = false ∧ e.remaining = 0 ∧ ∃ q ∈ size, q.isInt ∧ ∃ header,
        buildHeader name q.num.toNat (options.mode.getD 0o644) (options.mtime.getD 0) = .ok header ∧
        e.addFile name size options = (.ok (), ⟨e.emitted ++ header, q.num.toNat, padding q.num.toNat, false⟩) := by
  rw [TarEncoder.addFile]
  split_ifs with hfinal hremaining
  · exact .inl ⟨_, rfl⟩
  · exact .inl ⟨_, rfl⟩
  · rw [Bool.not_eq_true] at hfinal
    split
    next => exact .inl ⟨_, rfl⟩
    next q hfilter =>
      dsimp only
      split
      next err _ => exact .inl ⟨err, rfl⟩
      next header hheader =>
        obtain ⟨hq, hvalid⟩ := Option.filter_eq_some_iff.mp hfilter
        refine .inr ⟨hfinal, not_not.mp hremaining, q, hq, (Bool.and_eq_true_iff.mp hvalid).1, header, hheader, ?_⟩
        rw [hfinal]
        rfl

theorem encoder_writeData (e : TarEncoder) (chunk : Bytes) :
    (∃ err, e.writeData chunk = (.error err, e)) ∨ chunk = [] ∧ e.writeData chunk = (.ok (), e) ∨
      e.finalized = false ∧ chunk.length < e.remaining ∧
        e.writeData chunk = (.ok (), ⟨e.emitted ++ chunk, e.remaining - chunk.length, e.pad, false⟩) ∨
      e.finalized = false ∧ 0 < chunk.length ∧ chunk.length = e.remaining ∧
        e.writeData chunk = (.ok (), ⟨e.emitted ++ chunk ++ List.replicate e.pad 0, 0, 0, false⟩) := by
  rw [TarEncoder.writeData]
  split_ifs with hfinal hempty hover
  · exact .inl ⟨_, rfl⟩
  · exact .inr (.inl ⟨List.length_eq_zero_iff.mp hempty, rfl⟩)
  · exact .inl ⟨_, rfl⟩
  · rw [Bool.not_eq_true] at hfinal
    by_cases hall : chunk.length = e.remaining
    · refine .inr (.inr (.inr ⟨hfinal, Nat.pos_of_ne_zero hempty, hall, ?_⟩))
      have hzero : e.remaining - chunk.length = 0 := by omega
      by_cases hpad : 0 < e.pad
      · refine (if_pos ⟨hzero, hpad⟩).trans ?_
        dsimp only [TarEncoder.sink]
        rw [hfinal, hzero]
      · -- no padding is emitted
        refine (if_neg fun h => hpad h.2).trans ?_
        have hnone : e.pad = 0 := by omega
        dsimp only [TarEncoder.sink]
        rw [hfinal, hzero, hnone, List.replicate_zero, List.append_nil]
    · refine .inr (.inr (.inl ⟨hfinal, by omega, ?_⟩))
      have hleft : e.remaining - chunk.length ≠ 0 := by omega
      refine (if_neg fun h => hleft h.1).trans ?_
      dsimp only [TarEncoder.sink]
      rw [hfinal]

theorem encoder_finalize (e : TarEncoder) :
    (∃ err, e.finalize = (.error err, e)) ∨
      e.finalized = false ∧ e.remaining = 0 ∧ e.finalize =
        (.ok (), ⟨e.emitted ++ List.replicate 1024 0, 0, e.pad, true⟩) := by
  rw [TarEncoder.finalize]
  split_ifs with hfinal hremaining
  · exact .inl ⟨_, rfl⟩
  · exact .inl ⟨_, rfl⟩
  · rw [Bool.not_eq_true] at hfinal
    refine .inr ⟨hfinal, not_not.mp hremaining, ?_⟩
    rw [not_not.mp hremaining]
    rfl

end Calls

section Runs
variable {r : TarRun} {name : String} {size : Option ℚ} {chunk : Bytes} {entries : List TarEntry} {bytes : Bytes}

/-- What was emitted, between two entries, within one and at the end. -/
inductive Encoded : TarRun → Prop
  | between {entries : List TarEntry} {bytes : Bytes} : Archive entries bytes → Encoded ⟨⟨bytes, 0, 0, false⟩, entries⟩
  | within {entries : List TarEntry} {bytes header : Bytes} {entry : TarEntry} {n : ℕ} : Archive entries bytes →
    IsHeader entry.name entry.size header → 0 < n → entry.data.length + n = entry.size →
    Encoded ⟨⟨bytes ++ header ++ entry.data, n, padding entry.size, false⟩, entry :: entries⟩
  | finished {entries : List TarEntry} {bytes : Bytes} : Archive entries bytes →
    Encoded ⟨⟨bytes ++ List.replicate 1024 0, 0, 0, true⟩, entries⟩

/-- A call that is rejected leaves everything as it was. -/
def Tame (r : TarRun) (result : Except TarError Unit × TarRun) : Prop := ∀ err, result.1 = .error err → result.2 = r

/-- A file that is accepted emits one header, with its checksum. -/
def EmitsHeader (r : TarRun) (result : Except TarError Unit × TarRun) : Prop :=
  result.1 = .ok () → ∃ header, result.2.encoder.emitted = r.encoder.emitted ++ header ∧ header.length = 512 ∧
    readOctal (ByteBlock.readAt header 148 8) = headerSum header

/-- An entry that is complete ends in its padding. -/
theorem Encoded.complete {header : Bytes} {entry : TarEntry} (h : Archive entries bytes)
    (hheader : IsHeader entry.name entry.size header) (hdata : entry.data.length = entry.size) :
    Encoded ⟨⟨bytes ++ header ++ entry.data ++ List.replicate (padding entry.size) 0, 0, 0, false⟩, entry :: entries⟩ :=
  .between (.snoc h hheader hdata)

theorem Encoded.ready (h : Encoded r) (hfinal : r.encoder.finalized = false) (hremaining : r.encoder.remaining = 0) :
    Archive r.entries r.encoder.emitted ∧ r.encoder.pad = 0 := by
  cases h with
  | between h => exact ⟨h, rfl⟩
  | within _ _ hn _ =>
    dsimp only at hremaining
    omega
  | finished _ => cases hfinal

theorem isInt_num_lt {q : ℚ} {n : ℕ} (hint : q.isInt) (h : q < n) (hn : 0 < n) : q.num.toNat < n := by
  have hnum : (q.num : ℚ) = q := Rat.coe_int_num_of_den_eq_one (by simpa [Rat.isInt] using hint)
  rw [← hnum] at h
  have hlt : q.num < n := by exact_mod_cast h
  omega

theorem Encoded.addFile (options : TarEntryOptions) (h : Encoded r) (hpath : ProperPath name)
    (hsize : ∀ q ∈ size, q < 2 ^ 53) :
    Encoded (r.addFile name size options).2 ∧ Tame r (r.addFile name size options) ∧
      EmitsHeader r (r.addFile name size options) := by
  obtain ⟨err, heq⟩ | ⟨hfinal, hremaining, q, hq, hint, header, hheader, heq⟩ :=
    encoder_addFile r.encoder name size options
  · rw [TarRun.addFile, heq]
    exact ⟨h, fun _ _ => rfl, fun hok => nomatch hok⟩
  · obtain rfl := Option.mem_def.mp hq
    have hlt : q.num.toNat < 2 ^ 53 := isInt_num_lt hint (by exact_mod_cast hsize q rfl) (by norm_num)
    have hheader := buildHeader_isHeader hpath hlt hheader
    rw [TarRun.addFile, heq]
    refine ⟨?_, fun _ herr => (nomatch herr), fun _ => ⟨header, rfl, hheader.length, hheader.checksum⟩⟩
    have harchive := (h.ready hfinal hremaining).1
    -- an empty file is complete at once
    have hentry : IsHeader (TarEntry.mk name q.num.toNat []).name (TarEntry.mk name q.num.toNat []).size header :=
      hheader
    rcases Nat.eq_zero_or_pos q.num.toNat with hzero | hpos
    · have hdone := Encoded.complete harchive hentry hzero.symm
      dsimp only at hdone ⊢
      rw [Option.getD_some, hzero]
      rw [hzero, List.append_nil, padding, List.replicate_zero, List.append_nil] at hdone
      exact hdone
    · have hbegun := Encoded.within harchive hentry hpos (Nat.zero_add _)
      dsimp only at hbegun
      rw [List.append_nil] at hbegun
      exact hbegun

theorem writeData_empty (h : r.encoder.writeData [] = (.ok (), r.encoder)) : r.writeData [] = (.ok (), r) := by
  obtain ⟨e, entries⟩ := r
  rw [TarRun.writeData, h]
  cases entries with
  | nil => rfl
  | cons entry entries => simp only [List.append_nil]

theorem Encoded.writeData (h : Encoded r) : Encoded (r.writeData chunk).2 ∧ Tame r (r.writeData chunk) := by
  obtain ⟨err, heq⟩ | ⟨rfl, heq⟩ | ⟨hfinal, hlt, heq⟩ | ⟨hfinal, hpos, hall, heq⟩ := encoder_writeData r.encoder chunk
  · rw [TarRun.writeData, heq]
    exact ⟨h, fun _ _ => rfl⟩
  · rw [writeData_empty heq]
    exact ⟨h, fun _ herr => (nomatch herr)⟩
  · rw [TarRun.writeData, heq]
    refine ⟨?_, fun _ herr => (nomatch herr)⟩
    cases h with
    | between _ => exact absurd hlt (Nat.not_lt_zero _)
    | @within entries bytes header entry n harchive hheader hn hdata =>
      have hentry : IsHeader (TarEntry.mk entry.name entry.size (entry.data ++ chunk)).name entry.size header := hheader
      dsimp only at hlt ⊢
      have hlength : (entry.data ++ chunk).length + (n - chunk.length) = entry.size := by
        rw [List.length_append]
        omega
      rw [List.append_assoc (bytes ++ header)]
      exact .within harchive hentry (Nat.sub_pos_of_lt hlt) hlength
    | finished _ => cases hfinal
  · rw [TarRun.writeData, heq]
    refine ⟨?_, fun _ herr => (nomatch herr)⟩
    cases h with
    | between _ => exact absurd hall hpos.ne'
    | @within entries bytes header entry n harchive hheader hn hdata =>
      have hentry : IsHeader (TarEntry.mk entry.name entry.size (entry.data ++ chunk)).name entry.size header := hheader
      have hlength : (entry.data ++ chunk).length = entry.size := by
        rw [List.length_append, hall]
        exact hdata
      rw [List.append_assoc (bytes ++ header)]
      exact .complete harchive hentry hlength
    | finished _ => cases hfinal

theorem Encoded.finalize (h : Encoded r) : Encoded r.finalize.2 ∧ Tame r r.finalize := by
  obtain ⟨err, heq⟩ | ⟨hfinal, hremaining, heq⟩ := encoder_finalize r.encoder
  · rw [TarRun.finalize, heq]
    exact ⟨h, fun _ _ => rfl⟩
  · obtain ⟨harchive, hpad⟩ := h.ready hfinal hremaining
    rw [TarRun.finalize, heq]
    refine ⟨?_, fun _ herr => (nomatch herr)⟩
    dsimp only
    rw [hpad]
    exact .finished harchive

/-- A call with a relative path, free of NUL and of byte order marks, and with a size below `2 ^ 53`. -/
def TarCall.Proper : TarCall → Prop
  | .addFile name size _ => ProperPath name ∧ ∀ q ∈ size, q < 2 ^ 53
  | .writeData _ => True
  | .addFileData name data _ => ProperPath name ∧ data.length < 2 ^ 53
  | .finalize => True

/-- The entries, the last one first, after a call that goes through. -/
def TarCall.enters (c : TarCall) (entries : List TarEntry) : List TarEntry :=
  match c with
  | .addFile name size _ => ⟨name, (size.getD 0).num.toNat, []⟩ :: entries
  | .writeData chunk => entries.modifyHead fun entry => { entry with data := entry.data ++ chunk }
  | .addFileData name data _ => ⟨name, data.length, data⟩ :: entries
  | .finalize => entries

/-- A call that is rejected leaves everything as it was, one that goes through enters what it was called
with, and a file that is accepted emits its header. `addFileData` is its two calls, of which the
second is not rejected. -/
def Behaves (r : TarRun) (c : TarCall) : Prop :=
  Tame r (r.call c) ∧ ((r.call c).1 = .ok () → (r.call c).2.entries = c.enters r.entries) ∧
    match c with
    | .addFile name size options => EmitsHeader r (r.addFile name size options)
    | .writeData _ => True
    | .addFileData name data options =>
      let added := r.addFile name (some data.length) options
      Tame r added ∧ EmitsHeader r added ∧ (added.1 = .ok () → (added.2.writeData data).1 = .ok ())
    | .finalize => r.finalize.1 = .ok () → r.finalize.2.encoder.finalized = true

theorem addFile_enters (r : TarRun) (name : String) (size : Option ℚ) (options : TarEntryOptions)
    (h : (r.addFile name size options).1 = .ok ()) :
    (r.addFile name size options).2.entries = ⟨name, (size.getD 0).num.toNat, []⟩ :: r.entries := by
  rw [TarRun.addFile] at h ⊢
  split at h
  · rfl
  · cases h

theorem writeData_enters (r : TarRun) (chunk : Bytes) (h : (r.writeData chunk).1 = .ok ()) :
    (r.writeData chunk).2.entries = r.entries.modifyHead fun entry => { entry with data := entry.data ++ chunk } := by
  rw [TarRun.writeData] at h ⊢
  split at h
  · cases r.entries with
    | nil => rfl
    | cons entry entries => rfl
  · cases h

/-- The payload of a file that has just been accepted for it is accepted too. -/
theorem writeData_accepted (r : TarRun) (name : String) (data : Bytes) (options : TarEntryOptions)
    (h : (r.addFile name (some data.length) options).1 = .ok ()) :
    ((r.addFile name (some data.length) options).2.writeData data).1 = .ok () := by
  have haccepts : ∀ (e : TarEncoder) (entries : List TarEntry), e.finalized = false → e.remaining = data.length →
      (TarRun.writeData ⟨e, entries⟩ data).1 = .ok () := by
    intro e entries hfinal hremaining
    have hencoder : (e.writeData data).1 = .ok () := by
      rw [TarEncoder.writeData, if_neg (by rw [hfinal]; exact Bool.false_ne_true)]
      split_ifs with hempty hover
      · rfl
      · exact absurd hover (by omega)
      · dsimp only
        split_ifs
        all_goals rfl
    rw [TarRun.writeData]
    split
    · rfl
    next heq =>
      rw [heq] at hencoder
      cases hencoder
  obtain ⟨err, heq⟩ | ⟨-, -, q, hq, -, header, -, heq⟩ := encoder_addFile r.encoder name (some data.length) options
  · rw [TarRun.addFile, heq] at h
    cases h
  · obtain rfl := Option.some.inj hq
    rw [TarRun.addFile, heq]
    exact haccepts _ _ rfl (by rw [Rat.num_natCast, Int.toNat_natCast])

/-- `addFileData` is rejected by its `addFile`, or goes through with all its data. -/
theorem addFileData_enters (r : TarRun) (name : String) (data : Bytes) (options : TarEntryOptions)
    (htame : Tame r (r.addFile name (some data.length) options)) :
    Tame r (r.addFileData name data options) ∧ ((r.addFileData name data options).1 = .ok () →
      (r.addFileData name data options).2.entries = ⟨name, data.length, data⟩ :: r.entries) := by
  have hadd := addFile_enters r name (some data.length) options
  have haccepted := writeData_accepted r name data options
  rw [TarRun.addFileData]
  rcases hadded : r.addFile name (some data.length) options with ⟨err | u, t⟩
  · rw [hadded] at htame
    exact ⟨fun err' herr => htame err rfl, fun hok => nomatch hok⟩
  · rw [hadded] at hadd haccepted
    have hok : (t.writeData data).1 = .ok () := haccepted rfl
    refine ⟨fun err herr => ?_, fun _ => ?_⟩
    · exact nomatch hok.symm.trans herr
    · have hentries : t.entries = ⟨name, data.length, []⟩ :: r.entries := by simpa using hadd rfl
      change (t.writeData data).2.entries = _
      rw [writeData_enters t data hok, hentries]
      rfl

theorem finalize_finalized (r : TarRun) (h : r.finalize.1 = .ok ()) : r.finalize.2.encoder.finalized = true := by
  obtain ⟨err, heq⟩ | ⟨_, _, heq⟩ := encoder_finalize r.encoder
  · rw [TarRun.finalize, heq] at h
    cases h
  · rw [TarRun.finalize, heq]

/-- What is left after a call, and what the call did. -/
theorem Encoded.call {c : TarCall} (h : Encoded r) (hproper : c.Proper) : Encoded (r.call c).2 ∧ Behaves r c := by
  cases c with
  | addFile name size options =>
    obtain ⟨hencoded, htame, hheaded⟩ := h.addFile options hproper.1 hproper.2
    exact ⟨hencoded, htame, addFile_enters r name size options, hheaded⟩
  | writeData chunk => exact ⟨h.writeData.1, h.writeData.2, writeData_enters r chunk, trivial⟩
  | addFileData name data options =>
    have hsize : ∀ q ∈ some (data.length : ℚ), q < 2 ^ 53 := by
      intro q hq
      rw [← Option.some.inj hq]
      exact_mod_cast hproper.2
    obtain ⟨hencoded, htame, hheaded⟩ := h.addFile options hproper.1 hsize
    obtain ⟨hrejects, henters⟩ := addFileData_enters r name data options htame
    refine ⟨?_, hrejects, henters, htame, hheaded, writeData_accepted r name data options⟩
    rw [TarRun.call, TarRun.addFileData]
    rcases hadded : r.addFile name (some data.length) options with ⟨err | u, t⟩
    · rw [hadded] at hencoded
      exact hencoded
    · rw [hadded] at hencoded
      exact hencoded.writeData.1
  | finalize => exact ⟨h.finalize.1, h.finalize.2, fun _ => rfl, finalize_finalized r⟩

theorem Encoded.aligned (h : Encoded r) (hremaining : r.encoder.remaining = 0) :
    r.encoder.emitted.length % 512 = 0 := by
  cases h with
  | between harchive => exact harchive.length_mod
  | within _ _ hn _ =>
    dsimp only at hremaining
    omega
  | finished harchive =>
    have hmod := harchive.length_mod
    rw [List.length_append, List.length_replicate]
    omega

theorem Encoded.read (h : Encoded r) (hfinal : r.encoder.finalized = true) :
    untar r.encoder.emitted.length r.encoder.emitted = some (r.entries.reverse, List.replicate 1024 0) := by
  cases h with
  | between _ => cases hfinal
  | within _ _ _ _ => cases hfinal
  | finished harchive => exact harchive.untar_finished

/-- Any calls give an archive that is read back. -/
theorem tar_round_trip {calls : List TarCall} (hproper : ∀ c ∈ calls, c.Proper)
    (hrun : Runs.exec TarRun.step {} calls = some r) :
    Runs.Along TarRun.step Behaves {} calls ∧ (r.encoder.remaining = 0 → r.encoder.emitted.length % 512 = 0) ∧
      (r.encoder.finalized = true →
        untar r.encoder.emitted.length r.encoder.emitted = some (r.entries.reverse, List.replicate 1024 0)) := by
  have halong : Runs.Along TarRun.step (fun _ c => c.Proper) {} calls := Runs.Along.of_forall hproper
  have hstep : ∀ r c t, Encoded r → c.Proper → TarRun.step r c = some t → Encoded t := by
    intro r c t h hc ht
    rw [← Option.some.inj ht]
    exact (h.call hc).1
  have hempty : Encoded {} := .between .nil
  have hend := Runs.exec_invariant hstep hempty halong hrun
  exact ⟨Runs.Along.of_invariant hstep (fun r c h hc => (h.call hc).2) hempty halong, hend.aligned, hend.read⟩

/-- A file in two chunks, with a file that is refused between them, and one that is given at once. -/
def twoFiles : List TarCall :=
  [.addFile "CURRENT" (some 3) {}, .writeData [1, 2], .addFile "LOCK" (some 0) {}, .writeData [3],
    .addFileData "OPTIONS" [4, 5] {}, .finalize]

theorem tar_round_trip_two : (Runs.final TarRun.step {} twoFiles).encoder.finalized = true ∧
    untar 3072 (Runs.final TarRun.step {} twoFiles).encoder.emitted =
      some ([⟨"CURRENT", 3, [1, 2, 3]⟩, ⟨"OPTIONS", 2, [4, 5]⟩], List.replicate 1024 0) := by
  have hfinal : (Runs.final TarRun.step {} twoFiles).encoder.finalized = true := by decide +kernel
  have hlength : (Runs.final TarRun.step {} twoFiles).encoder.emitted.length = 3072 := by decide +kernel
  have hentries : (Runs.final TarRun.step {} twoFiles).entries =
      [⟨"OPTIONS", 2, [4, 5]⟩, ⟨"CURRENT", 3, [1, 2, 3]⟩] := by
    decide +kernel
  have hcurrent : ProperPath "CURRENT" := ⟨by decide, by decide, by decide⟩
  have hlock : ProperPath "LOCK" := ⟨by decide, by decide, by decide⟩
  have hoptions : ProperPath "OPTIONS" := ⟨by decide, by decide, by decide⟩
  have hproper : ∀ c ∈ twoFiles, c.Proper := by
    simp only [twoFiles, List.forall_mem_cons]
    refine ⟨⟨hcurrent, ?_⟩, trivial, ⟨hlock, ?_⟩, trivial, ⟨hoptions, by decide⟩, trivial, fun _ h => (nomatch h)⟩
    all_goals
      intro q hq
      rw [← Option.some.inj hq]
      norm_num
  have hround := (tar_round_trip hproper (Runs.exec_final TarRun.step {} twoFiles (by decide +kernel))).2.2 hfinal
  rw [hlength, hentries] at hround
  exact ⟨hfinal, hround⟩

end Runs

end RocksdbJs
