import RocksdbJs.Sanity.Stamped

/-! The log as one list: the records of all its files with their places, in the order of the file
numbers. An append makes the list longer at its end, and what lies at or behind a boundary in one
file is the rest of that file and then the files after it. -/

namespace RocksdbJs

open TransactionLogStore

/-- The records of file `seq` with their places. -/
def fileShelf (seq : ℕ) (bytes : Bytes) : List (LogPosition × LogRecord) :=
  (located TRANSACTION_LOG_FILE_HEADER_SIZE (fileRecords bytes)).map fun x => (⟨x.1, seq⟩, x.2)

/-- The records of the log with their places. -/
def Disk.shelf (d : Disk) : List (LogPosition × LogRecord) := d.logs.entries.flatMap fun e => fileShelf e.1 e.2

/-- The records at or behind `p`. -/
def Disk.recordsFrom (d : Disk) (p : LogPosition) : List LogRecord := (d.shelf.filter fun x => p ≤ x.1).map Prod.snd

/-- The records from `p` on up to `q`. -/
def Disk.recordsBetween (d : Disk) (p q : LogPosition) : List LogRecord :=
  (d.shelf.filter fun x => p ≤ x.1 ∧ x.1 < q).map Prod.snd

/-- The end of the first records of file `seq`. -/
def endOf (seq : ℕ) (front : List LogRecord) : LogPosition :=
  ⟨TRANSACTION_LOG_FILE_HEADER_SIZE + (frames front).length, seq⟩

/-- `p` is where an entry of its file ends or the first one begins; zero is before the header. -/
def Disk.Marks (d : Disk) (p : LogPosition) : Prop :=
  p.positionInLogFile = 0 ∨ ∃ front, front <+: fileRecords (d.bytes p.logSequenceNumber) ∧
    p = endOf p.logSequenceNumber front

section
variable {d d' : Disk} {seq : ℕ} {p : LogPosition}

theorem located_lt {offset : ℕ} {rs : List LogRecord} : ∀ x ∈ located offset rs, x.1 < offset + (frames rs).length := by
  induction rs generalizing offset with
  | nil => exact fun x hx => by cases hx
  | cons r rs ih =>
    intro x hx
    have hframe := r.frame_length
    have h13 : TRANSACTION_LOG_ENTRY_HEADER_SIZE = 13 := rfl
    rw [frames_cons, List.length_append]
    rcases List.mem_cons.mp hx with rfl | hx
    · show offset < _
      omega
    · have := ih x hx
      omega

theorem located_map (offset : ℕ) (rs : List LogRecord) : (located offset rs).map Prod.snd = rs := by
  induction rs generalizing offset with
  | nil => rfl
  | cons r rs ih => rw [located, List.map_cons, ih]

theorem mem_fileShelf {bytes : Bytes} {x : LogPosition × LogRecord} (hx : x ∈ fileShelf seq bytes) :
    x.1.logSequenceNumber = seq ∧ TRANSACTION_LOG_FILE_HEADER_SIZE ≤ x.1.positionInLogFile ∧
      x.1 < endOf seq (fileRecords bytes) := by
  obtain ⟨y, hy, rfl⟩ := List.mem_map.mp hx
  refine ⟨rfl, (located_mem y hy).2, ?_⟩
  rw [LogPosition.lt_iff]
  exact Or.inr ⟨rfl, located_lt y hy⟩

theorem mem_shelf {x : LogPosition × LogRecord} :
    x ∈ d.shelf ↔ ∃ bytes, d.logs.get? x.1.logSequenceNumber = some bytes ∧
    x ∈ fileShelf x.1.logSequenceNumber bytes := by
  constructor
  · intro hx
    obtain ⟨⟨k, bytes⟩, he, hx⟩ := List.mem_flatMap.mp hx
    have hk := (mem_fileShelf hx).1
    simp only at hk hx
    subst hk
    exact ⟨bytes, SeqMap.get?_eq_some_iff.mpr he, hx⟩
  · rintro ⟨bytes, hb, hx⟩
    exact List.mem_flatMap.mpr ⟨(_, bytes), SeqMap.get?_eq_some_iff.mp hb, hx⟩

/-- What lies behind the first records of a file is the rest of them. -/
theorem fileShelf_filter {bytes : Bytes} {front rest : List LogRecord} (h : fileRecords bytes = front ++ rest) :
    ((fileShelf seq bytes).filter fun x => endOf seq front ≤ x.1).map Prod.snd = rest := by
  have hle : ∀ offset,
      ((fun x : LogPosition × LogRecord => decide (endOf seq front ≤ x.1)) ∘ fun y : ℕ × LogRecord => (⟨y.1, seq⟩, y.2))
        (offset : ℕ × LogRecord) = decide (TRANSACTION_LOG_FILE_HEADER_SIZE + (frames front).length ≤ offset.1) := by
    intro offset
    simp [endOf, LogPosition.le_iff]
  rw [fileShelf, List.filter_map, List.map_map, h, located_append, List.filter_append]
  have hfront : (located TRANSACTION_LOG_FILE_HEADER_SIZE front).filter ((fun x : LogPosition × LogRecord =>
      decide (endOf seq front ≤ x.1)) ∘ fun y : ℕ × LogRecord => (⟨y.1, seq⟩, y.2)) = [] := by
    refine List.filter_eq_nil_iff.mpr fun x hx => ?_
    rw [hle, decide_eq_true_iff, not_le]
    exact located_lt x hx
  have hrest : (located (TRANSACTION_LOG_FILE_HEADER_SIZE + (frames front).length) rest).filter
      ((fun x : LogPosition × LogRecord => decide (endOf seq front ≤ x.1)) ∘ fun y :
        ℕ × LogRecord => (⟨y.1, seq⟩, y.2)) =
      located (TRANSACTION_LOG_FILE_HEADER_SIZE + (frames front).length) rest := by
    refine List.filter_eq_self.mpr fun x hx => ?_
    rw [hle, decide_eq_true_iff]
    exact (located_mem x hx).2
  rw [hfront, hrest, List.nil_append]
  exact located_map _ _

theorem fileShelf_all {bytes : Bytes} (h : p.logSequenceNumber < seq) :
    ((fileShelf seq bytes).filter fun x => p ≤ x.1) = fileShelf seq bytes := by
  refine List.filter_eq_self.mpr fun x hx => ?_
  rw [decide_eq_true_iff, LogPosition.le_iff, (mem_fileShelf hx).1]
  exact Or.inl h

theorem fileShelf_none {bytes : Bytes} (h : seq < p.logSequenceNumber) :
    ((fileShelf seq bytes).filter fun x => p ≤ x.1) = [] := by
  refine List.filter_eq_nil_iff.mpr fun x hx => ?_
  rw [decide_eq_true_iff, not_le, LogPosition.lt_iff, (mem_fileShelf hx).1]
  exact Or.inl h

/-- A walk over a sorted map with nothing before `k` is what stands at `k` and then the walk over
the rest. -/
theorem flatMap_from {α β : Type*} {k : ℕ} {f g : ℕ × α → List β} {m : List (ℕ × α)}
    (hs : (m.map Prod.fst).Pairwise (· < ·)) (hlt : ∀ e, e.1 < k → f e = [] ∧ g e = [])
    (heq : ∀ v, g (k, v) = []) (hgt : ∀ e, k < e.1 → f e = g e) :
    m.flatMap f = ((m.lookup k).map fun v => f (k, v)).getD [] ++ m.flatMap g := by
  induction m with
  | nil => rfl
  | cons e m ih =>
    obtain ⟨i, v⟩ := e
    rw [List.map_cons, List.pairwise_cons] at hs
    rw [List.flatMap_cons, List.flatMap_cons, SeqMap.lookup_cons_eq]
    rcases Nat.lt_trichotomy i k with h | rfl | h
    · rw [if_neg (by omega), (hlt (i, v) h).1, (hlt (i, v) h).2, List.nil_append, List.nil_append, ih hs.2]
    · rw [if_pos rfl, heq, List.nil_append, Option.map_some, Option.getD_some]
      exact congrArg _ (List.flatMap_congr fun e he => hgt e (hs.1 e.1 (List.mem_map_of_mem he)))
    · have hnone : m.lookup k = none := by
        cases hl : m.lookup k with
        | none => rfl
        | some w =>
          have := hs.1 k (List.mem_map_of_mem (SeqMap.mem_of_lookup hl))
          omega
      rw [if_neg (by omega), hnone, Option.map_none, Option.getD_none, List.nil_append, hgt (i, v) h]
      refine congrArg _ (List.flatMap_congr fun e he => hgt e ?_)
      exact h.trans (hs.1 e.1 (List.mem_map_of_mem he))

theorem recordsFrom_eq (d : Disk) (p : LogPosition) :
    d.recordsFrom p = d.logs.entries.flatMap fun e => ((fileShelf e.1 e.2).filter fun x => p ≤ x.1).map Prod.snd := by
  rw [Disk.recordsFrom, Disk.shelf, List.filter_flatMap, List.map_flatMap]

/-- What lies at or behind a boundary in one file: the rest of the file, then the files after it. -/
theorem recordsFrom_file {front rest : List LogRecord} (h : fileRecords (d.bytes seq) = front ++ rest) :
    d.recordsFrom (endOf seq front) = rest ++ d.recordsFrom ⟨0, seq + 1⟩ := by
  rw [recordsFrom_eq, recordsFrom_eq, flatMap_from (k := seq) d.logs.sorted
    (g := fun e => ((fileShelf e.1 e.2).filter fun x => (⟨0, seq + 1⟩ : LogPosition) ≤ x.1).map Prod.snd)]
  · congr 1
    cases hb : d.logs.get? seq with
    | none =>
      rw [Disk.bytes_none hb, fileRecords_nil] at h
      rw [show List.lookup seq d.logs.entries = none from hb, (List.nil_eq_append_iff.mp h).2]
      rfl
    | some bytes =>
      rw [Disk.bytes_eq hb] at h
      rw [show List.lookup seq d.logs.entries = some bytes from hb]
      exact fileShelf_filter h
  · intro e he
    rw [fileShelf_none (show e.1 < (endOf seq front).logSequenceNumber from he),
      fileShelf_none (show e.1 < seq + 1 by omega)]
    exact ⟨rfl, rfl⟩
  · intro v
    rw [fileShelf_none (Nat.lt_succ_self seq)]
    rfl
  · intro e he
    rw [fileShelf_all (show (endOf seq front).logSequenceNumber < e.1 from he)]
    rcases Nat.lt_or_ge (seq + 1) e.1 with h1 | h1
    · rw [fileShelf_all (show (⟨0, seq + 1⟩ : LogPosition).logSequenceNumber < e.1 from h1)]
    · rw [List.filter_eq_self.mpr]
      intro x hx
      rw [decide_eq_true_iff, LogPosition.le_iff, (mem_fileShelf hx).1]
      exact Or.inr ⟨by change seq + 1 = e.1; omega, Nat.zero_le _⟩

/-- The beginning of a file is where its first record begins. -/
theorem recordsFrom_begin (d : Disk) (seq : ℕ) : d.recordsFrom (endOf seq []) = d.recordsFrom ⟨0, seq⟩ := by
  unfold Disk.recordsFrom
  refine congrArg _ (List.filter_congr fun x hx => ?_)
  obtain ⟨bytes, -, hx⟩ := mem_shelf.mp hx
  have h13 := (mem_fileShelf hx).2.1
  refine decide_eq_decide.mpr ?_
  rw [LogPosition.le_iff, LogPosition.le_iff]
  simp only [endOf, frames_nil, List.length_nil, Nat.add_zero, h13, Nat.zero_le, and_true]

/-- Behind the last record of a file lie the files after it. -/
theorem recordsFrom_end (d : Disk) (seq : ℕ) :
    d.recordsFrom (endOf seq (fileRecords (d.bytes seq))) = d.recordsFrom (endOf (seq + 1) []) := by
  rw [recordsFrom_file (List.append_nil _).symm, List.nil_append, recordsFrom_begin]

theorem located_sorted (offset : ℕ) (rs : List LogRecord) : (located offset rs).Pairwise fun a b => a.1 < b.1 := by
  induction rs generalizing offset with
  | nil => exact List.Pairwise.nil
  | cons r rs ih =>
    have hframe := r.frame_length
    have h13 : TRANSACTION_LOG_ENTRY_HEADER_SIZE = 13 := rfl
    refine List.pairwise_cons.mpr ⟨fun x hx => ?_, ih _⟩
    have hle := (located_mem x hx).2
    change offset < x.1
    omega

theorem shelf_sorted (d : Disk) : d.shelf.Pairwise fun a b => a.1 < b.1 := by
  refine List.pairwise_flatMap.mpr ⟨fun e _ => ?_,
    (List.pairwise_map.mp d.logs.sorted).imp fun {e e'} hlt x hx x' hx' => ?_⟩
  · refine List.pairwise_map.mpr ((located_sorted _ _).imp fun {a b} hlt => ?_)
    rw [LogPosition.lt_iff]
    exact Or.inr ⟨rfl, hlt⟩
  · rw [LogPosition.lt_iff, (mem_fileShelf hx).1, (mem_fileShelf hx').1]
    exact Or.inl hlt

/-- What lies from `p` on is what lies up to `q`, and then what lies from `q` on. -/
theorem recordsFrom_split {q : LogPosition} (d : Disk) (h : p ≤ q) :
    d.recordsFrom p = d.recordsBetween p q ++ d.recordsFrom q := by
  have hsplit : ∀ l : List (LogPosition × LogRecord), l.Pairwise (fun a b => a.1 < b.1) →
      (l.filter fun x => p ≤ x.1) = (l.filter fun x => p ≤ x.1 ∧ x.1 < q) ++ l.filter fun x => q ≤ x.1 := by
    intro l hl
    induction l with
    | nil => rfl
    | cons x l ih =>
      rw [List.pairwise_cons] at hl
      rw [List.filter_cons, List.filter_cons, List.filter_cons, ih hl.2]
      by_cases hq : q ≤ x.1
      · -- all that follows is past `q` too
        have hnone : (l.filter fun x => p ≤ x.1 ∧ x.1 < q) = [] := by
          refine List.filter_eq_nil_iff.mpr fun z hz => ?_
          rw [decide_eq_true_iff]
          exact fun hlt => absurd (hq.trans_lt (hl.1 z hz)) hlt.2.asymm
        rw [hnone, if_pos (decide_eq_true (h.trans hq)), if_neg (by simp [hq]), if_pos (decide_eq_true hq)]
        rfl
      · rw [if_neg (show ¬ decide (q ≤ x.1) = true by simp [hq])]
        by_cases hp : p ≤ x.1
        · rw [if_pos (decide_eq_true hp), if_pos (decide_eq_true ⟨hp, not_le.mp hq⟩)]
          rfl
        · rw [if_neg (by simp [hp]), if_neg (by simp [hp])]
  rw [Disk.recordsFrom, Disk.recordsBetween, Disk.recordsFrom, hsplit _ (shelf_sorted d), List.map_append]

/-- The log has grown by `more`, all of it behind what there was. -/
structure Disk.Lengthens (d d' : Disk) (more : List (LogPosition × LogRecord)) : Prop where
  shelf : d'.shelf = d.shelf ++ more
  records : ∀ q, fileRecords (d.bytes q) <+: fileRecords (d'.bytes q)
  kept : ∀ q, (d.logs.get? q).isSome → (d'.logs.get? q).isSome
  behind : ∀ q, (d.logs.get? q).isSome → ∀ x ∈ more, endOf q (fileRecords (d.bytes q)) ≤ x.1

theorem Disk.Lengthens.refl (d : Disk) : d.Lengthens d [] :=
  ⟨(List.append_nil _).symm, fun _ => List.prefix_rfl, fun _ => id, fun _ _ x hx => by cases hx⟩

theorem Disk.Lengthens.marks {more : List (LogPosition × LogRecord)} (h : d.Lengthens d' more)
    (hp : d.Marks p) : d'.Marks p :=
  hp.imp_right fun ⟨front, hfront, heq⟩ => ⟨front, hfront.trans (h.records _), heq⟩

theorem endOf_le {front rs : List LogRecord} (h : front <+: rs) : endOf seq front ≤ endOf seq rs := by
  obtain ⟨rest, rfl⟩ := h
  rw [LogPosition.le_iff]
  refine Or.inr ⟨rfl, ?_⟩
  simp only [endOf, frames_append, List.length_append]
  omega

theorem Disk.Lengthens.of_logs (h : d'.logs = d.logs) : d.Lengthens d' [] := by
  have hbytes : ∀ q, d'.bytes q = d.bytes q := fun q => by rw [Disk.bytes, Disk.bytes, h]
  refine ⟨by rw [Disk.shelf, Disk.shelf, h, List.append_nil], fun q => by rw [hbytes], fun q hq => by rw [h]; exact hq,
    fun _ _ x hx => by cases hx⟩

theorem Disk.Lengthens.trans {d'' : Disk} {more more' : List (LogPosition × LogRecord)} (h : d.Lengthens d' more)
    (h' : d'.Lengthens d'' more') : d.Lengthens d'' (more ++ more') := by
  refine ⟨by rw [h'.shelf, h.shelf, List.append_assoc], fun q => (h.records q).trans (h'.records q),
    fun q hq => h'.kept q (h.kept q hq), fun q hq x hx => ?_⟩
  rcases List.mem_append.mp hx with hx | hx
  · exact h.behind q hq x hx
  · exact (endOf_le (h.records q)).trans (h'.behind q (h.kept q hq) x hx)

/-- The last file grows by `rs`, or a new last file comes with them. -/
theorem Disk.Lengthens.set {bytes : Bytes} {rs : List LogRecord} (dir : Bool)
    (hmax : ∀ q, (d.logs.get? q).isSome → q ≤ seq)
    (hrec : fileRecords bytes = fileRecords (d.bytes seq) ++ rs) :
    d.Lengthens { d with logs := d.logs.set seq bytes, directory := dir }
      ((located (TRANSACTION_LOG_FILE_HEADER_SIZE + (frames (fileRecords (d.bytes seq))).length) rs).map
        fun x => (⟨x.1, seq⟩, x.2)) := by
  have hfile : fileShelf seq bytes = fileShelf seq (d.bytes seq) ++
      (located (TRANSACTION_LOG_FILE_HEADER_SIZE + (frames (fileRecords (d.bytes seq))).length) rs).map
        fun x => (⟨x.1, seq⟩, x.2) := by
    rw [fileShelf, hrec, located_append, List.map_append]
    rfl
  refine ⟨?_, fun q => ?_, fun q hq => ?_, fun q hq x hx => ?_⟩
  · unfold Disk.shelf
    cases hg : d.logs.get? seq with
    | some old =>
      obtain ⟨front, hold, hnew⟩ := SeqMap.entries_of_max hmax hg
      rw [Disk.bytes_eq hg] at hfile ⊢
      simp only [hnew, hold, List.flatMap_append, List.flatMap_cons, List.flatMap_nil, List.append_nil, hfile,
        List.append_assoc]
    | none =>
      have hlt : ∀ q, (d.logs.get? q).isSome → q < seq := by
        intro q hq
        refine lt_of_le_of_ne (hmax q hq) ?_
        rintro rfl
        rw [hg] at hq
        cases hq
      have hnil : fileShelf seq (d.bytes seq) = [] := by
        rw [Disk.bytes_none hg, fileShelf, fileRecords_nil]
        rfl
      rw [hnil, List.nil_append] at hfile
      simp only [SeqMap.entries_set_of_lt hlt, List.flatMap_append, List.flatMap_cons, List.flatMap_nil,
        List.append_nil, hfile]
  · rw [Disk.bytes_set]
    split_ifs with hq
    · rw [hq, hrec]
      exact List.prefix_append _ _
    · exact List.prefix_rfl
  · simp only [SeqMap.get?_set]
    split_ifs
    · rfl
    · exact hq
  · obtain ⟨y, hy, rfl⟩ := List.mem_map.mp hx
    have hoff := (located_mem y hy).2
    rw [LogPosition.le_iff]
    rcases (hmax q hq).lt_or_eq with hlt | rfl
    · exact Or.inl hlt
    · exact Or.inr ⟨rfl, hoff⟩

/-- What lies behind a place that is not past the end grows at its end. -/
theorem Disk.Lengthens.recordsFrom {more : List (LogPosition × LogRecord)} (h : d.Lengthens d' more)
    (hle : ∀ x ∈ more, p ≤ x.1) :
    d'.recordsFrom p = d.recordsFrom p ++ more.map Prod.snd := by
  have hall : (more.filter fun x => p ≤ x.1) = more := List.filter_eq_self.mpr fun x hx => decide_eq_true (hle x hx)
  rw [Disk.recordsFrom, h.shelf, List.filter_append, List.map_append, hall]
  rfl

end

end RocksdbJs
