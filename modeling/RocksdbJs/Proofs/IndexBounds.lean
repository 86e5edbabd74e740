import Mathlib.Logic.Relation
import RocksdbJs.Sanity.Index

/-! The indexing loop on arbitrary bytes. It trusts the lengths it reads, so whether it ends and
stays inside the mapping depends on the places that those lengths lead to, added up without a
limit: each of them that lies before the size has to have its header in the mapping, and none
of them may be 4 GiB or more. -/

namespace RocksdbJs

namespace TransactionLogFile

/-- One round of the indexing loop: it ends, or goes on with the cursor moved. -/
def indexRound (map : Bytes) (f : TransactionLogFile) :
    Except FindOutcome ((TransactionLogFile × Bool) ⊕ TransactionLogFile) :=
  let pos := f.lastIndexedPosition
  if f.size ≤ pos then .ok (.inl (f, false))
  else if map.length < pos + 8 then .error .outOfBounds
  else
    let entryTimestamp := readDoubleBE map pos
    if entryTimestamp.isZero then
      if !f.hasAppendedSinceOpen then .ok (.inl ({ f with size := pos }, false)) else .ok (.inl (f, true))
    else if pos = TRANSACTION_LOG_FILE_TIMESTAMP_POSITION then
      .ok (.inr (f.reindexed [(entryTimestamp, 0)] TRANSACTION_LOG_FILE_HEADER_SIZE))
    else if map.length < pos + 12 then .error .outOfBounds
    else .ok (.inr (f.reindexed (indexAdd f.positionByTimestampIndex entryTimestamp pos)
      (add32 pos (add32 TRANSACTION_LOG_ENTRY_HEADER_SIZE (readUint32BE map (pos + 8))))))

theorem indexLoop_succ (map : Bytes) (fuel : ℕ) (f : TransactionLogFile) : f.indexLoop map (fuel + 1) =
    match f.indexRound map with
    | .error e => .error e
    | .ok (.inl r) => .ok r
    | .ok (.inr g) => g.indexLoop map fuel := by
  rw [indexLoop, indexRound]
  dsimp only
  split_ifs <;> rfl

/-- A round of the loop on `f` goes on with `g`. -/
def GoesOn (map : Bytes) (f g : TransactionLogFile) : Prop := f.indexRound map = .ok (.inr g)

/-- What the loop should do from `f`: in every round it comes to it reads inside the mapping and
moves its cursor up, by the exact sum, and it ends. -/
structure IndexSound (map : Bytes) (f : TransactionLogFile) : Prop where
  inside : ∀ g, Relation.ReflTransGen (GoesOn map) f g → g.indexRound map ≠ .error .outOfBounds
  rises : ∀ g g', Relation.ReflTransGen (GoesOn map) f g → GoesOn map g g' →
    g.lastIndexedPosition < g'.lastIndexedPosition ∧
      (g.lastIndexedPosition ≠ TRANSACTION_LOG_FILE_TIMESTAMP_POSITION → g'.lastIndexedPosition =
        g.lastIndexedPosition + TRANSACTION_LOG_ENTRY_HEADER_SIZE + readUint32BE map (g.lastIndexedPosition + 8))
  ends : ∃ r, f.indexLoop map (f.size + 2) = .ok r

end TransactionLogFile

/-- The lengths in the file lead from one place to another, past entries with a timestamp that
begin before `size`. -/
inductive LeadsTo (map : Bytes) (size : ℕ) : ℕ → ℕ → Prop
  | refl (pos : ℕ) : LeadsTo map size pos pos
  | header {dest : ℕ} (before : TRANSACTION_LOG_FILE_TIMESTAMP_POSITION < size)
      (stamped : (readDoubleBE map TRANSACTION_LOG_FILE_TIMESTAMP_POSITION).isZero = false)
      (rest : LeadsTo map size TRANSACTION_LOG_FILE_HEADER_SIZE dest) :
      LeadsTo map size TRANSACTION_LOG_FILE_TIMESTAMP_POSITION dest
  | entry {pos dest : ℕ} (place : pos ≠ TRANSACTION_LOG_FILE_TIMESTAMP_POSITION) (before : pos < size)
      (stamped : (readDoubleBE map pos).isZero = false)
      (rest : LeadsTo map size (pos + TRANSACTION_LOG_ENTRY_HEADER_SIZE + readUint32BE map (pos + 8)) dest) :
      LeadsTo map size pos dest

/-- At a place before `size` the mapping has the timestamp, and of an entry with a timestamp its
length too, which does not lead to 4 GiB or more. -/
structure Readable (map : Bytes) (pos : ℕ) : Prop where
  timestamp : pos + 8 ≤ map.length
  length : (readDoubleBE map pos).isZero = false → pos ≠ TRANSACTION_LOG_FILE_TIMESTAMP_POSITION →
    pos + 12 ≤ map.length ∧ pos + TRANSACTION_LOG_ENTRY_HEADER_SIZE + readUint32BE map (pos + 8) < UINT32_RANGE

namespace TransactionLogFile

/-- Every place before its size that the lengths in the file lead to is readable. -/
def IndexReadable (map : Bytes) (f : TransactionLogFile) : Prop :=
  ∀ pos, LeadsTo map f.size f.lastIndexedPosition pos → pos < f.size → Readable map pos

variable {map : Bytes} {f g g' : TransactionLogFile}

/-- A round at a readable place: the loop ends, or it goes on at the next one. -/
theorem indexRound_readable (hlt : g.lastIndexedPosition < g.size) (h : Readable map g.lastIndexedPosition) :
    ((readDoubleBE map g.lastIndexedPosition).isZero = true ∧ ∃ r, g.indexRound map = .ok (.inl r)) ∨
      ∃ g', GoesOn map g g' ∧ g'.size = g.size ∧
      g.lastIndexedPosition < g'.lastIndexedPosition ∧ LeadsTo map g.size g.lastIndexedPosition g'.lastIndexedPosition ∧
      (g.lastIndexedPosition ≠ TRANSACTION_LOG_FILE_TIMESTAMP_POSITION → g'.lastIndexedPosition =
        g.lastIndexedPosition + TRANSACTION_LOG_ENTRY_HEADER_SIZE + readUint32BE map (g.lastIndexedPosition + 8)) := by
  unfold GoesOn indexRound
  dsimp only
  rw [if_neg (not_le.mpr hlt), if_neg (not_lt.mpr h.timestamp)]
  by_cases hzero : (readDoubleBE map g.lastIndexedPosition).isZero = true
  · rw [if_pos hzero]
    refine Or.inl ⟨hzero, ?_⟩
    split_ifs
    · exact ⟨_, rfl⟩
    · exact ⟨_, rfl⟩
  have hstamped : (readDoubleBE map g.lastIndexedPosition).isZero = false := Bool.not_eq_true _ ▸ hzero
  rw [if_neg hzero]
  right
  by_cases hplace : g.lastIndexedPosition = TRANSACTION_LOG_FILE_TIMESTAMP_POSITION
  · rw [if_pos hplace]
    refine ⟨_, rfl, rfl, ?_, ?_, fun hne => absurd hplace hne⟩
    · rw [hplace]
      exact (by decide : TRANSACTION_LOG_FILE_TIMESTAMP_POSITION < TRANSACTION_LOG_FILE_HEADER_SIZE)
    · rw [hplace] at hstamped hlt ⊢
      exact .header hlt hstamped (.refl _)
  · obtain ⟨hlength, hbelow⟩ := h.length hstamped hplace
    rw [if_neg hplace, if_neg (not_lt.mpr hlength)]
    have hexact : add32 g.lastIndexedPosition (add32 TRANSACTION_LOG_ENTRY_HEADER_SIZE
        (readUint32BE map (g.lastIndexedPosition + 8))) =
        g.lastIndexedPosition + TRANSACTION_LOG_ENTRY_HEADER_SIZE + readUint32BE map (g.lastIndexedPosition + 8) := by
      rw [add32, add32, Nat.mod_eq_of_lt (a := TRANSACTION_LOG_ENTRY_HEADER_SIZE + _) (by omega), ← Nat.add_assoc,
        Nat.mod_eq_of_lt hbelow]
    refine ⟨_, rfl, rfl, ?_, ?_, fun _ => hexact⟩
    · change g.lastIndexedPosition < add32 _ _
      rw [hexact]
      simp only [TRANSACTION_LOG_ENTRY_HEADER_SIZE]
      omega
    · change LeadsTo map g.size g.lastIndexedPosition (add32 _ _)
      rw [hexact]
      exact .entry hplace hlt hstamped (.refl _)

theorem indexRound_past (h : g.size ≤ g.lastIndexedPosition) : g.indexRound map = .ok (.inl (g, false)) := if_pos h

end TransactionLogFile

theorem LeadsTo.trans {map : Bytes} {size a b c : ℕ} (h : LeadsTo map size a b)
    (h' : LeadsTo map size b c) : LeadsTo map size a c := by
  induction h with
  | refl pos => exact h'
  | header before stamped rest ih => exact .header before stamped (ih h')
  | entry place before stamped rest ih => exact .entry place before stamped (ih h')

namespace TransactionLogFile
variable {map : Bytes} {f g g' : TransactionLogFile}

/-- What a round that goes on has seen. -/
theorem GoesOn.spec (h : GoesOn map g g') : g.lastIndexedPosition < g.size ∧ g'.size = g.size ∧
    (readDoubleBE map g.lastIndexedPosition).isZero = false ∧
    ((g.lastIndexedPosition = TRANSACTION_LOG_FILE_TIMESTAMP_POSITION ∧ g'.lastIndexedPosition =
      TRANSACTION_LOG_FILE_HEADER_SIZE) ∨
      (g.lastIndexedPosition ≠ TRANSACTION_LOG_FILE_TIMESTAMP_POSITION ∧ g.lastIndexedPosition + 12 ≤ map.length ∧
        g'.lastIndexedPosition = add32 g.lastIndexedPosition
          (add32 TRANSACTION_LOG_ENTRY_HEADER_SIZE (readUint32BE map (g.lastIndexedPosition + 8))))) := by
  unfold GoesOn indexRound at h
  dsimp only at h
  split_ifs at h with h1 h2 h3 h4 h5 h6
  all_goals
    injection h with h
    try cases h
  · exact ⟨not_le.mp h1, rfl, Bool.not_eq_true _ ▸ h3, Or.inl ⟨h5, rfl⟩⟩
  · exact ⟨not_le.mp h1, rfl, Bool.not_eq_true _ ▸ h3, Or.inr ⟨h5, not_lt.mp h6, rfl⟩⟩

theorem GoesOn.unique {a b : TransactionLogFile} (h : GoesOn map g a) (h' : GoesOn map g b) : a = b := by
  rw [GoesOn] at h h'
  rw [h] at h'
  injection h' with h'
  exact Sum.inr.inj h'

theorem GoesOn.not_ended {r : TransactionLogFile × Bool} (h : GoesOn map g g') : g.indexRound map ≠ .ok (.inl r) := by
  intro hr
  rw [GoesOn, hr] at h
  injection h with h
  cases h

/-- Under the condition the loop only comes to readable places. -/
theorem IndexReadable.reached (h : IndexReadable map f) (hreach : Relation.ReflTransGen (GoesOn map) f g) :
    IndexReadable map g ∧ g.size = f.size := by
  induction hreach with
  | refl => exact ⟨h, rfl⟩
  | @tail g g' hreach hgo ih =>
    obtain ⟨hread, hsize⟩ := ih
    have hlt := hgo.spec.1
    rcases indexRound_readable hlt (hread _ (.refl _) hlt) with ⟨hzero, r, hr⟩ | ⟨g'', hgo', hsize', -, hleads, -⟩
    · exact absurd hr hgo.not_ended
    · obtain rfl := hgo'.unique hgo
      refine ⟨fun pos hpos hlt' => hread pos ?_ (hsize' ▸ hlt'), hsize'.trans hsize⟩
      rw [hsize'] at hpos
      exact hleads.trans hpos

theorem IndexReadable.ends (h : IndexReadable map f) {fuel : ℕ}
    (hfuel : f.size < f.lastIndexedPosition + fuel) (hpos : 0 < fuel) :
    ∃ r, f.indexLoop map fuel = .ok r := by
  induction fuel generalizing f with
  | zero => omega
  | succ fuel ih =>
    rw [indexLoop_succ]
    by_cases hlt : f.lastIndexedPosition < f.size
    · rcases indexRound_readable hlt (h _ (.refl _) hlt) with ⟨hzero, r, hr⟩ | ⟨g, hgo, hsize, hrise, -, -⟩
      · rw [hr]
        exact ⟨r, rfl⟩
      · rw [show f.indexRound map = .ok (.inr g) from hgo]
        exact ih (h.reached (.single hgo)).1 (by omega) (by omega)
    · rw [indexRound_past (not_lt.mp hlt)]
      exact ⟨_, rfl⟩

theorem IndexReadable.sound (h : IndexReadable map f) : IndexSound map f := by
  refine ⟨fun g hreach hout => ?_, fun g g' hreach hgo => ?_, h.ends (by omega) (by omega)⟩
  · by_cases hlt : g.lastIndexedPosition < g.size
    · rcases indexRound_readable hlt ((h.reached hreach).1 _ (.refl _) hlt) with ⟨hzero, r, hr⟩ | ⟨g', hgo, -⟩
      · rw [hr] at hout
        cases hout
      · rw [show g.indexRound map = .ok (.inr g') from hgo] at hout
        cases hout
    · rw [indexRound_past (not_lt.mp hlt)] at hout
      cases hout
  · have hlt := hgo.spec.1
    rcases indexRound_readable hlt ((h.reached hreach).1 _ (.refl _) hlt) with ⟨hzero, r, hr⟩ | ⟨g'',
      hgo', -, hrise, -, hexact⟩
    · exact absurd hr hgo.not_ended
    · obtain rfl := hgo'.unique hgo
      exact ⟨hrise, hexact⟩

/-- A place that a sound run of the loop comes to is readable. -/
theorem IndexSound.readable (h : IndexSound map f) (hreach : Relation.ReflTransGen (GoesOn map) f g)
    (hlt : g.lastIndexedPosition < g.size) : Readable map g.lastIndexedPosition := by
  have hinside := h.inside g hreach
  have hgo := fun g' => h.rises g g' hreach
  unfold GoesOn at hgo
  unfold indexRound at hinside hgo
  dsimp only at hinside hgo
  rw [if_neg (not_le.mpr hlt)] at hinside hgo
  by_cases hroom : map.length < g.lastIndexedPosition + 8
  · rw [if_pos hroom] at hinside
    exact absurd rfl hinside
  refine ⟨not_lt.mp hroom, fun hstamped hplace => ?_⟩
  rw [if_neg hroom, if_neg (by rw [hstamped]; exact Bool.false_ne_true), if_neg hplace] at hinside hgo
  by_cases hheader : map.length < g.lastIndexedPosition + 12
  · rw [if_pos hheader] at hinside
    exact absurd rfl hinside
  refine ⟨not_lt.mp hheader, ?_⟩
  rw [if_neg hheader] at hgo
  obtain ⟨-, hexact⟩ := hgo _ rfl
  rw [← hexact hplace]
  exact Nat.mod_lt _ (by decide)

/-- The loop comes to every place that the lengths lead to. -/
theorem IndexSound.reaches (h : IndexSound map f) {pos dest : ℕ} (hleads : LeadsTo map f.size pos dest) :
    ∀ g, Relation.ReflTransGen (GoesOn map) f g → g.size = f.size → g.lastIndexedPosition = pos →
      ∃ g', Relation.ReflTransGen (GoesOn map) f g' ∧ g'.size = f.size ∧ g'.lastIndexedPosition = dest := by
  induction hleads with
  | refl pos => exact fun g hreach hsize hpos => ⟨g, hreach, hsize, hpos⟩
  | header before stamped rest ih =>
    intro g hreach hsize hpos
    have hlt : g.lastIndexedPosition < g.size := by rw [hpos, hsize]; exact before
    rcases indexRound_readable hlt (h.readable hreach hlt) with ⟨hzero, r, hr⟩ | ⟨g', hgo, hsize', -⟩
    · rw [hpos, stamped] at hzero
      cases hzero
    · refine ih g' (hreach.tail hgo) (hsize'.trans hsize) ?_
      rcases hgo.spec.2.2.2 with ⟨-, hnext⟩ | ⟨hne, -⟩
      · exact hnext
      · exact absurd hpos hne
  | entry place before stamped rest ih =>
    intro g hreach hsize hpos
    have hlt : g.lastIndexedPosition < g.size := by rw [hpos, hsize]; exact before
    rcases indexRound_readable hlt (h.readable hreach hlt) with ⟨hzero, r, hr⟩ | ⟨g', hgo, hsize', -, -, hexact⟩
    · rw [hpos, stamped] at hzero
      cases hzero
    · refine ih g' (hreach.tail hgo) (hsize'.trans hsize) ?_
      rw [hexact (by rw [hpos]; exact place), hpos]

theorem IndexSound.indexReadable (h : IndexSound map f) : IndexReadable map f := by
  intro pos hleads hlt
  obtain ⟨g, hreach, hsize, rfl⟩ := h.reaches hleads f .refl rfl rfl
  exact h.readable hreach (hsize ▸ hlt)

/-- On every file image and every length of the mapping, from every state of the object: the
indexing loop of `findPositionByTimestamp` is sound if and only if every place before the size
that the lengths in the file lead to is readable. -/
theorem index_sound_iff (f : TransactionLogFile) (bytes : Bytes) (mapSize : ℕ) (mmapOk : Bool) :
    (∀ length, getMemoryMapLocked mapSize mmapOk = some length → IndexSound (mapView bytes length) f) ↔
      ∀ length, getMemoryMapLocked mapSize mmapOk = some length → IndexReadable (mapView bytes length) f := by
  constructor
  · exact fun h length hmap => (h length hmap).indexReadable
  · exact fun h length hmap => (h length hmap).sound

/-- A header, and an entry whose length is 2 ^ 32 - 13. -/
def wrappingImage : Bytes := fileHeader ⟨5⟩ ++ writeDoubleBE ⟨6⟩ ++ writeUint32BE 0xFFFFFFF3 ++ [0]

/-- The length takes the cursor back to where it is, and the loop does not end. -/
theorem index_spins : ¬ ∀ length, getMemoryMapLocked 26 true = some length → IndexSound (mapView wrappingImage length)
    { sequenceNumber := 1, isOpen := true, timestamp := ⟨5⟩, size := 26 } := by
  intro h
  obtain ⟨r, hr⟩ := (h 26 rfl).ends
  have hspins : (TransactionLogFile.indexLoop (mapView wrappingImage 26) 28
      { sequenceNumber := 1, isOpen := true, timestamp := ⟨5⟩, size := 26 }).toOption = none := by decide +kernel
  rw [hr] at hspins
  cases hspins

end TransactionLogFile

end RocksdbJs
