import Mathlib.Data.List.Basic
import Mathlib.Tactic

/-! Blocks of a fixed length that fields are written into: a write, what a block holds at an offset, and that it
goes on to hold what a later write does not touch. -/

namespace ByteBlock
variable {α : Type*} {block bs bs' : List α} {o o' n : ℕ}

/-- The block with `bs` stored at offset `o`. -/
def writeAt (block bs : List α) (o : ℕ) : List α := block.take o ++ bs ++ block.drop (o + bs.length)

def readAt (block : List α) (o n : ℕ) : List α := (block.drop o).take n

/-- The block has `bs` at offset `o`. -/
def HasAt (block : List α) (o : ℕ) (bs : List α) : Prop := ∀ i < bs.length, block[o + i]? = bs[i]?

theorem length_writeAt (h : o + bs.length ≤ block.length) : (writeAt block bs o).length = block.length := by
  rw [writeAt, List.length_append, List.length_append, List.length_take, List.length_drop]
  omega

theorem writeAt_nil (block : List α) (o : ℕ) : writeAt block [] o = block := by
  rw [writeAt, List.append_nil, List.length_nil, Nat.add_zero, List.take_append_drop]

theorem getElem?_writeAt (h : o + bs.length ≤ block.length) (i : ℕ) :
    (writeAt block bs o)[i]? = if o ≤ i ∧ i < o + bs.length then bs[i - o]? else block[i]? := by
  have htake : (block.take o).length = o := by
    rw [List.length_take]
    omega
  rw [writeAt, List.append_assoc]
  by_cases hlow : i < o
  · rw [if_neg (by omega), List.getElem?_append_left (by omega), List.getElem?_take_of_lt hlow]
  · rw [List.getElem?_append_right (by omega), htake]
    by_cases hin : i - o < bs.length
    · rw [if_pos (by omega), List.getElem?_append_left hin]
    · rw [if_neg (by omega), List.getElem?_append_right (by omega), List.getElem?_drop]
      congr 1
      omega

theorem hasAt_writeAt (h : o + bs.length ≤ block.length) : HasAt (writeAt block bs o) o bs := by
  intro i hi
  rw [getElem?_writeAt h, if_pos (by omega)]
  congr 1
  omega

/-- A write elsewhere leaves what the block holds. -/
theorem HasAt.writeAt (hold : HasAt block o bs) (h : o' + bs'.length ≤ block.length)
    (hapart : o + bs.length ≤ o' ∨ o' + bs'.length ≤ o) :
    HasAt (writeAt block bs' o') o bs := by
  intro i hi
  rw [getElem?_writeAt h, if_neg (by omega)]
  exact hold i hi

theorem HasAt.append (h : HasAt block o bs) (h' : HasAt block (o + bs.length) bs') : HasAt block o (bs ++ bs') := by
  intro i hi
  by_cases hlow : i < bs.length
  · rw [List.getElem?_append_left hlow]
    exact h i hlow
  · rw [List.getElem?_append_right (by omega), ← h' (i - bs.length) (by rw [List.length_append] at hi; omega)]
    congr 1
    omega

theorem hasAt_replicate {a : α} (h : o + n ≤ block.length) (hall : ∀ b ∈ block, b = a) :
    HasAt block o (List.replicate n a) := by
  intro i hi
  rw [List.length_replicate] at hi
  have hlt : o + i < block.length := by omega
  rw [List.getElem?_replicate_of_lt hi, List.getElem?_eq_getElem hlt, hall _ (List.getElem_mem hlt)]

theorem HasAt.readAt (h : HasAt block o bs) : readAt block o bs.length = bs := by
  refine List.ext_getElem? fun i => ?_
  rw [ByteBlock.readAt]
  by_cases hi : i < bs.length
  · rw [List.getElem?_take_of_lt hi, List.getElem?_drop]
    exact h i hi
  · rw [List.getElem?_eq_none (by rw [List.length_take]; omega), List.getElem?_eq_none (by omega)]

/-- A write that covers the place of an earlier one is all that is left of both. -/
theorem writeAt_writeAt (h : o + bs.length ≤ block.length) (h' : o' + bs'.length ≤ block.length)
    (hcover : o ≤ o' ∧ o' + bs'.length ≤ o + bs.length) :
    writeAt (writeAt block bs' o') bs o = writeAt block bs o := by
  refine List.ext_getElem? fun i => ?_
  rw [getElem?_writeAt (by rw [length_writeAt h']; exact h), getElem?_writeAt h, getElem?_writeAt h']
  split_ifs
  · rfl
  · omega
  · rfl

section Writes

/-- The block after some writes, in their order. -/
def writeAll (block : List α) (ws : List (List α × ℕ)) : List α := ws.foldl (fun block w => writeAt block w.1 w.2) block

/-- The two places have no byte in common. -/
def Apart (w w' : List α × ℕ) : Prop := w.2 + w.1.length ≤ w'.2 ∨ w'.2 + w'.1.length ≤ w.2

theorem length_writeAll {ws : List (List α × ℕ)} (h : ∀ w ∈ ws, w.2 + w.1.length ≤ block.length) :
    (writeAll block ws).length = block.length := by
  induction ws generalizing block with
  | nil => rfl
  | cons w ws ih =>
    have hlength := length_writeAt (h w List.mem_cons_self)
    have hrest : ∀ w' ∈ ws, w'.2 + w'.1.length ≤ (writeAt block w.1 w.2).length := by
      intro w' hw'
      rw [hlength]
      exact h w' (List.mem_cons_of_mem _ hw')
    exact (ih hrest).trans hlength

theorem HasAt.writeAll {ws : List (List α × ℕ)} (hold : HasAt block o bs)
    (h : ∀ w ∈ ws, w.2 + w.1.length ≤ block.length) (hapart : ∀ w ∈ ws, Apart (bs, o) w) :
    HasAt (writeAll block ws) o bs := by
  induction ws generalizing block with
  | nil => exact hold
  | cons w ws ih =>
    have hfit := h w List.mem_cons_self
    refine ih (hold.writeAt hfit (hapart w List.mem_cons_self)) (fun w' hw' => ?_) fun w' hw' =>
      hapart w' (List.mem_cons_of_mem _ hw')
    rw [length_writeAt hfit]
    exact h w' (List.mem_cons_of_mem _ hw')

/-- Writes to places apart from each other are all there in the end. -/
theorem hasAt_writeAll {ws : List (List α × ℕ)} (h : ∀ w ∈ ws, w.2 + w.1.length ≤ block.length)
    (hapart : ws.Pairwise Apart) :
    ∀ w ∈ ws, HasAt (ByteBlock.writeAll block ws) w.2 w.1 := by
  induction ws generalizing block with
  | nil => exact fun w hw => absurd hw List.not_mem_nil
  | cons w ws ih =>
    have hfit := h w List.mem_cons_self
    have hrest : ∀ w' ∈ ws, w'.2 + w'.1.length ≤ (ByteBlock.writeAt block w.1 w.2).length := by
      intro w' hw'
      rw [length_writeAt hfit]
      exact h w' (List.mem_cons_of_mem _ hw')
    rw [List.pairwise_cons] at hapart
    intro w' hw'
    rcases List.mem_cons.mp hw' with rfl | hw'
    · exact (hasAt_writeAt hfit).writeAll hrest hapart.1
    · exact ih hrest hapart.2 w' hw'

end Writes

end ByteBlock
