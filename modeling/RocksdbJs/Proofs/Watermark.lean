import RocksdbJs.Sanity.System

/-! Soundness of the published watermark. It holds along every run that hands out no
position past the end of the log and gives none back twice. It fails after a batch that
fills its file: the writer then pairs the size of the full file with the number of the
next one, and the next transaction's first entry goes below that place. -/

namespace RocksdbJs

namespace Sys

/-- The watermark is at or before every entry of every undecided transaction. -/
def WatermarkSound (y : Sys) : Prop :=
  ∀ x ∈ y.txns, x.decided = false → ∀ l ∈ x.locations, y.world.store.lastCommittedPosition ≤ l

instance (y : Sys) : Decidable y.WatermarkSound :=
  inferInstanceAs (Decidable (∀ x ∈ y.txns, x.decided = false → ∀ l ∈ x.locations, _))

theorem run_inv {cfg : StoreConfig} {y y' : Sys} {as : List Action} (h0 : Initial cfg y)
    (hok : Runs.Along (step cfg) (StepOk cfg) y as) (hrun : Runs.exec (step cfg) y as = some y') : Inv y' :=
  Runs.exec_invariant (fun _ _ _ hi ho hs => (inv_step hi ho hs).1) (inv_initial h0) hok hrun

/-- In every state reached through steps that meet the condition, a reader that stops at
the watermark sees no entry of an undecided transaction. -/
theorem watermark_sound {cfg : StoreConfig} {y y' : Sys} {as : List Action} (h0 : Initial cfg y)
    (hok : Runs.Along (step cfg) (StepOk cfg) y as) (hrun : Runs.exec (step cfg) y as = some y') :
    y'.WatermarkSound :=
  (run_inv h0 hok hrun).watermark

/-- A batch of one entry of `n` bytes. -/
def batchOf (n : ℕ) (h : n + TRANSACTION_LOG_ENTRY_HEADER_SIZE < UINT32_RANGE) : TransactionLogEntryBatch :=
  ⟨⟨5⟩, [⟨List.replicate n 7, by rwa [List.length_replicate]⟩], 0⟩

/-- A `writeBatch` call of such a batch in which every system call succeeds. -/
def wholeWrite (n : ℕ) (h : n + TRANSACTION_LOG_ENTRY_HEADER_SIZE < UINT32_RANGE) : List Action :=
  .beginWrite (batchOf n h) :: List.replicate 8 (.writer { results := [.count (n + 13)] })

/-- Commit and `commitFinished` of transaction `i`. -/
def wholeCommit (i : ℕ) : List Action := [.rocksCommit i 1, .getLatestSequenceNumber i, .commitFinished i]

/-- The writes of two transactions, in a file with room for both. -/
def bothWritten : List Action := wholeWrite 20 (by decide) ++ wholeWrite 20 (by decide)

/-- The two transactions, the later one finished first. -/
def outOfOrder : List Action := bothWritten ++ wholeCommit 0

theorem watermark_sound_outOfOrder :
    ∃ y, Runs.exec (step ⟨200, 0, none⟩) {} outOfOrder = some y ∧ y.WatermarkSound ∧
      ∃ x ∈ y.txns, x.decided = false ∧ x.locations = [⟨13, 1⟩] := by
  refine ⟨(Runs.exec (step ⟨200, 0, none⟩) {} outOfOrder).get (by decide +kernel), (Option.some_get _).symm, ?_,
    by decide +kernel⟩
  exact watermark_sound ⟨rfl, rfl, rfl, rfl, Or.inl ⟨rfl, rfl⟩⟩ (by decide +kernel) (Option.some_get _).symm

/-- One entry fills the file and is committed, then the next transaction writes its own. -/
def fillThenWrite : List Action := wholeWrite 20 (by decide) ++ wholeCommit 0 ++ wholeWrite 20 (by decide)

theorem watermark_passes_undecided :
    ∃ y, Initial ⟨30, 0, none⟩ {} ∧ Runs.exec (step ⟨30, 0, none⟩) {} fillThenWrite = some y ∧ ¬ y.WatermarkSound := by
  refine ⟨(Runs.exec (step ⟨30, 0, none⟩) {} fillThenWrite).get (by decide +kernel),
    ⟨rfl, rfl, rfl, rfl, Or.inl ⟨rfl, rfl⟩⟩, (Option.some_get _).symm, ?_⟩
  decide +kernel

end Sys

end RocksdbJs
