import RocksdbJs.Spec.LogFormat

/-! The framing scan of `transaction_log_recovery.cpp`. The loops carry a fuel
argument so that they evaluate; the entry points give them more than they use. -/

namespace RocksdbJs

/-- Addition of two `uint32_t`. -/
def add32 (a b : ℕ) : ℕ := (a + b) % UINT32_RANGE

/-- The number of consecutive frames that count as resumed framing by themselves. -/
def RESYNC_MIN_FRAMES : ℕ := 8

/-- A complete frame with a non-zero timestamp and a non-zero length starts at `pos`. -/
def frameFits (data : Bytes) (pos fileSize : ℕ) : Bool :=
  if fileSize < pos + TRANSACTION_LOG_ENTRY_HEADER_SIZE then false
  else if (readDoubleBE data pos).isZero then false
  else
    let length := readUint32BE data (pos + 8)
    if length = 0 then false
    else pos + TRANSACTION_LOG_ENTRY_HEADER_SIZE + length ≤ fileSize

/-- Where the frame at `pos` ends. -/
def frameEnd (data : Bytes) (pos : ℕ) : ℕ :=
  add32 pos (add32 TRANSACTION_LOG_ENTRY_HEADER_SIZE (readUint32BE data (pos + 8)))

/-- The inner loop of `validFramingResumes`: the chain of frames that starts at `pos`,
with `frames` already behind it, is long enough or ends the file. -/
def chainResumes (data : Bytes) (fileSize : ℕ) : ℕ → ℕ → ℕ → Bool
  | 0, _, _ => false
  | fuel + 1, pos, frames =>
    if frameFits data pos fileSize then
      let next := frameEnd data pos
      if RESYNC_MIN_FRAMES ≤ frames + 1 ∨ next = fileSize then true
      else chainResumes data fileSize fuel next (frames + 1)
    else false

/-- Some offset from `start` on begins such a chain. -/
def validFramingResumesFrom (data : Bytes) (fileSize : ℕ) : ℕ → ℕ → Bool
  | 0, _ => false
  | fuel + 1, start =>
    if start + TRANSACTION_LOG_ENTRY_HEADER_SIZE ≤ fileSize then
      if chainResumes data fileSize RESYNC_MIN_FRAMES start 0 then true
      else validFramingResumesFrom data fileSize fuel (start + 1)
    else false

def validFramingResumes (data : Bytes) (start fileSize : ℕ) : Bool :=
  validFramingResumesFrom data fileSize (fileSize + 1) start

inductive RecoveryScan.Kind
  | clean | truncateTail | midFileCorruption
deriving DecidableEq, Repr

structure RecoveryScan where
  kind : RecoveryScan.Kind
  validEnd : ℕ
deriving DecidableEq, Repr

def scanLoop (data : Bytes) (fileSize : ℕ) : ℕ → ℕ → RecoveryScan
  | 0, pos => ⟨.clean, pos⟩
  | fuel + 1, pos =>
    if pos = fileSize then ⟨.clean, fileSize⟩
    else if fileSize < pos + TRANSACTION_LOG_ENTRY_HEADER_SIZE then ⟨.truncateTail, pos⟩
    else if (readDoubleBE data pos).isZero then ⟨.clean, pos⟩
    else
      let length := readUint32BE data (pos + 8)
      if length = 0 ∨ fileSize < pos + TRANSACTION_LOG_ENTRY_HEADER_SIZE + length then
        if validFramingResumes data (pos + 1) fileSize then ⟨.midFileCorruption, pos⟩
        else ⟨.truncateTail, pos⟩
      else scanLoop data fileSize fuel (frameEnd data pos)

def scanTransactionLogForRecovery (data : Bytes) (fileSize : ℕ) : RecoveryScan :=
  if fileSize ≤ TRANSACTION_LOG_FILE_HEADER_SIZE then ⟨.clean, fileSize⟩
  else scanLoop data fileSize (fileSize + 1) TRANSACTION_LOG_FILE_HEADER_SIZE

def countLoop (data : Bytes) (fileSize : ℕ) : ℕ → ℕ → ℕ
  | 0, _ => 0
  | fuel + 1, pos =>
    if pos + TRANSACTION_LOG_ENTRY_HEADER_SIZE ≤ fileSize then
      if (readDoubleBE data pos).isZero then 0
      else
        let length := readUint32BE data (pos + 8)
        if length = 0 ∨ fileSize < pos + TRANSACTION_LOG_ENTRY_HEADER_SIZE + length then 0
        else countLoop data fileSize fuel (frameEnd data pos) + 1
    else 0

def countTransactionLogEntries (data : Bytes) (fileSize : ℕ) : ℕ :=
  if fileSize ≤ TRANSACTION_LOG_FILE_HEADER_SIZE then 0
  else countLoop data fileSize (fileSize + 1) TRANSACTION_LOG_FILE_HEADER_SIZE

end RocksdbJs
