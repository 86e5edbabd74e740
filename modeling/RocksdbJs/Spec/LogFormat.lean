import RocksdbJs.Lib.BigEndian
import RocksdbJs.Lib.Binary64

/-! The transaction log's data: positions, entries and batches, and the version 1
byte format (`transaction_log_store.h`, `transaction_log_entry.h`,
`transaction_log_file.h`). Offsets and sizes are the source's `uint32_t`; a sum
that can leave 32 bits is reduced where the source computes it. Sequence numbers
are plain naturals: one is used up per log file. -/

namespace RocksdbJs

abbrev Bytes := List UInt8

def TRANSACTION_LOG_TOKEN : ℕ := 0x574f4f46
def TRANSACTION_LOG_FILE_TIMESTAMP_POSITION : ℕ := 5
def TRANSACTION_LOG_FILE_HEADER_SIZE : ℕ := 13
def TRANSACTION_LOG_ENTRY_HEADER_SIZE : ℕ := 13
def TRANSACTION_LOG_ENTRY_LAST_FLAG : UInt8 := 0x01

/-- The number of values of a `uint32_t`. -/
def UINT32_RANGE : ℕ := 2 ^ 32

/-- The members stand in the order of the source's constructor, offset first. -/
@[ext] structure LogPosition where
  positionInLogFile : ℕ
  logSequenceNumber : ℕ
deriving DecidableEq, Repr

namespace LogPosition

/-- `operator<`. -/
def operatorLt (a b : LogPosition) : Bool :=
  if a.logSequenceNumber = b.logSequenceNumber then a.positionInLogFile < b.positionInLogFile
  else a.logSequenceNumber < b.logSequenceNumber

/-- `!fullPosition`. The word is read as a double; below sequence number `2 ^ 31` it is
zero exactly at the zero position. -/
def isZero (p : LogPosition) : Bool := p.logSequenceNumber = 0 && p.positionInLogFile = 0

instance : LT LogPosition := ⟨fun a b => operatorLt a b = true⟩
instance : LE LogPosition := ⟨fun a b => operatorLt b a = false⟩
instance (a b : LogPosition) : Decidable (a < b) := inferInstanceAs (Decidable (operatorLt a b = true))
instance (a b : LogPosition) : Decidable (a ≤ b) := inferInstanceAs (Decidable (operatorLt b a = false))

theorem lt_iff {a b : LogPosition} : a < b ↔ a.logSequenceNumber < b.logSequenceNumber ∨
    a.logSequenceNumber = b.logSequenceNumber ∧ a.positionInLogFile < b.positionInLogFile := by
  change operatorLt a b = true ↔ _
  unfold operatorLt
  split_ifs with h <;> simp <;> omega

theorem le_iff {a b : LogPosition} : a ≤ b ↔ a.logSequenceNumber < b.logSequenceNumber ∨
    a.logSequenceNumber = b.logSequenceNumber ∧ a.positionInLogFile ≤ b.positionInLogFile := by
  change operatorLt b a = false ↔ _
  unfold operatorLt
  split_ifs with h <;> simp <;> omega

instance : LinearOrder LogPosition where
  le_refl a := by rw [le_iff]; omega
  le_trans a b c := by simp only [le_iff]; omega
  lt_iff_le_not_ge a b := by simp only [le_iff, lt_iff]; omega
  le_antisymm a b := by simp only [le_iff, LogPosition.ext_iff]; omega
  le_total a b := by simp only [le_iff]; omega
  toDecidableLE := inferInstance
  toDecidableLT := inferInstance

theorem zero_le (a : LogPosition) : (⟨0, 0⟩ : LogPosition) ≤ a := by simp only [le_iff]; omega

theorem isZero_iff {p : LogPosition} : p.isZero = true ↔ p = ⟨0, 0⟩ := by
  simp only [isZero, Bool.and_eq_true, decide_eq_true_eq, LogPosition.ext_iff]; tauto

end LogPosition

/-- An entry as the constructor of `TransactionLogEntry` leaves it: the payload
and the stored size fit the `uint32_t` they are counted in. -/
@[ext] structure TransactionLogEntry where
  data : Bytes
  fits : data.length + TRANSACTION_LOG_ENTRY_HEADER_SIZE < UINT32_RANGE
deriving DecidableEq

/-- The stored size, header included. -/
def TransactionLogEntry.size (e : TransactionLogEntry) : ℕ := e.data.length + TRANSACTION_LOG_ENTRY_HEADER_SIZE

structure TransactionLogEntryBatch where
  timestamp : Binary64
  entries : List TransactionLogEntry
  currentEntryIndex : ℕ := 0
deriving DecidableEq

def TransactionLogEntryBatch.isComplete (b : TransactionLogEntryBatch) : Bool :=
  b.entries.length ≤ b.currentEntryIndex

/-- The entries not written yet. -/
def TransactionLogEntryBatch.pending (b : TransactionLogEntryBatch) : List TransactionLogEntry :=
  b.entries.drop b.currentEntryIndex

def readUint32BE (bytes : Bytes) (pos : ℕ) : ℕ := BigEndian.read 4 bytes pos
def readDoubleBE (bytes : Bytes) (pos : ℕ) : Binary64 := ⟨UInt64.ofNat (BigEndian.read 8 bytes pos)⟩
def readUint8 (bytes : Bytes) (pos : ℕ) : UInt8 := bytes.getD pos 0

def writeUint32BE (n : ℕ) : Bytes := BigEndian.write 4 n
def writeDoubleBE (x : Binary64) : Bytes := BigEndian.write 8 x.bits.toNat

/-- The version 1 file header. -/
def fileHeader (timestamp : Binary64) : Bytes :=
  writeUint32BE TRANSACTION_LOG_TOKEN ++ [1] ++ writeDoubleBE timestamp

/-- One entry as a walker of the log sees it. -/
@[ext] structure LogRecord where
  timestamp : Binary64
  flags : UInt8
  data : Bytes
deriving DecidableEq

/-- The bytes of a record: its 13-byte header, then the payload. -/
def LogRecord.frame (r : LogRecord) : Bytes :=
  writeDoubleBE r.timestamp ++ writeUint32BE r.data.length ++ [r.flags] ++ r.data

/-- The record `writeEntriesV1` makes of the entry at index `i` of the batch. -/
def TransactionLogEntryBatch.record (b : TransactionLogEntryBatch) (i : ℕ) (e : TransactionLogEntry) : LogRecord :=
  ⟨b.timestamp, if i + 1 = b.entries.length then TRANSACTION_LOG_ENTRY_LAST_FLAG else 0, e.data⟩

/-- The records of the whole batch. -/
def TransactionLogEntryBatch.records (b : TransactionLogEntryBatch) : List LogRecord :=
  b.entries.mapIdx b.record

/-- The records of the `n` entries from the batch's cursor on. -/
def TransactionLogEntryBatch.nextRecords (b : TransactionLogEntryBatch) (n : ℕ) : List LogRecord :=
  (b.records.drop b.currentEntryIndex).take n

end RocksdbJs
