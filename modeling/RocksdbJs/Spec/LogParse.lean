import RocksdbJs.Spec.LogFormat

/-! `parseTransactionLog` (`parse-transaction-log.ts`). The file does not change while it is read,
so a short read is a read past its end. -/

namespace RocksdbJs

/-- `Date.UTC(2026, 0, 27)`. -/
def MIN_VALID_TIMESTAMP : Binary64 := ⟨0x4279BFCC00000000⟩

def VALID_FLAGS_MASK : UInt8 := 0x01

inductive Anomaly
  /-- The timestamp is not finite or predates the format. -/
  | timestamp
  /-- The flags have an undefined bit. -/
  | flags
deriving DecidableEq, Repr

structure LogEntry where
  timestamp : Binary64
  length : ℕ
  flags : UInt8
  /-- Absent with `skipData`. -/
  data : Option Bytes
  anomalies : List Anomaly
deriving DecidableEq

structure ParsedLog where
  anomalies : List Anomaly
  entries : List LogEntry
  entryAnomalyCount : ℕ
  timestamp : Binary64
  size : ℕ
  version : UInt8
deriving DecidableEq

inductive ParseError
  | doesNotExist
  | tooSmall
  | shortRead (numBytes bytesRead fileOffset : ℕ)
  | invalidToken
  | unsupportedVersion (version : UInt8)
  | corruptEntry (entryOffset length remaining : ℕ)
deriving DecidableEq, Repr

/-- `!Number.isFinite(timestamp) || timestamp < MIN_VALID_TIMESTAMP`. -/
def timestampAnomalies (timestamp : Binary64) : List Anomaly :=
  if 0x7FF0000000000000 ≤ timestamp.magnitude ∨ Binary64.lt timestamp MIN_VALID_TIMESTAMP then [.timestamp] else []

def flagsAnomalies (flags : UInt8) : List Anomaly := if flags &&& ~~~VALID_FLAGS_MASK ≠ 0 then [.flags] else []

/-- The entry at `fileOffset`, which is whole. -/
def parseEntry (skipData : Bool) (bytes : Bytes) (fileOffset : ℕ) : LogEntry :=
  let timestamp := readDoubleBE bytes fileOffset
  let length := readUint32BE bytes (fileOffset + 8)
  let flags := readUint8 bytes (fileOffset + 12)
  { timestamp
    length
    flags
    data := if skipData then none else some ((bytes.drop (fileOffset + TRANSACTION_LOG_ENTRY_HEADER_SIZE)).take length)
    anomalies := timestampAnomalies timestamp ++ flagsAnomalies flags }

/-- The loop over the entries: what it pushes, and the `size` it leaves. -/
def parseEntries (skipData : Bool) (bytes : Bytes) : ℕ → ℕ → Except ParseError (List LogEntry × ℕ)
  | 0, _ => .ok ([], bytes.length)
  | fuel + 1, fileOffset =>
    let size := bytes.length
    if size ≤ fileOffset then .ok ([], size)
    else if size < fileOffset + 8 then .error (.shortRead 8 (size - fileOffset) size)
    -- zero padding
    else if (readDoubleBE bytes fileOffset).isZero then .ok ([], fileOffset)
    else if size < fileOffset + 12 then .error (.shortRead 4 (size - (fileOffset + 8)) size)
    else if size < fileOffset + TRANSACTION_LOG_ENTRY_HEADER_SIZE then .error (.shortRead 1 0 size)
    else
      let length := readUint32BE bytes (fileOffset + 8)
      let remaining := size - (fileOffset + TRANSACTION_LOG_ENTRY_HEADER_SIZE)
      if remaining < length then .error (.corruptEntry fileOffset length remaining)
      else (parseEntries skipData bytes fuel (fileOffset + TRANSACTION_LOG_ENTRY_HEADER_SIZE + length)).map fun r =>
        (parseEntry skipData bytes fileOffset :: r.1, r.2)

def parseTransactionLog (file : Option Bytes) (skipData : Bool) : Except ParseError ParsedLog :=
  match file with
  | none => .error .doesNotExist
  | some bytes =>
    let size := bytes.length
    if size = 0 then .error .tooSmall
    else if size < 4 then .error (.shortRead 4 size size)
    else if readUint32BE bytes 0 ≠ TRANSACTION_LOG_TOKEN then .error .invalidToken
    else if size < TRANSACTION_LOG_FILE_TIMESTAMP_POSITION then .error (.shortRead 1 0 size)
    else if readUint8 bytes 4 ≠ 1 then .error (.unsupportedVersion (readUint8 bytes 4))
    else if size < TRANSACTION_LOG_FILE_HEADER_SIZE then
      .error (.shortRead 8 (size - TRANSACTION_LOG_FILE_TIMESTAMP_POSITION) size)
    else
      let timestamp := readDoubleBE bytes TRANSACTION_LOG_FILE_TIMESTAMP_POSITION
      (parseEntries skipData bytes (size + 1) TRANSACTION_LOG_FILE_HEADER_SIZE).map fun r =>
        { anomalies := timestampAnomalies timestamp
          entries := r.1
          entryAnomalyCount := (r.1.map fun e => e.anomalies.length).sum
          timestamp
          size := r.2
          version := readUint8 bytes 4 }

end RocksdbJs
